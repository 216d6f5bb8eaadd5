import Icicle.Isa.Hart

/-! Instructions of a program: where they stand, and what a hart does there that completes
them. -/
namespace Rv32i

/-- The address of a word. -/
def byteAddress (n : ℕ) : Word := BitVec.ofNat 32 (4 * n)

theorem byteAddress_add (n k : ℕ) :
    byteAddress n + BitVec.ofNat 32 (4 * k) = byteAddress (n + k) := by
  rw [byteAddress, byteAddress, ← BitVec.ofNat_add, Nat.mul_add]

theorem byteAddress_succ (n : ℕ) : byteAddress n + 4 = byteAddress (n + 1) := byteAddress_add n 1

theorem toNat_byteAddress {n : ℕ} (h : n < 2 ^ 30) : (byteAddress n).toNat = 4 * n := by
  rw [byteAddress, BitVec.toNat_ofNat, Nat.mod_eq_of_lt (by omega)]

theorem byteAddress_inj {n k : ℕ} (hn : n < 2 ^ 30) (hk : k < 2 ^ 30) :
    byteAddress n = byteAddress k ↔ n = k := by
  refine ⟨fun h => ?_, fun h => h ▸ rfl⟩
  have hnat := congrArg BitVec.toNat h
  rw [toNat_byteAddress hn, toNat_byteAddress hk] at hnat
  omega

theorem four_dvd_byteAddress (n : ℕ) : 4 ∣ (byteAddress n).toNat := by
  rw [byteAddress, BitVec.toNat_ofNat]
  omega

theorem extractLsb'_byteAddress (n : ℕ) : (byteAddress n).extractLsb' 2 30 = BitVec.ofNat 30 n := by
  apply BitVec.eq_of_toNat_eq
  rw [byteAddress, BitVec.extractLsb'_toNat, BitVec.toNat_ofNat, BitVec.toNat_ofNat,
    Nat.shiftRight_eq_div_pow]
  omega

theorem byteAddress_append (n : ℕ) : BitVec.ofNat 30 n ++ 0#2 = byteAddress n := by
  rw [← extractLsb'_byteAddress]
  exact alignDown_of_dvd (four_dvd_byteAddress n)

namespace Regs

theorem write_of_ne (r : Regs) {rd : Reg} (h : rd ≠ 0) (v : Word) (k : Reg) :
    (r.write (some (rd, v))).x k = if k = rd then v else r.x k := by
  rw [write_x, if_neg h, Function.update_apply]

theorem write_write (r : Regs) (rd : Reg) (v w : Word) :
    (r.write (some (rd, v))).write (some (rd, w)) = r.write (some (rd, w)) := by
  ext1
  rw [write_x, write_x, write_x]
  split_ifs
  · rfl
  · rw [Function.update_idem]

/-- A write to `x0` is discarded once. -/
theorem write_filter (r : Regs) (w : Option (Reg × Word)) :
    r.write (w.filter fun w => w.1 != 0) = r.write w := by
  cases w with
  | none => rfl
  | some w =>
    obtain ⟨rd, v⟩ := w
    by_cases h : rd = 0
    · subst h
      ext1
      rw [write_x]
      rfl
    · rw [Option.filter_some, if_pos (by simpa using h)]

end Regs

/-- The memory after the access of an instruction. -/
def written (mem : Memory) (data : Word) : Option Access → Memory
  | some (.store w a) => Bytes.store mem a w.size data
  | _ => mem

/-- An instruction stands at an address from which it can be fetched. -/
structure Platform.Holds (p : Platform) (pc : Word) (i : Instruction) : Prop where
  aligned : 4 ∣ pc.toNat
  word : ∃ w, p.imem pc = some w ∧ decode w = some i

namespace Machine
variable {p : Platform} {m : Machine} {i : Instruction} {pc : Word} {access : Option Access}

/-- What an instruction does that can go on and can make its access. -/
theorem next_of_ok (handler : Exception → Word) (h : p.Holds m.hart.pc i)
    (hsucc : i.successor m.hart.pc (m.hart.regs.read i.source1) (m.hart.regs.read i.source2) =
      .ok pc)
    (hcheck : i.checked p (m.hart.regs.read i.source1) = .ok access) :
    ((m.next p handler).1.raises = false ∧ (m.next p handler).1.access = access) ∧
      (m.next p handler).2.hart =
        { pc := pc
          regs := m.hart.regs.write (i.dest.bind fun rd => (i.result m.mem m.hart.pc
            (m.hart.regs.read i.source1) (m.hart.regs.read i.source2)).map fun v => (rd, v)) } ∧
      (m.next p handler).2.mem = written m.mem (m.hart.regs.read i.source2) access := by
  obtain ⟨w, hw, hdecode⟩ := h.word
  have hfetch : m.hart.fetch p = .ok w := by rw [Hart.fetch, if_pos h.aligned, hw]
  have hexec : m.hart.execute p m.mem w = .ok
      { nextPc := pc
        write := i.dest.bind fun rd => (i.result m.mem m.hart.pc
          (m.hart.regs.read i.source1) (m.hart.regs.read i.source2)).map fun v => (rd, v)
        access := access
        data := m.hart.regs.read i.source2 } := by
    unfold Hart.execute Instruction.ofWord
    rw [hdecode]
    simp only [bind, Except.bind, hsucc, hcheck]
    rfl
  have hstep : m.step p = ⟨m, some w, m.hart.execute p m.mem w⟩ := by rw [Machine.step, hfetch]
  rw [hexec] at hstep
  unfold Machine.next
  rw [hstep]
  refine ⟨⟨rfl, rfl⟩, ?_, ?_⟩
  · exact congrArg (Hart.mk pc) (m.hart.regs.write_filter _)
  · rcases access with - | (- | ⟨width, a⟩)
    · rfl
    · rfl
    · funext c
      change (if (Access.store width a).Covers c then
        some (Bytes.byte (m.hart.regs.read i.source2) (c - a).toNat) else none).getD (m.mem c) =
        if (Access.store width a).Covers c then
          Bytes.byte (m.hart.regs.read i.source2) (c - a).toNat else m.mem c
      split_ifs <;> rfl

end Machine

/-- The two parts of the distance to a symbol: the lower one is sign-extended when it is added. -/
def pcrelHi (d : Word) : BitVec 20 := (d + 0x800#32).extractLsb' 12 20

def pcrelLo (d : Word) : BitVec 12 := d.setWidth 12

theorem pcrel_add (d : Word) : (pcrelHi d ++ 0#12) + (pcrelLo d).signExtend 32 = d := by
  apply BitVec.eq_of_toNat_eq
  have hd := d.isLt
  rw [BitVec.toNat_add, BitVec.toNat_append, BitVec.toNat_signExtend, pcrelHi, pcrelLo,
    BitVec.msb_eq_decide]
  simp only [BitVec.extractLsb'_toNat, BitVec.toNat_add, BitVec.toNat_setWidth,
    BitVec.toNat_ofNat, Nat.shiftRight_eq_div_pow, Nat.shiftLeft_eq]
  norm_num
  split_ifs <;> omega

/-- `la rd, symbol`, at the word `n`. -/
def la (rd : Reg) (n : ℕ) (symbol : Word) : List Instruction :=
  [.auipc rd (pcrelHi (symbol - byteAddress n)),
    .opImm .addi rd rd (pcrelLo (symbol - byteAddress n))]

/-- `call symbol`, at the word `n`. -/
def call (n : ℕ) (symbol : Word) : List Instruction :=
  [.auipc 1 (pcrelHi (symbol - byteAddress n)),
    .jalr 1 1 (pcrelLo (symbol - byteAddress n))]

end Rv32i
