import Icicle.Isa.Program
import Icicle.Library.Program
import Icicle.Soc.Execution

/-! Programs in the flash of the system: what their instructions do to the hart and to the
RAM, as long as they stay in these two memories. -/
namespace Icicle
open Wishbone Bytes Icicle.Sequential
open Rv32i (byteAddress)

/-- The flash begins at the word 0. -/
theorem flash_contains {n : ℕ} (h : n < 2 ^ 22) :
    (window .flash).contains (BitVec.ofNat 30 n) = true := by
  refine beq_iff_eq.mpr (BitVec.eq_of_toNat_eq ?_)
  change (BitVec.ofNat 30 n >>> 22).toNat = 0
  rw [BitVec.toNat_ushiftRight, BitVec.toNat_ofNat, Nat.shiftRight_eq_div_pow]
  omega

theorem flash_offset (n : ℕ) : (window .flash).offset (BitVec.ofNat 30 n) = BitVec.ofNat 22 n := by
  apply BitVec.eq_of_toNat_eq
  change (BitVec.ofNat 30 n).toNat % 2 ^ 22 = (BitVec.ofNat 22 n).toNat
  rw [BitVec.toNat_ofNat, BitVec.toNat_ofNat]
  omega

/-- The RAM begins at the word `2 ^ 28`. -/
theorem ram_contains {n : ℕ} (h : n < 2 ^ 15) :
    (window .ram).contains (BitVec.ofNat 30 (2 ^ 28 + n)) = true := by
  refine beq_iff_eq.mpr (BitVec.eq_of_toNat_eq ?_)
  change (BitVec.ofNat 30 (2 ^ 28 + n) >>> 15).toNat = 2 ^ 13
  rw [BitVec.toNat_ushiftRight, BitVec.toNat_ofNat, Nat.shiftRight_eq_div_pow]
  omega

theorem ram_offset (n : ℕ) :
    (window .ram).offset (BitVec.ofNat 30 (2 ^ 28 + n)) = BitVec.ofNat 15 n := by
  apply BitVec.eq_of_toNat_eq
  change (BitVec.ofNat 30 (2 ^ 28 + n)).toNat % 2 ^ 15 = (BitVec.ofNat 15 n).toNat
  rw [BitVec.toNat_ofNat, BitVec.toNat_ofNat]
  omega

/-- An address in the flash or in the RAM. -/
def Inside (adr : BitVec 30) : Prop :=
  (window .flash).contains adr = true ∨ (window .ram).contains adr = true

section Machine
variable {flash : BitVec 24 → BitVec 8} {h h' : SocMachine} {i : Rv32i.Instruction}

theorem ramOf_bytes (words : BitVec 30 → Word) (o : BitVec 15) :
    ramOf (bytes words) o = words ((window .ram).address o) := load_bytes _ _

theorem socWords_ram (ram : BitVec 15 → Word) (x : Answered) (o : BitVec 15) :
    socWords flash ram x ((window .ram).address o) = ram o := by
  have hc := (window .ram).contains_address o
  have ho : (window .ram).offset ((window .ram).address o) = o :=
    (window .ram).offset_address (by decide) o
  rw [socWords, not_flash_of_ram hc, hc, if_neg Bool.false_ne_true, if_pos rfl]
  exact congrArg ram ho

theorem ramOf_words (ram : BitVec 15 → Word) (x : Answered) :
    ramOf (bytes (socWords flash ram x)) = ram :=
  funext fun o => (ramOf_bytes _ o).trans (socWords_ram ram x o)

/-- A word that is stored in the RAM. -/
theorem ramOf_store (ram : BitVec 15 → Word) (x : Answered) (v : Word) {n : ℕ} (hn : n < 2 ^ 15) :
    ramOf (Bytes.store (bytes (socWords flash ram x)) (byteAddress (2 ^ 28 + n)) 4 v) =
      Function.update ram (BitVec.ofNat 15 n) v := by
  set op : MemOp :=
    { store := true, width := .word, unsigned := false, addr := byteAddress (2 ^ 28 + n),
      wdata := v } with hop
  have hadr : op.addr.extractLsb' 2 30 = BitVec.ofNat 30 (2 ^ 28 + n) :=
    Rv32i.extractLsb'_byteAddress _
  have haligned : op.unit.misaligned = false :=
    MemOp.misaligned_iff.mpr (Rv32i.four_dvd_byteAddress _)
  have hmerge : ∀ old, mergeLanes op.unit.mask old op.unit.wdataAligned = v := by
    intro old
    refine eq_of_byte (n := 4) (by omega) fun b hb => ?_
    rw [byte_mergeLanes _ _ _ hb]
    refine if_pos ?_
    change (0b1111#4).getLsbD b = true
    revert b
    decide
  have hstore := MemOp.bytes_store (socWords flash ram x) haligned
  rw [hmerge, hadr] at hstore
  rw [show Bytes.store (bytes (socWords flash ram x)) (byteAddress (2 ^ 28 + n)) 4 v =
    Bytes.store (bytes (socWords flash ram x)) op.addr op.width.size op.wdata from rfl, ← hstore]
  funext o
  rw [ramOf_bytes]
  have hc := ram_contains hn
  by_cases ho : o = BitVec.ofNat 15 n
  · have haddress : (window .ram).address o = BitVec.ofNat 30 (2 ^ 28 + n) := by
      rw [ho, ← ram_offset n]
      exact (window .ram).address_offset hc
    rw [haddress, Function.update_self, ho, Function.update_self]
  · have haddress : (window .ram).address o ≠ BitVec.ofNat 30 (2 ^ 28 + n) := by
      intro he
      have hoff := (window .ram).offset_address (by decide) o
      rw [he, ram_offset] at hoff
      exact ho hoff.symm
    rw [Function.update_of_ne haddress, socWords_ram, Function.update_of_ne ho]

/-- The instruction of `h` completes and leads to `h'`, whatever is answered elsewhere. -/
structure Moves (flash : BitVec 24 → BitVec 8) (h h' : SocMachine) : Prop where
  next : ∀ x, (socNext flash h x).2 = h'
  completes : ∀ x, (socNext flash h x).1.raises = false
  inside : ∀ x a, (socNext flash h x).1.access = some a → Inside (a.address.extractLsb' 2 30)

/-- An instruction stands in a word of the flash. -/
def Stands (flash : BitVec 24 → BitVec 8) (n : ℕ) (i : Rv32i.Instruction) : Prop :=
  n < 2 ^ 22 ∧ Rv32i.decode (flashWord flash (BitVec.ofNat 22 n)) = some i

theorem Stands.holds {n : ℕ} (hi : Stands flash n i) (x : Answered) :
    (socStorage flash x).platform.Holds (byteAddress n) i where
  aligned := Rv32i.four_dvd_byteAddress n
  word := by
    refine ⟨_, ?_, hi.2⟩
    change (if (window .flash).contains ((byteAddress n).extractLsb' 2 30) then _ else _) = _
    rw [Rv32i.extractLsb'_byteAddress, flash_contains hi.1, if_pos rfl, flash_offset]

section Rules
variable {n : ℕ} (hi : Stands flash n i) (hpc : h.hart.pc = byteAddress n) {pc : Word}
  (hsucc : i.successor (byteAddress n) (h.hart.regs.read i.source1)
    (h.hart.regs.read i.source2) = .ok pc)
include hi hpc hsucc

theorem socNext_of_ok (x : Answered) (access : Option Rv32i.Access)
    (hcheck : i.checked (socStorage flash x).platform (h.hart.regs.read i.source1) = .ok access) :
    ((socNext flash h x).1.raises = false ∧ (socNext flash h x).1.access = access) ∧
      (socNext flash h x).2.hart =
        { pc := pc
          regs := h.hart.regs.write (i.dest.bind fun rd =>
            (i.result (bytes (socWords flash h.ram x)) (byteAddress n) (h.hart.regs.read i.source1)
              (h.hart.regs.read i.source2)).map fun v => (rd, v)) } ∧
      (socNext flash h x).2.ram = ramOf (Rv32i.written (bytes (socWords flash h.ram x))
        (h.hart.regs.read i.source2) access) := by
  rw [← hpc] at hsucc
  have hholds : (socStorage flash x).platform.Holds h.hart.pc i := by
    rw [hpc]
    exact hi.holds x
  obtain ⟨hstep, hhart, hmem⟩ := Rv32i.Machine.next_of_ok socConfig.handler
    (m := ⟨h.hart, bytes (socWords flash h.ram x)⟩) hholds hsucc hcheck
  rw [← hpc]
  exact ⟨hstep, hhart, congrArg ramOf hmem⟩

/-- An instruction without an access. -/
theorem moves_of_no_access (hacc : i.access (h.hart.regs.read i.source1) = none) :
    Moves flash h
      { hart :=
          { pc := pc
            regs := h.hart.regs.write (i.dest.bind fun rd => (i.value (byteAddress n)
              (h.hart.regs.read i.source1) (h.hart.regs.read i.source2)).map fun v => (rd, v)) }
        ram := h.ram } := by
  have hall := fun x => socNext_of_ok hi hpc hsucc x none
    (by rw [Rv32i.Instruction.checked, hacc])
  refine ⟨fun x => ?_, fun x => (hall x).1.1, fun x a ha => ?_⟩
  · obtain ⟨-, hhart, hram⟩ := hall x
    rw [Rv32i.Instruction.result, hacc] at hhart
    exact congrArg₂ SocMachine.mk hhart (hram.trans (ramOf_words h.ram x))
  · rw [(hall x).1.2] at ha
    cases ha

/-- An instruction that loads a word from the flash. -/
theorem moves_of_load {k : ℕ} (hk : k < 2 ^ 22)
    (hacc : i.access (h.hart.regs.read i.source1) = some (.load .word false (byteAddress k))) :
    Moves flash h
      { hart :=
          { pc := pc
            regs := h.hart.regs.write
              (i.dest.map fun rd => (rd, flashWord flash (BitVec.ofNat 22 k))) }
        ram := h.ram } := by
  have hwindow : (window .flash).contains ((byteAddress k).extractLsb' 2 30) = true := by
    rw [Rv32i.extractLsb'_byteAddress, flash_contains hk]
  have hfaults : ∀ x, (socStorage flash x).platform.faults (.load .word false (byteAddress k)) =
      false := fun x => if_pos hwindow
  have haligned : Rv32i.Access.Aligned (.load .word false (byteAddress k)) :=
    Rv32i.four_dvd_byteAddress k
  have hall := fun x => socNext_of_ok hi hpc hsucc x
    (some (.load .word false (byteAddress k)))
    (by
      rw [Rv32i.Instruction.checked, hacc]
      dsimp only
      rw [if_pos haligned, hfaults x]
      rfl)
  refine ⟨fun x => ?_, fun x => (hall x).1.1, fun x a ha => ?_⟩
  · obtain ⟨-, hhart, hram⟩ := hall x
    have hloaded : Rv32i.loaded (bytes (socWords flash h.ram x)) .word false (byteAddress k) =
        flashWord flash (BitVec.ofNat 22 k) := by
      rw [Rv32i.loaded, if_neg Bool.false_ne_true, ← Rv32i.byteAddress_append]
      refine (BitVec.signExtend_eq _).trans ((load_bytes _ _).trans ?_)
      rw [socWords, flash_contains hk, if_pos rfl, flash_offset]
    rw [Rv32i.Instruction.result, hacc] at hhart
    dsimp only at hhart
    rw [hloaded] at hhart
    refine congrArg₂ SocMachine.mk (hhart.trans ?_) (hram.trans (ramOf_words h.ram x))
    cases i.dest <;> rfl
  · rw [(hall x).1.2] at ha
    obtain rfl := Option.some.inj ha
    exact .inl hwindow

/-- An instruction that stores a word in the RAM. -/
theorem moves_of_store {k : ℕ} (hk : k < 2 ^ 15) (hdest : i.dest = none)
    (hacc : i.access (h.hart.regs.read i.source1) =
      some (.store .word (byteAddress (2 ^ 28 + k)))) :
    Moves flash h
      { hart := { pc := pc, regs := h.hart.regs }
        ram := Function.update h.ram (BitVec.ofNat 15 k) (h.hart.regs.read i.source2) } := by
  have hwindow : (window .ram).contains ((byteAddress (2 ^ 28 + k)).extractLsb' 2 30) = true := by
    rw [Rv32i.extractLsb'_byteAddress, ram_contains hk]
  have hfaults : ∀ x, (socStorage flash x).platform.faults
      (.store .word (byteAddress (2 ^ 28 + k))) = false :=
    fun x => (if_neg (ne_true_of_eq_false (not_flash_of_ram hwindow))).trans (if_pos hwindow)
  have haligned : Rv32i.Access.Aligned (.store .word (byteAddress (2 ^ 28 + k))) :=
    Rv32i.four_dvd_byteAddress _
  have hall := fun x => socNext_of_ok hi hpc hsucc x
    (some (.store .word (byteAddress (2 ^ 28 + k))))
    (by
      rw [Rv32i.Instruction.checked, hacc]
      dsimp only
      rw [if_pos haligned, hfaults x]
      rfl)
  refine ⟨fun x => ?_, fun x => (hall x).1.1, fun x a ha => ?_⟩
  · obtain ⟨-, hhart, hram⟩ := hall x
    rw [hdest] at hhart
    exact congrArg₂ SocMachine.mk hhart (hram.trans (ramOf_store h.ram x _ hk))
  · rw [(hall x).1.2] at ha
    obtain rfl := Option.some.inj ha
    exact .inr hwindow

end Rules

end Machine
end Icicle
