import Icicle.Soc.Program

/-! The startup code of the example programs (`start.s`), placed by `icebreaker.lds`: it
clears `.bss`, copies `.data` from the flash to the RAM and calls `main`. -/
namespace Icicle
open Bytes Clocked
open Rv32i (byteAddress)

/-- The word at which the flash region begins, with `start` first in it. -/
def startWord : ℕ := 0x40000

/-- Where the linker puts the sections, which `ALIGN(4)` makes whole words: their first
words in the RAM, the first word of the image of `.data` in the flash, and the word of
`main` there. A call that is near can be relaxed to one instruction. -/
structure Layout where
  data : ℕ
  dataWords : ℕ
  bss : ℕ
  bssWords : ℕ
  dataFlash : ℕ
  main : ℕ
  relaxed : Bool
  ordered : data + dataWords ≤ bss
  ram : bss + bssWords ≤ 2 ^ 15
  flash : dataFlash + dataWords ≤ 2 ^ 22
  text : startWord + (if relaxed then 24 else 25) ≤ main
  mainFlash : main < 2 ^ 22
  near : relaxed = true → main < startWord + 2 ^ 18

namespace Start

def zero : Rv32i.Reg := 0
def ra : Rv32i.Reg := 1
def sp : Rv32i.Reg := 2
def t0 : Rv32i.Reg := 5
def t1 : Rv32i.Reg := 6
def t2 : Rv32i.Reg := 7
def t3 : Rv32i.Reg := 28

end Start

namespace Layout
variable (l : Layout)

def bss_start : Word := byteAddress (2 ^ 28 + l.bss)
def bss_end : Word := byteAddress (2 ^ 28 + (l.bss + l.bssWords))
def data_flash_start : Word := byteAddress l.dataFlash
def data_start : Word := byteAddress (2 ^ 28 + l.data)
def data_end : Word := byteAddress (2 ^ 28 + (l.data + l.dataWords))

/-- The end of the RAM. -/
def stack_top : Word := byteAddress (2 ^ 28 + 2 ^ 15)

/-- The distance of a jump from the word `n`, in half-words. -/
def jump (n m : ℕ) : BitVec 20 := BitVec.ofNat 20 (2 * (m - n))

open Start in
/-- `clear_bss` is the word 5 and `clear_bss_done` the word 8. -/
def start_clear : List Rv32i.Instruction :=
  Rv32i.la t0 startWord l.bss_start ++
  Rv32i.la t1 (startWord + 2) l.bss_end ++
  [.branch .beq t0 t1 8,
    .store .sw t0 zero 0,
    .opImm .addi t0 t0 4,
    .branch .bne t0 t1 (-4)]

open Start in
/-- `copy_data` is the word 15 and `copy_data_done` the word 20. -/
def start_copy : List Rv32i.Instruction :=
  Rv32i.la t0 (startWord + 8) l.data_flash_start ++
  Rv32i.la t1 (startWord + 10) l.data_start ++
  Rv32i.la t2 (startWord + 12) l.data_end ++
  [.branch .beq t1 t2 12,
    .load .lw t3 t0 0,
    .store .sw t1 t3 0,
    .opImm .addi t0 t0 4,
    .opImm .addi t1 t1 4,
    .branch .bne t1 t2 (-8)]

open Start in
/-- The call, and the endless loop for a `main` that returns. -/
def start_main : List Rv32i.Instruction :=
  Rv32i.la sp (startWord + 20) stack_top ++
  (if l.relaxed then [.jal ra (jump (startWord + 22) l.main)]
    else Rv32i.call (startWord + 22) (byteAddress l.main)) ++
  [.jal zero 0]

def start : List Rv32i.Instruction := l.start_clear ++ l.start_copy ++ l.start_main

/-- The flash holds the program at the reset vector. -/
def Loaded (flash : BitVec 24 → BitVec 8) : Prop :=
  ∀ k i, l.start[k]? = some i → Stands flash (startWord + k) i

/-- The number of instructions up to `main`. -/
def steps : ℕ := 5 + l.bssWords * 3 + (7 + l.dataWords * 5) + (if l.relaxed then 3 else 4)

/-- The word `j` of the image of `.data`. -/
def image (flash : BitVec 24 → BitVec 8) (j : ℕ) : Word :=
  flashWord flash (BitVec.ofNat 22 (l.dataFlash + j))

/-- The RAM with `.bss` cleared and `.data` filled from its image. -/
def initialised (flash : BitVec 24 → BitVec 8) (ram : BitVec 15 → Word) : BitVec 15 → Word :=
  fun o =>
    if l.bss ≤ o.toNat ∧ o.toNat < l.bss + l.bssWords then 0
    else if l.data ≤ o.toNat ∧ o.toNat < l.data + l.dataWords then
      l.image flash (o.toNat - l.data)
    else ram o

/-- The program is at `main`, with the stack and the sections set up; `main` returns to the
endless loop behind the call. -/
structure Started (flash : BitVec 24 → BitVec 8) (ram : BitVec 15 → Word) (h : SocMachine) :
    Prop where
  pc : h.hart.pc = byteAddress l.main
  sp : h.hart.regs.x Start.sp = stack_top
  ra : h.hart.regs.x Start.ra = byteAddress (startWord + if l.relaxed then 23 else 24)
  ram : h.ram = l.initialised flash ram

/-- An instruction before the endless loop, which completes. -/
structure Safe (flash : BitVec 24 → BitVec 8) (h : SocMachine) : Prop where
  pc : ∃ k < 24, startWord + k + 1 < l.main ∧ h.hart.pc = byteAddress (startWord + k)
  moves : ∃ h', Moves flash h h'

end Layout

/-- The first `j` words from `b` on. -/
def filled (ram : BitVec 15 → Word) (b : ℕ) (f : ℕ → Word) (j : ℕ) : BitVec 15 → Word :=
  fun o => if b ≤ o.toNat ∧ o.toNat < b + j then f (o.toNat - b) else ram o

theorem filled_zero (ram : BitVec 15 → Word) (b : ℕ) (f : ℕ → Word) : filled ram b f 0 = ram := by
  funext o
  exact if_neg (by omega)

theorem filled_succ (ram : BitVec 15 → Word) {b j : ℕ} (f : ℕ → Word) (h : b + j < 2 ^ 15) :
    Function.update (filled ram b f j) (BitVec.ofNat 15 (b + j)) (f j) =
      filled ram b f (j + 1) := by
  have hnat : (BitVec.ofNat 15 (b + j)).toNat = b + j := by
    rw [BitVec.toNat_ofNat, Nat.mod_eq_of_lt h]
  funext o
  by_cases ho : o = BitVec.ofNat 15 (b + j)
  · have hin : b ≤ o.toNat ∧ o.toNat < b + (j + 1) := by rw [ho, hnat]; omega
    rw [ho, Function.update_self, ← ho, filled, if_pos hin, ho, hnat, Nat.add_sub_cancel_left]
  · have hne : o.toNat ≠ b + j := fun he => ho (BitVec.eq_of_toNat_eq (he.trans hnat.symm))
    rw [Function.update_of_ne ho, filled, filled]
    refine if_congr ?_ rfl rfl
    omega

theorem Layout.filled_filled (l : Layout) (flash : BitVec 24 → BitVec 8)
    (ram : BitVec 15 → Word) :
    filled (filled ram l.bss (fun _ => 0) l.bssWords) l.data (l.image flash) l.dataWords =
      l.initialised flash ram := by
  have hordered := l.ordered
  funext o
  unfold filled initialised
  dsimp only
  split_ifs <;> first | rfl | omega

section Rules
variable {flash : BitVec 24 → BitVec 8} {h : SocMachine} {n : ℕ}

theorem moves_addi {rd rs1 : Rv32i.Reg} {imm : BitVec 12}
    (hi : Stands flash n (.opImm .addi rd rs1 imm)) (hpc : h.hart.pc = byteAddress n) :
    Moves flash h
      { hart :=
          { pc := byteAddress (n + 1)
            regs := h.hart.regs.write (some (rd, h.hart.regs.x rs1 + imm.signExtend 32)) }
        ram := h.ram } :=
  moves_of_no_access hi hpc (congrArg Except.ok (Rv32i.byteAddress_succ n)) rfl

theorem moves_auipc {rd : Rv32i.Reg} {imm : BitVec 20}
    (hi : Stands flash n (.auipc rd imm)) (hpc : h.hart.pc = byteAddress n) :
    Moves flash h
      { hart :=
          { pc := byteAddress (n + 1)
            regs := h.hart.regs.write (some (rd, byteAddress n + (imm ++ 0#12))) }
        ram := h.ram } :=
  moves_of_no_access hi hpc (congrArg Except.ok (Rv32i.byteAddress_succ n)) rfl

theorem moves_branch {c : Rv32i.BranchCond} {rs1 rs2 : Rv32i.Reg} {offset : BitVec 12} {m : ℕ}
    (hi : Stands flash n (.branch c rs1 rs2 offset)) (hpc : h.hart.pc = byteAddress n)
    (hm : byteAddress n + (offset ++ 0#1).signExtend 32 = byteAddress m) :
    Moves flash h
      { hart :=
          { pc := byteAddress (if c.holds (h.hart.regs.x rs1) (h.hart.regs.x rs2) then m else n + 1)
            regs := h.hart.regs }
        ram := h.ram } := by
  refine moves_of_no_access hi hpc (i := .branch c rs1 rs2 offset) ?_ rfl
  unfold Rv32i.Instruction.successor
  change (if c.holds (h.hart.regs.x rs1) (h.hart.regs.x rs2) = true then
      (if 4 ∣ (byteAddress n + (offset ++ 0#1).signExtend 32).toNat then
        Except.ok (byteAddress n + (offset ++ 0#1).signExtend 32) else _)
    else Except.ok (byteAddress n + 4)) = _
  rw [hm, if_pos (Rv32i.four_dvd_byteAddress m), Rv32i.byteAddress_succ]
  split_ifs <;> rfl

theorem moves_beq {rs1 rs2 : Rv32i.Reg} {offset : BitVec 12} {m : ℕ}
    (hi : Stands flash n (.branch .beq rs1 rs2 offset)) (hpc : h.hart.pc = byteAddress n)
    (hm : byteAddress n + (offset ++ 0#1).signExtend 32 = byteAddress m) :
    Moves flash h
      { hart :=
          { pc := byteAddress (if h.hart.regs.x rs1 = h.hart.regs.x rs2 then m else n + 1)
            regs := h.hart.regs }
        ram := h.ram } := by
  have hmoves := moves_branch hi hpc hm
  simpa only [Rv32i.BranchCond.holds, beq_iff_eq] using hmoves

theorem moves_bne {rs1 rs2 : Rv32i.Reg} {offset : BitVec 12} {m : ℕ}
    (hi : Stands flash n (.branch .bne rs1 rs2 offset)) (hpc : h.hart.pc = byteAddress n)
    (hm : byteAddress n + (offset ++ 0#1).signExtend 32 = byteAddress m) :
    Moves flash h
      { hart :=
          { pc := byteAddress (if h.hart.regs.x rs1 = h.hart.regs.x rs2 then n + 1 else m)
            regs := h.hart.regs }
        ram := h.ram } := by
  have hmoves := moves_branch hi hpc hm
  simpa only [Rv32i.BranchCond.holds, bne_iff_ne, ne_eq, ite_not] using hmoves

theorem moves_jal {rd : Rv32i.Reg} {offset : BitVec 20} {m : ℕ}
    (hi : Stands flash n (.jal rd offset)) (hpc : h.hart.pc = byteAddress n)
    (hm : byteAddress n + (offset ++ 0#1).signExtend 32 = byteAddress m) :
    Moves flash h
      { hart :=
          { pc := byteAddress m
            regs := h.hart.regs.write (some (rd, byteAddress (n + 1))) }
        ram := h.ram } := by
  rw [← Rv32i.byteAddress_succ]
  refine moves_of_no_access hi hpc (i := .jal rd offset) ?_ rfl
  unfold Rv32i.Instruction.successor
  change (if 4 ∣ (byteAddress n + (offset ++ 0#1).signExtend 32).toNat then
    Except.ok (byteAddress n + (offset ++ 0#1).signExtend 32) else _) = _
  rw [hm, if_pos (Rv32i.four_dvd_byteAddress m)]

theorem moves_jalr {rd rs1 : Rv32i.Reg} {offset : BitVec 12} {m : ℕ}
    (hi : Stands flash n (.jalr rd rs1 offset)) (hpc : h.hart.pc = byteAddress n)
    (hm : h.hart.regs.x rs1 + offset.signExtend 32 = byteAddress m) :
    Moves flash h
      { hart :=
          { pc := byteAddress m
            regs := h.hart.regs.write (some (rd, byteAddress (n + 1))) }
        ram := h.ram } := by
  have heven : byteAddress m &&& ~~~1#32 = byteAddress m := by
    obtain ⟨h0, -⟩ := (Rv32i.four_dvd_iff _).mp (Rv32i.four_dvd_byteAddress m)
    apply BitVec.eq_of_getLsbD_eq
    intro k hk
    rw [BitVec.getLsbD_and, BitVec.getLsbD_not, decide_eq_true hk, Bool.true_and,
      BitVec.getLsbD_one]
    cases k with
    | zero => rw [h0]; rfl
    | succ k => simp
  rw [← Rv32i.byteAddress_succ]
  refine moves_of_no_access hi hpc (i := .jalr rd rs1 offset) ?_ rfl
  unfold Rv32i.Instruction.successor
  change (if 4 ∣ ((h.hart.regs.x rs1 + offset.signExtend 32) &&& ~~~1#32).toNat then
    Except.ok ((h.hart.regs.x rs1 + offset.signExtend 32) &&& ~~~1#32) else _) = _
  rw [hm, heven, if_pos (Rv32i.four_dvd_byteAddress m)]

end Rules

section Blocks
variable {l : Layout} {flash : BitVec 24 → BitVec 8} {h h' : SocMachine}
  {Q : SocMachine → Prop} {n k : ℕ}

/-- The program runs for `n` instructions and then `Q` holds. -/
abbrev Layout.Runs (l : Layout) (flash : BitVec 24 → BitVec 8) :
    ℕ → (SocMachine → Prop) → SocMachine → Prop :=
  Ensures (socNext flash) (l.Safe flash)

theorem runs_step (hk : k < if l.relaxed then 23 else 24)
    (hpc : h.hart.pc = byteAddress (startWord + k)) (hm : Moves flash h h')
    (hrest : l.Runs flash n Q h') : l.Runs flash (n + 1) Q h := by
  have htext := l.text
  refine Ensures.step ⟨⟨k, ?_, ?_, hpc⟩, h', hm⟩ hm.next hrest
  · split_ifs at hk <;> omega
  · split_ifs at hk htext <;> omega

theorem lt_of_lt_23 (l : Layout) (hk : k < 23) : k < if l.relaxed then 23 else 24 := by
  split_ifs <;> omega

theorem runs_la (hl : l.Loaded flash) (rd : Rv32i.Reg) {symbol : Word} (hk : k < 22)
    (hpc : h.hart.pc = byteAddress (startWord + k)) (hrd : rd ≠ 0)
    (hhi : l.start[k]? = some (.auipc rd
      (Rv32i.pcrelHi (symbol - byteAddress (startWord + k)))))
    (hlo : l.start[k + 1]? = some (.opImm .addi rd rd
      (Rv32i.pcrelLo (symbol - byteAddress (startWord + k)))))
    (hrest : l.Runs flash n Q
      { hart :=
          { pc := byteAddress (startWord + (k + 2))
            regs := h.hart.regs.write (some (rd, symbol)) }
        ram := h.ram }) : l.Runs flash (n + 2) Q h := by
  refine runs_step (lt_of_lt_23 l (by omega)) hpc (moves_auipc (hl k _ hhi) hpc) ?_
  refine runs_step (k := k + 1) (lt_of_lt_23 l (by omega)) rfl (moves_addi (hl _ _ hlo) rfl) ?_
  have hsum : byteAddress (startWord + k) +
      (Rv32i.pcrelHi (symbol - byteAddress (startWord + k)) ++ 0#12) +
      (Rv32i.pcrelLo (symbol - byteAddress (startWord + k))).signExtend 32 = symbol := by
    rw [BitVec.add_assoc, Rv32i.pcrel_add, BitVec.add_comm, BitVec.sub_add_cancel]
  dsimp only
  rw [Rv32i.Regs.write_of_ne _ hrd, if_pos rfl, hsum, Rv32i.Regs.write_write]
  exact hrest

/-- The loop that clears `.bss`, after `j` words. -/
structure Clears (l : Layout) (ram : BitVec 15 → Word) (j : ℕ) (h : SocMachine) : Prop where
  pc : h.hart.pc = byteAddress (if j = l.bssWords then startWord + 8 else startWord + 5)
  t0 : h.hart.regs.x Start.t0 = byteAddress (2 ^ 28 + (l.bss + j))
  t1 : h.hart.regs.x Start.t1 = l.bss_end
  ram : h.ram = filled ram l.bss (fun _ => 0) j

theorem bss_end_iff (l : Layout) {j : ℕ} (hj : j ≤ l.bssWords) :
    byteAddress (2 ^ 28 + (l.bss + j)) = l.bss_end ↔ j = l.bssWords := by
  have hram := l.ram
  rw [Layout.bss_end, Rv32i.byteAddress_inj (by omega) (by omega)]
  omega

theorem clear_bss (hl : l.Loaded flash) {ram : BitVec 15 → Word} {j : ℕ} (hj : j < l.bssWords)
    (hc : Clears l ram j h) : l.Runs flash 3 (Clears l ram (j + 1)) h := by
  have hram := l.ram
  have hpc := hc.pc
  rw [if_neg (Nat.ne_of_lt hj)] at hpc
  have hadr : h.hart.regs.x Start.t0 + (0#12).signExtend 32 =
      byteAddress (2 ^ 28 + (l.bss + j)) := by
    rw [hc.t0]
    exact BitVec.add_zero _
  refine runs_step (lt_of_lt_23 l (by omega)) hpc (moves_of_store (hl 5 _ rfl) hpc
    (congrArg Except.ok (Rv32i.byteAddress_succ _)) (k := l.bss + j) (by omega) rfl
    (congrArg (fun a => some (Rv32i.Access.store .word a)) hadr)) ?_
  refine runs_step (k := 6) (lt_of_lt_23 l (by omega)) rfl (moves_addi (hl 6 _ rfl) rfl) ?_
  refine runs_step (k := 7) (lt_of_lt_23 l (by omega)) rfl
    (moves_bne (m := startWord + 5) (hl 7 _ rfl) rfl (by decide)) ?_
  set r := h.hart.regs.write
    (some (Start.t0, h.hart.regs.x Start.t0 + (4 : BitVec 12).signExtend 32)) with hr
  have ht0 : r.x Start.t0 = byteAddress (2 ^ 28 + (l.bss + (j + 1))) := by
    rw [hr, Rv32i.Regs.write_of_ne _ (by decide), if_pos rfl, hc.t0]
    exact Rv32i.byteAddress_succ _
  have ht1 : r.x Start.t1 = l.bss_end := by
    rw [hr, Rv32i.Regs.write_of_ne _ (by decide), if_neg (by decide), hc.t1]
  refine ⟨?_, ht0, ht1, ?_⟩
  · change byteAddress (if r.x Start.t0 = r.x Start.t1 then _ else _) = _
    rw [ht0, ht1]
    exact congrArg byteAddress (if_congr (bss_end_iff l hj) rfl rfl)
  · have hzero : h.hart.regs.x Start.zero = 0 := h.hart.regs.x0
    change Function.update h.ram _ (h.hart.regs.x Start.zero) = _
    rw [hc.ram, hzero]
    exact filled_succ ram (fun _ => 0) (by omega)

/-- The code up to `clear_bss_done`. -/
theorem runs_clear (hl : l.Loaded flash) (hpc : h.hart.pc = byteAddress startWord)
    (hrest : ∀ h' : SocMachine, h'.hart.pc = byteAddress (startWord + 8) →
      h'.ram = filled h.ram l.bss (fun _ => 0) l.bssWords → l.Runs flash n Q h') :
    l.Runs flash (5 + l.bssWords * 3 + n) Q h := by
  have hram := l.ram
  have hloop : l.Runs flash (5 + l.bssWords * 3) (Clears l h.ram l.bssWords) h := by
    rw [Nat.add_comm]
    refine runs_la (k := 0) hl Start.t0 (by omega) hpc (by decide) rfl rfl ?_
    refine runs_la (k := 2) hl Start.t1 (by omega) rfl (by decide) rfl rfl ?_
    refine runs_step (k := 4) (lt_of_lt_23 l (by omega)) rfl
      (moves_beq (m := startWord + 8) (hl 4 _ rfl) rfl (by decide)) ?_
    set r := (h.hart.regs.write (some (Start.t0, l.bss_start))).write
      (some (Start.t1, l.bss_end)) with hr
    have ht0 : r.x Start.t0 = byteAddress (2 ^ 28 + (l.bss + 0)) := by
      rw [hr, Rv32i.Regs.write_of_ne _ (by decide), if_neg (by decide),
        Rv32i.Regs.write_of_ne _ (by decide), if_pos rfl]
      rfl
    have ht1 : r.x Start.t1 = l.bss_end := by
      rw [hr, Rv32i.Regs.write_of_ne _ (by decide), if_pos rfl]
    refine Ensures.loop (Clears l h.ram) (fun j hj h => clear_bss hl hj) ⟨?_, ht0, ht1, ?_⟩
    · change byteAddress (if r.x Start.t0 = r.x Start.t1 then _ else _) = _
      rw [ht0, ht1]
      exact congrArg byteAddress (if_congr (bss_end_iff l (Nat.zero_le _)) rfl rfl)
    · exact (filled_zero _ _ _).symm
  refine hloop.trans fun h' hc => hrest h' ?_ hc.ram
  rw [hc.pc, if_pos rfl]

/-- The loop that copies `.data`, after `j` words. -/
structure Copies (l : Layout) (flash : BitVec 24 → BitVec 8) (ram : BitVec 15 → Word) (j : ℕ)
    (h : SocMachine) : Prop where
  pc : h.hart.pc = byteAddress (if j = l.dataWords then startWord + 20 else startWord + 15)
  t0 : h.hart.regs.x Start.t0 = byteAddress (l.dataFlash + j)
  t1 : h.hart.regs.x Start.t1 = byteAddress (2 ^ 28 + (l.data + j))
  t2 : h.hart.regs.x Start.t2 = l.data_end
  ram : h.ram = filled ram l.data (l.image flash) j

theorem data_end_iff (l : Layout) {j : ℕ} (hj : j ≤ l.dataWords) :
    byteAddress (2 ^ 28 + (l.data + j)) = l.data_end ↔ j = l.dataWords := by
  have hordered := l.ordered
  have hram := l.ram
  rw [Layout.data_end, Rv32i.byteAddress_inj (by omega) (by omega)]
  omega

theorem copy_data (hl : l.Loaded flash) {ram : BitVec 15 → Word} {j : ℕ} (hj : j < l.dataWords)
    (hc : Copies l flash ram j h) : l.Runs flash 5 (Copies l flash ram (j + 1)) h := by
  have hordered := l.ordered
  have hram := l.ram
  have hflash := l.flash
  have hpc := hc.pc
  rw [if_neg (Nat.ne_of_lt hj)] at hpc
  have hload : h.hart.regs.x Start.t0 + (0#12).signExtend 32 = byteAddress (l.dataFlash + j) := by
    rw [hc.t0]
    exact BitVec.add_zero _
  refine runs_step (lt_of_lt_23 l (by omega)) hpc (moves_of_load (hl 15 _ rfl) hpc
    (congrArg Except.ok (Rv32i.byteAddress_succ _)) (k := l.dataFlash + j) (by omega)
    (congrArg (fun a => some (Rv32i.Access.load .word false a)) hload)) ?_
  set r := h.hart.regs.write (some (Start.t3, l.image flash j)) with hr
  have hstore : r.x Start.t1 + (0#12).signExtend 32 = byteAddress (2 ^ 28 + (l.data + j)) := by
    rw [hr, Rv32i.Regs.write_of_ne _ (by decide), if_neg (by decide), hc.t1]
    exact BitVec.add_zero _
  refine runs_step (k := 16) (lt_of_lt_23 l (by omega)) rfl (moves_of_store (hl 16 _ rfl) rfl
    (congrArg Except.ok (Rv32i.byteAddress_succ _)) (k := l.data + j) (by omega) rfl
    (congrArg (fun a => some (Rv32i.Access.store .word a)) hstore)) ?_
  refine runs_step (k := 17) (lt_of_lt_23 l (by omega)) rfl (moves_addi (hl 17 _ rfl) rfl) ?_
  refine runs_step (k := 18) (lt_of_lt_23 l (by omega)) rfl (moves_addi (hl 18 _ rfl) rfl) ?_
  refine runs_step (k := 19) (lt_of_lt_23 l (by omega)) rfl
    (moves_bne (m := startWord + 15) (hl 19 _ rfl) rfl (by decide)) ?_
  set r1 := r.write (some (Start.t0, r.x Start.t0 + (4 : BitVec 12).signExtend 32)) with hr1
  set r2 := r1.write (some (Start.t1, r1.x Start.t1 + (4 : BitVec 12).signExtend 32)) with hr2
  have ht0 : r2.x Start.t0 = byteAddress (l.dataFlash + (j + 1)) := by
    rw [hr2, Rv32i.Regs.write_of_ne _ (by decide), if_neg (by decide), hr1,
      Rv32i.Regs.write_of_ne _ (by decide), if_pos rfl, hr, Rv32i.Regs.write_of_ne _ (by decide),
      if_neg (by decide), hc.t0]
    exact Rv32i.byteAddress_succ _
  have ht1 : r2.x Start.t1 = byteAddress (2 ^ 28 + (l.data + (j + 1))) := by
    rw [hr2, Rv32i.Regs.write_of_ne _ (by decide), if_pos rfl, hr1,
      Rv32i.Regs.write_of_ne _ (by decide), if_neg (by decide), hr,
      Rv32i.Regs.write_of_ne _ (by decide), if_neg (by decide), hc.t1]
    exact Rv32i.byteAddress_succ _
  have ht2 : r2.x Start.t2 = l.data_end := by
    rw [hr2, Rv32i.Regs.write_of_ne _ (by decide), if_neg (by decide), hr1,
      Rv32i.Regs.write_of_ne _ (by decide), if_neg (by decide), hr,
      Rv32i.Regs.write_of_ne _ (by decide), if_neg (by decide), hc.t2]
  refine ⟨?_, ht0, ht1, ht2, ?_⟩
  · change byteAddress (if r2.x Start.t1 = r2.x Start.t2 then _ else _) = _
    rw [ht1, ht2]
    exact congrArg byteAddress (if_congr (data_end_iff l hj) rfl rfl)
  · have ht3 : r.x Start.t3 = l.image flash j := by
      rw [hr, Rv32i.Regs.write_of_ne _ (by decide), if_pos rfl]
    change Function.update h.ram _ (r.x Start.t3) = _
    rw [hc.ram, ht3]
    exact filled_succ ram (l.image flash) (by omega)

/-- The code from `clear_bss_done` to `copy_data_done`. -/
theorem runs_copy (hl : l.Loaded flash) (hpc : h.hart.pc = byteAddress (startWord + 8))
    (hrest : ∀ h' : SocMachine, h'.hart.pc = byteAddress (startWord + 20) →
      h'.ram = filled h.ram l.data (l.image flash) l.dataWords → l.Runs flash n Q h') :
    l.Runs flash (7 + l.dataWords * 5 + n) Q h := by
  have hloop : l.Runs flash (7 + l.dataWords * 5) (Copies l flash h.ram l.dataWords) h := by
    rw [Nat.add_comm]
    refine runs_la (k := 8) hl Start.t0 (by omega) hpc (by decide) rfl rfl ?_
    refine runs_la (k := 10) hl Start.t1 (by omega) rfl (by decide) rfl rfl ?_
    refine runs_la (k := 12) hl Start.t2 (by omega) rfl (by decide) rfl rfl ?_
    refine runs_step (k := 14) (lt_of_lt_23 l (by omega)) rfl
      (moves_beq (m := startWord + 20) (hl 14 _ rfl) rfl (by decide)) ?_
    set r0 := h.hart.regs.write (some (Start.t0, l.data_flash_start)) with hr0
    set r1 := r0.write (some (Start.t1, l.data_start)) with hr1
    set r2 := r1.write (some (Start.t2, l.data_end)) with hr2
    have ht0 : r2.x Start.t0 = byteAddress (l.dataFlash + 0) := by
      rw [hr2, Rv32i.Regs.write_of_ne _ (by decide), if_neg (by decide), hr1,
        Rv32i.Regs.write_of_ne _ (by decide), if_neg (by decide), hr0,
        Rv32i.Regs.write_of_ne _ (by decide), if_pos rfl]
      rfl
    have ht1 : r2.x Start.t1 = byteAddress (2 ^ 28 + (l.data + 0)) := by
      rw [hr2, Rv32i.Regs.write_of_ne _ (by decide), if_neg (by decide), hr1,
        Rv32i.Regs.write_of_ne _ (by decide), if_pos rfl]
      rfl
    have ht2 : r2.x Start.t2 = l.data_end := by
      rw [hr2, Rv32i.Regs.write_of_ne _ (by decide), if_pos rfl]
    refine Ensures.loop (Copies l flash h.ram) (fun j hj h => copy_data hl hj)
      ⟨?_, ht0, ht1, ht2, ?_⟩
    · change byteAddress (if r2.x Start.t1 = r2.x Start.t2 then _ else _) = _
      rw [ht1, ht2]
      exact congrArg byteAddress (if_congr (data_end_iff l (Nat.zero_le _)) rfl rfl)
    · exact (filled_zero _ _ _).symm
  refine hloop.trans fun h' hc => hrest h' ?_ hc.ram
  rw [hc.pc, if_pos rfl]

/-- A relaxed call. -/
theorem jump_add (l : Layout) (h : l.relaxed = true) :
    byteAddress (startWord + 22) + (Layout.jump (startWord + 22) l.main ++ 0#1).signExtend 32 =
      byteAddress l.main := by
  have hnear := l.near h
  have htext := l.text
  rw [if_pos h] at htext
  have hlt : 2 * (l.main - (startWord + 22)) < 2 ^ 19 := by omega
  have hoffset : (Layout.jump (startWord + 22) l.main ++ 0#1).signExtend 32 =
      BitVec.ofNat 32 (4 * (l.main - (startWord + 22))) := by
    apply BitVec.eq_of_toNat_eq
    rw [BitVec.toNat_signExtend, BitVec.msb_eq_decide, Layout.jump]
    simp only [BitVec.toNat_append, BitVec.toNat_setWidth, BitVec.toNat_ofNat, Nat.shiftLeft_eq]
    norm_num
    rw [if_neg (by omega)]
    omega
  rw [hoffset, Rv32i.byteAddress_add]
  exact congrArg byteAddress (by omega)

/-- The code from `copy_data_done` to the entry of `main`. -/
theorem runs_call (hl : l.Loaded flash) (hpc : h.hart.pc = byteAddress (startWord + 20))
    (hmain : ∀ h' : SocMachine, h'.hart.pc = byteAddress l.main →
      h'.hart.regs.x Start.sp = Layout.stack_top →
      h'.hart.regs.x Start.ra = byteAddress (startWord + if l.relaxed then 23 else 24) →
      h'.ram = h.ram → Q h') :
    l.Runs flash (if l.relaxed then 3 else 4) Q h := by
  cases hr : l.relaxed with
  | true =>
    have hlast : l.start[22]? = some (.jal Start.ra (Layout.jump (startWord + 22) l.main)) := by
      unfold Layout.start Layout.start_main
      rw [if_pos hr]
      rfl
    rw [hr] at hmain
    refine runs_la (k := 20) (n := 1) hl Start.sp (by omega) hpc (by decide) rfl rfl ?_
    refine runs_step (k := 22) (lt_of_lt_23 l (by omega)) rfl
      (moves_jal (hl 22 _ hlast) rfl (jump_add l hr)) ?_
    refine hmain _ rfl ?_ ?_ rfl
    · rw [Rv32i.Regs.write_of_ne _ (by decide), if_neg (by decide),
        Rv32i.Regs.write_of_ne _ (by decide), if_pos rfl]
    · rw [Rv32i.Regs.write_of_ne _ (by decide), if_pos rfl]
      rfl
  | false =>
    have hhi : l.start[22]? = some (.auipc Start.ra
        (Rv32i.pcrelHi (byteAddress l.main - byteAddress (startWord + 22)))) := by
      unfold Layout.start Layout.start_main
      rw [if_neg (by rw [hr]; exact Bool.false_ne_true)]
      rfl
    have hlo : l.start[23]? = some (.jalr Start.ra Start.ra
        (Rv32i.pcrelLo (byteAddress l.main - byteAddress (startWord + 22)))) := by
      unfold Layout.start Layout.start_main
      rw [if_neg (by rw [hr]; exact Bool.false_ne_true)]
      rfl
    rw [hr] at hmain
    refine runs_la (k := 20) (n := 2) hl Start.sp (by omega) hpc (by decide) rfl rfl ?_
    refine runs_step (k := 22) (lt_of_lt_23 l (by omega)) rfl
      (moves_auipc (hl 22 _ hhi) rfl) ?_
    refine runs_step (k := 23) (by rw [hr]; decide) rfl
      (moves_jalr (m := l.main) (hl 23 _ hlo) rfl ?_) ?_
    · dsimp only
      rw [Rv32i.Regs.write_of_ne _ (by decide), if_pos rfl, BitVec.add_assoc, Rv32i.pcrel_add,
        BitVec.add_comm, BitVec.sub_add_cancel]
    · refine hmain _ rfl ?_ ?_ rfl
      · rw [Rv32i.Regs.write_of_ne _ (by decide), if_neg (by decide),
          Rv32i.Regs.write_of_ne _ (by decide), if_neg (by decide),
          Rv32i.Regs.write_of_ne _ (by decide), if_pos rfl]
      · rw [Rv32i.Regs.write_of_ne _ (by decide), if_pos rfl]
        rfl

/-- The startup code does its work: from the reset vector, with anything in the registers
and in the RAM, and whatever is answered elsewhere. -/
theorem runs_start (hl : l.Loaded flash) (hpc : h.hart.pc = socConfig.resetVector) :
    l.Runs flash l.steps (l.Started flash h.ram) h := by
  unfold Layout.steps
  rw [Nat.add_assoc]
  refine runs_clear hl hpc fun h1 hpc1 hram1 => ?_
  refine runs_copy hl hpc1 fun h2 hpc2 hram2 => ?_
  refine runs_call hl hpc2 fun h3 hpc3 hsp hra hram3 => ⟨hpc3, hsp, hra, ?_⟩
  rw [hram3, hram2, hram1]
  exact l.filled_filled flash h.ram

end Blocks

end Icicle
