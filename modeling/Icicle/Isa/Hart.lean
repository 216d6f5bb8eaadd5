import Icicle.Isa.Encoding
import Icicle.Library.Bytes

/-! A hart of RV32I, with the exceptions of the manual: one instruction at a time on a
memory of bytes. -/
namespace Rv32i
open Bytes

/-- Why an instruction does not complete. -/
inductive Exception where
  | instructionMisaligned
  | instructionFault
  | illegalInstruction
  /-- A jump, or a branch that is taken, to an address between two words. -/
  | targetMisaligned (target : Word)
  | accessMisaligned
  | accessFault
  deriving DecidableEq

/-- The registers, of which `x0` is zero. -/
@[ext] structure Regs where
  x : Reg → Word
  x0 : x 0 = 0

namespace Regs

def reset : Regs := ⟨fun _ => 0, rfl⟩

/-- An operand; an instruction without one reads `x0`. -/
def read (r : Regs) (rs : Option Reg) : Word := r.x (rs.getD 0)

/-- A write to `x0` is discarded. -/
def write (r : Regs) : Option (Reg × Word) → Regs
  | none => r
  | some (rd, v) =>
    if h : rd = 0 then r
    else ⟨Function.update r.x rd v, by rw [Function.update_of_ne (Ne.symm h), r.x0]⟩

theorem write_x (r : Regs) (rd : Reg) (v : Word) :
    (r.write (some (rd, v))).x = if rd = 0 then r.x else Function.update r.x rd v := by
  change (if h : rd = 0 then r
    else ⟨Function.update r.x rd v, by rw [Function.update_of_ne (Ne.symm h), r.x0]⟩ : Regs).x = _
  split <;> rfl

end Regs

abbrev Memory := Word → BitVec 8

def Width.size : Width → ℕ
  | .byte => 1
  | .half => 2
  | .word => 4

namespace Access

def address : Access → Word
  | load _ _ a | store _ a => a

def width : Access → Width
  | load w _ _ | store w _ => w

def isStore : Access → Bool
  | load .. => false
  | store .. => true

def Aligned (a : Access) : Prop := a.width.size ∣ a.address.toNat

instance (a : Access) : Decidable a.Aligned := inferInstanceAs (Decidable (_ ∣ _))

/-- The bytes of the addressed word that an aligned access is about. -/
def lanes (a : Access) : BitVec 4 :=
  BitVec.ofNat 4 (2 ^ a.width.size - 1) <<< (a.address.extractLsb' 0 2).toNat

/-- Whether the access is about a byte of the memory. -/
def Covers (a : Access) (c : Word) : Prop := (c - a.address).toNat < a.width.size

instance (a : Access) (c : Word) : Decidable (a.Covers c) := inferInstanceAs (Decidable (_ < _))

end Access

/-- The value of a load. -/
def loaded (mem : Memory) (w : Width) (zeroExtends : Bool) (a : Word) : Word :=
  if zeroExtends then (Bytes.load mem a w.size).setWidth 32
  else (Bytes.load mem a w.size).signExtend 32

/-- What a hart is connected to: words to execute, where they can be fetched, and the
accesses that fault. -/
structure Platform where
  imem : Word → Option Word
  faults : Access → Bool

structure Hart where
  pc : Word
  regs : Regs

/-- What an instruction does that completes. -/
structure Effect where
  nextPc : Word
  write : Option (Reg × Word)
  access : Option Access
  data : Word

namespace Instruction
variable (i : Instruction) (p : Platform) (mem : Memory) (pc x y : Word)

def ofWord (w : Word) : Except Exception Instruction :=
  match Rv32i.decode w with
  | some i => .ok i
  | none => .error .illegalInstruction

/-- Where execution goes on; a jump to a misaligned address does not complete. -/
def successor : Except Exception Word :=
  match i.target pc x with
  | none => .ok (pc + 4)
  | some u =>
    if i.taken x y then
      if 4 ∣ u.toNat then .ok u else .error (.targetMisaligned u)
    else .ok (pc + 4)

/-- The access to memory, if it can be made. -/
def checked : Except Exception (Option Access) :=
  match i.access x with
  | none => .ok none
  | some a =>
    if a.Aligned then
      if p.faults a then .error .accessFault else .ok (some a)
    else .error .accessMisaligned

/-- The value for the destination register. -/
def result : Option Word :=
  match i.access x with
  | some (.load w z a) => some (loaded mem w z a)
  | _ => i.value pc x y

end Instruction

namespace Hart
variable (p : Platform) (mem : Memory) (h : Hart)

def fetch : Except Exception Word :=
  if 4 ∣ h.pc.toNat then
    match p.imem h.pc with
    | some word => .ok word
    | none => .error .instructionFault
  else .error .instructionMisaligned

def execute (word : Word) : Except Exception Effect := do
  let i ← Instruction.ofWord word
  let x := h.regs.read i.source1
  let y := h.regs.read i.source2
  let nextPc ← i.successor h.pc x y
  let access ← i.checked p x
  let write := i.dest.bind fun rd => (i.result mem h.pc x y).map fun v => (rd, v)
  return { nextPc, write, access, data := y }

end Hart

/-- A hart with its memory. -/
structure Machine where
  hart : Hart
  mem : Memory

/-- One instruction of a machine: the word, if it could be fetched, and what became of it. -/
structure Step where
  before : Machine
  insn : Option Word
  outcome : Except Exception Effect

namespace Step
variable (s : Step)

def raises : Bool :=
  match s.outcome with
  | .ok _ => false
  | .error _ => true

/-- The handler says where execution goes on after an exception. -/
def nextPc (handler : Exception → Word) : Word :=
  match s.outcome with
  | .ok e => e.nextPc
  | .error x => handler x

/-- The register write, unless it is discarded. -/
def write : Option (Reg × Word) :=
  match s.outcome with
  | .ok e => e.write.filter fun w => w.1 != 0
  | .error _ => none

def access : Option Access :=
  match s.outcome with
  | .ok e => e.access
  | .error _ => none

/-- What the instruction reads of a byte of the memory. -/
def reads (c : Word) : Option (BitVec 8) :=
  match s.access with
  | some (.load w z a) => if (Access.load w z a).Covers c then some (s.before.mem c) else none
  | _ => none

/-- What the instruction writes to a byte of the memory. -/
def writes (c : Word) : Option (BitVec 8) :=
  match s.outcome with
  | .ok ⟨_, _, some (.store w a), y⟩ =>
    if (Access.store w a).Covers c then some (byte y (c - a).toNat) else none
  | _ => none

/-- The machine after the instruction. -/
def after (handler : Exception → Word) : Machine where
  hart := { pc := s.nextPc handler, regs := s.before.hart.regs.write s.write }
  mem c := (s.writes c).getD (s.before.mem c)

end Step

namespace Machine

def step (p : Platform) (m : Machine) : Step :=
  match m.hart.fetch p with
  | .ok word => ⟨m, some word, m.hart.execute p m.mem word⟩
  | .error x => ⟨m, none, .error x⟩

/-- One instruction, and the machine behind it. -/
def next (p : Platform) (handler : Exception → Word) (m : Machine) : Step × Machine :=
  (m.step p, (m.step p).after handler)

end Machine

/-- The word that an address lies in. -/
def alignDown (u : Word) : Word := u.extractLsb' 2 30 ++ 0#2

theorem four_dvd_iff (u : Word) : 4 ∣ u.toNat ↔ u.getLsbD 0 = false ∧ u.getLsbD 1 = false := by
  simp only [BitVec.getLsbD, Nat.testBit_eq_decide_div_mod_eq, decide_eq_false_iff_not]
  omega

theorem getLsbD_alignDown (u : Word) (k : ℕ) :
    (alignDown u).getLsbD k = (decide (2 ≤ k) && u.getLsbD k) := by
  unfold alignDown
  rw [BitVec.getLsbD_append, BitVec.getLsbD_extractLsb']
  by_cases h : k < 2
  · simp [h]
  · rw [if_neg h, show 2 + (k - 2) = k by omega, decide_eq_true (show 2 ≤ k by omega)]
    by_cases hk : k < 32
    · simp [show k - 2 < 30 by omega]
    · simp [BitVec.getLsbD_of_ge u k (by omega)]

theorem alignDown_of_dvd {u : Word} (h : 4 ∣ u.toNat) : alignDown u = u := by
  obtain ⟨h0, h1⟩ := (four_dvd_iff u).mp h
  apply BitVec.eq_of_getLsbD_eq
  intro k hk
  rw [getLsbD_alignDown]
  rcases k with _ | _ | k
  · exact h0.symm
  · exact h1.symm
  · simp

namespace Instruction
variable {i : Instruction} {pc x x' y y' : Word}

/-- An instruction depends on the operands that it has. -/
theorem congr_operands (pc : Word) (hx : i.source1 ≠ none → x = x')
    (hy : i.source2 ≠ none → y = y') : i.value pc x y = i.value pc x' y' ∧
      i.taken x y = i.taken x' y' ∧ i.target pc x = i.target pc x' ∧ i.access x = i.access x' := by
  cases i with
  | lui | auipc | jal | fence | fenceI => exact ⟨rfl, rfl, rfl, rfl⟩
  | jalr | load | opImm | shiftImm =>
    obtain rfl := hx (Option.some_ne_none _)
    exact ⟨rfl, rfl, rfl, rfl⟩
  | branch | store | op =>
    obtain rfl := hx (Option.some_ne_none _)
    obtain rfl := hy (Option.some_ne_none _)
    exact ⟨rfl, rfl, rfl, rfl⟩

theorem target_of_taken (pc : Word) (h : i.taken x y = true) : ∃ u, i.target pc x = some u := by
  cases i with
  | jal | jalr | branch => exact ⟨_, rfl⟩
  | lui | auipc | load | store | opImm | shiftImm | op | fence | fenceI => cases h

/-- Targets are even. -/
theorem target_even (hpc : pc.getLsbD 0 = false) {u : Word} (h : i.target pc x = some u) :
    u.getLsbD 0 = false := by
  have hoffset : ∀ {n} (offset : BitVec n),
      (pc + (offset ++ 0#1).signExtend 32).getLsbD 0 = false := by
    intro n offset
    rw [BitVec.getLsbD_add (by omega), hpc, BitVec.getLsbD_signExtend, BitVec.getLsbD_append]
    simp
  cases i with
  | jal rd offset =>
    obtain rfl := Option.some.inj h
    exact hoffset offset
  | jalr rd rs1 offset =>
    obtain rfl := Option.some.inj h
    rw [BitVec.getLsbD_and]
    simp
  | branch cond rs1 rs2 offset =>
    obtain rfl := Option.some.inj h
    exact hoffset offset
  | lui | auipc | load | store | opImm | shiftImm | op | fence | fenceI => cases h

/-- An instruction with a destination loads a value or computes one. -/
theorem access_of_dest (pc x y : Word) {rd : Reg} (h : i.dest = some rd) :
    (∃ w z a, i.access x = some (.load w z a)) ∨
      (i.access x = none ∧ ∃ v, i.value pc x y = some v) := by
  cases i with
  | load => exact .inl ⟨_, _, _, rfl⟩
  | lui | auipc | jal | jalr | opImm | shiftImm | op => exact .inr ⟨rfl, _, rfl⟩
  | branch | store | fence | fenceI => cases h

theorem source2_of_store {w : Width} {a : Word} (h : i.access x = some (.store w a)) :
    i.source2 ≠ none := by
  cases i with
  | store => exact Option.some_ne_none _
  | load => cases h
  | lui | auipc | jal | jalr | branch | opImm | shiftImm | op | fence | fenceI => cases h

end Instruction
end Rv32i
