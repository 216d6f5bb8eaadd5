import Mathlib.Tactic

/-! RV32I with FENCE.I and without SYSTEM, as the manual defines it: the instructions,
their encoding formats and what each of them computes. -/
namespace Rv32i

abbrev Word := BitVec 32

abbrev Reg := BitVec 5

inductive AluOp where
  | add | sub | sll | slt | sltu | xor | srl | sra | or | and
  deriving DecidableEq

inductive ImmOp where
  | addi | slti | sltiu | xori | ori | andi
  deriving DecidableEq

inductive ShiftOp where
  | slli | srli | srai
  deriving DecidableEq

inductive BranchCond where
  | beq | bne | blt | bge | bltu | bgeu
  deriving DecidableEq

inductive LoadOp where
  | lb | lh | lw | lbu | lhu
  deriving DecidableEq

inductive StoreOp where
  | sb | sh | sw
  deriving DecidableEq

/-- Offsets of jumps and branches count half-words. -/
inductive Instruction where
  | lui (rd : Reg) (imm : BitVec 20)
  | auipc (rd : Reg) (imm : BitVec 20)
  | jal (rd : Reg) (offset : BitVec 20)
  | jalr (rd rs1 : Reg) (offset : BitVec 12)
  | branch (cond : BranchCond) (rs1 rs2 : Reg) (offset : BitVec 12)
  | load (op : LoadOp) (rd rs1 : Reg) (offset : BitVec 12)
  | store (op : StoreOp) (rs1 rs2 : Reg) (offset : BitVec 12)
  | opImm (op : ImmOp) (rd rs1 : Reg) (imm : BitVec 12)
  | shiftImm (op : ShiftOp) (rd rs1 : Reg) (shamt : BitVec 5)
  | op (op : AluOp) (rd rs1 rs2 : Reg)
  | fence
  | fenceI
  deriving DecidableEq

section Fields
variable (w : Word)

def opcode : BitVec 7 := w.extractLsb' 0 7

def rd : Reg := w.extractLsb' 7 5

def funct3 : BitVec 3 := w.extractLsb' 12 3

def rs1 : Reg := w.extractLsb' 15 5

def rs2 : Reg := w.extractLsb' 20 5

def funct7 : BitVec 7 := w.extractLsb' 25 7

def immI : BitVec 12 := w.extractLsb' 20 12

def immS : BitVec 12 := w.extractLsb' 25 7 ++ w.extractLsb' 7 5

/-- Without bit 0 of the offset, which is zero. -/
def immB : BitVec 12 :=
  w.extractLsb' 31 1 ++ w.extractLsb' 7 1 ++ w.extractLsb' 25 6 ++ w.extractLsb' 8 4

def immU : BitVec 20 := w.extractLsb' 12 20

/-- Without bit 0 of the offset, which is zero. -/
def immJ : BitVec 20 :=
  w.extractLsb' 31 1 ++ w.extractLsb' 12 8 ++ w.extractLsb' 20 1 ++ w.extractLsb' 21 10

end Fields

def BranchCond.ofFunct3 : BitVec 3 → Option BranchCond
  | 0b000#3 => some .beq
  | 0b001#3 => some .bne
  | 0b100#3 => some .blt
  | 0b101#3 => some .bge
  | 0b110#3 => some .bltu
  | 0b111#3 => some .bgeu
  | _ => none

def LoadOp.ofFunct3 : BitVec 3 → Option LoadOp
  | 0b000#3 => some .lb
  | 0b001#3 => some .lh
  | 0b010#3 => some .lw
  | 0b100#3 => some .lbu
  | 0b101#3 => some .lhu
  | _ => none

def StoreOp.ofFunct3 : BitVec 3 → Option StoreOp
  | 0b000#3 => some .sb
  | 0b001#3 => some .sh
  | 0b010#3 => some .sw
  | _ => none

def ImmOp.ofFunct3 : BitVec 3 → Option ImmOp
  | 0b000#3 => some .addi
  | 0b010#3 => some .slti
  | 0b011#3 => some .sltiu
  | 0b100#3 => some .xori
  | 0b110#3 => some .ori
  | 0b111#3 => some .andi
  | _ => none

def ShiftOp.ofFunct : BitVec 3 → BitVec 7 → Option ShiftOp
  | 0b001#3, 0b0000000#7 => some .slli
  | 0b101#3, 0b0000000#7 => some .srli
  | 0b101#3, 0b0100000#7 => some .srai
  | _, _ => none

def AluOp.ofFunct : BitVec 3 → BitVec 7 → Option AluOp
  | 0b000#3, 0b0000000#7 => some .add
  | 0b000#3, 0b0100000#7 => some .sub
  | 0b001#3, 0b0000000#7 => some .sll
  | 0b010#3, 0b0000000#7 => some .slt
  | 0b011#3, 0b0000000#7 => some .sltu
  | 0b100#3, 0b0000000#7 => some .xor
  | 0b101#3, 0b0000000#7 => some .srl
  | 0b101#3, 0b0100000#7 => some .sra
  | 0b110#3, 0b0000000#7 => some .or
  | 0b111#3, 0b0000000#7 => some .and
  | _, _ => none

def decodeOpImm (w : Word) : Option Instruction :=
  match ImmOp.ofFunct3 (funct3 w) with
  | some op => some (.opImm op (rd w) (rs1 w) (immI w))
  | none => (ShiftOp.ofFunct (funct3 w) (funct7 w)).map fun op =>
    .shiftImm op (rd w) (rs1 w) (rs2 w)

def decodeMiscMem (w : Word) : Option Instruction :=
  match funct3 w with
  | 0b000#3 => some .fence
  | 0b001#3 => some .fenceI
  | _ => none

def decode (w : Word) : Option Instruction :=
  match opcode w with
  | 0b0110111#7 => some (.lui (rd w) (immU w))
  | 0b0010111#7 => some (.auipc (rd w) (immU w))
  | 0b1101111#7 => some (.jal (rd w) (immJ w))
  | 0b1100111#7 => if funct3 w = 0 then some (.jalr (rd w) (rs1 w) (immI w)) else none
  | 0b1100011#7 => (BranchCond.ofFunct3 (funct3 w)).map fun c => .branch c (rs1 w) (rs2 w) (immB w)
  | 0b0000011#7 => (LoadOp.ofFunct3 (funct3 w)).map fun op => .load op (rd w) (rs1 w) (immI w)
  | 0b0100011#7 => (StoreOp.ofFunct3 (funct3 w)).map fun op => .store op (rs1 w) (rs2 w) (immS w)
  | 0b0010011#7 => decodeOpImm w
  | 0b0110011#7 =>
    (AluOp.ofFunct (funct3 w) (funct7 w)).map fun o => .op o (rd w) (rs1 w) (rs2 w)
  | 0b0001111#7 => decodeMiscMem w
  | _ => none

/-- `sw x2, 12(x0)`. -/
example : decode 0x00202623#32 = some (.store .sw 0 2 12) := by decide

def AluOp.eval (op : AluOp) (x y : Word) : Word :=
  match op with
  | .add => x + y
  | .sub => x - y
  | .sll => x <<< (y.toNat % 32)
  | .slt => if x.toInt < y.toInt then 1 else 0
  | .sltu => if x.toNat < y.toNat then 1 else 0
  | .xor => x ^^^ y
  | .srl => x >>> (y.toNat % 32)
  | .sra => x.sshiftRight (y.toNat % 32)
  | .or => x ||| y
  | .and => x &&& y

def ImmOp.alu : ImmOp → AluOp
  | .addi => .add
  | .slti => .slt
  | .sltiu => .sltu
  | .xori => .xor
  | .ori => .or
  | .andi => .and

def ShiftOp.alu : ShiftOp → AluOp
  | .slli => .sll
  | .srli => .srl
  | .srai => .sra

/-- Shifts use the low five bits of the amount. -/
theorem ShiftOp.eval_congr (o : ShiftOp) {x y y' : Word} (h : y.toNat % 32 = y'.toNat % 32) :
    o.alu.eval x y = o.alu.eval x y' := by
  cases o <;> simp only [alu, AluOp.eval, h]

def BranchCond.holds (c : BranchCond) (x y : Word) : Bool :=
  match c with
  | .beq => x == y
  | .bne => x != y
  | .blt => decide (x.toInt < y.toInt)
  | .bge => decide (y.toInt ≤ x.toInt)
  | .bltu => decide (x.toNat < y.toNat)
  | .bgeu => decide (y.toNat ≤ x.toNat)

inductive Width where
  | byte | half | word
  deriving DecidableEq

def LoadOp.width : LoadOp → Width
  | .lb | .lbu => .byte
  | .lh | .lhu => .half
  | .lw => .word

def LoadOp.zeroExtends : LoadOp → Bool
  | .lbu | .lhu => true
  | .lb | .lh | .lw => false

def StoreOp.width : StoreOp → Width
  | .sb => .byte
  | .sh => .half
  | .sw => .word

/-- An access to memory at a byte address. -/
inductive Access where
  | load (width : Width) (zeroExtends : Bool) (address : Word)
  | store (width : Width) (address : Word)
  deriving DecidableEq

namespace Instruction
variable (i : Instruction) (pc x y : Word)

/-- The value for `rd` at `pc` when `rs1` and `rs2` hold `x` and `y`, if no memory is read. -/
def value : Option Word :=
  match i with
  | lui _ imm => some (imm ++ 0#12)
  | auipc _ imm => some (pc + (imm ++ 0#12))
  | jal .. => some (pc + 4)
  | jalr .. => some (pc + 4)
  | opImm o _ _ imm => some (o.alu.eval x (imm.signExtend 32))
  | shiftImm o _ _ shamt => some (o.alu.eval x (shamt.setWidth 32))
  | op o _ _ _ => some (o.eval x y)
  | branch .. | load .. | store .. | fence | fenceI => none

def taken : Bool :=
  match i with
  | jal .. | jalr .. => true
  | branch cond _ _ _ => cond.holds x y
  | _ => false

/-- Where a jump, or a branch that is taken, goes. -/
def target : Option Word :=
  match i with
  | jal _ offset => some (pc + (offset ++ 0#1).signExtend 32)
  | jalr _ _ offset => some ((x + offset.signExtend 32) &&& ~~~1#32)
  | branch _ _ _ offset => some (pc + (offset ++ 0#1).signExtend 32)
  | _ => none

def access : Option Access :=
  match i with
  | load o _ _ offset => some (.load o.width o.zeroExtends (x + offset.signExtend 32))
  | store o _ _ offset => some (.store o.width (x + offset.signExtend 32))
  | _ => none

end Instruction
end Rv32i
