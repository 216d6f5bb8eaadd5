import Icicle.Datapath.Alu
import Icicle.Datapath.LoadStore

/-! Instruction decoding: the constants of `riscv.py`, the immediate decoder and
the control signals. -/
namespace Icicle

inductive Opcode where
  | lui | auipc | jal | jalr | branch | load | store | opImm | op | miscMem | system
  deriving DecidableEq

/-- The class constants of `Opcode`; other patterns match no case. -/
def Opcode.ofBits : BitVec 7 → Option Opcode
  | 0b0110111#7 => some .lui
  | 0b0010111#7 => some .auipc
  | 0b1101111#7 => some .jal
  | 0b1100111#7 => some .jalr
  | 0b1100011#7 => some .branch
  | 0b0000011#7 => some .load
  | 0b0100011#7 => some .store
  | 0b0010011#7 => some .opImm
  | 0b0110011#7 => some .op
  | 0b0001111#7 => some .miscMem
  | 0b1110011#7 => some .system
  | _ => none

namespace Funct3
@[match_pattern] abbrev zero : BitVec 3 := 0b000#3
-- BRANCH
@[match_pattern] abbrev beq : BitVec 3 := 0b000#3
@[match_pattern] abbrev bne : BitVec 3 := 0b001#3
@[match_pattern] abbrev blt : BitVec 3 := 0b100#3
@[match_pattern] abbrev bge : BitVec 3 := 0b101#3
@[match_pattern] abbrev bltu : BitVec 3 := 0b110#3
@[match_pattern] abbrev bgeu : BitVec 3 := 0b111#3
-- LOAD
abbrev lb : BitVec 3 := 0b000#3
abbrev lh : BitVec 3 := 0b001#3
abbrev lw : BitVec 3 := 0b010#3
abbrev lbu : BitVec 3 := 0b100#3
abbrev lhu : BitVec 3 := 0b101#3
-- STORE
abbrev sb : BitVec 3 := 0b000#3
abbrev sh : BitVec 3 := 0b001#3
abbrev sw : BitVec 3 := 0b010#3
-- OP-IMM/OP
@[match_pattern] abbrev addSub : BitVec 3 := 0b000#3
@[match_pattern] abbrev sll : BitVec 3 := 0b001#3
@[match_pattern] abbrev slt : BitVec 3 := 0b010#3
@[match_pattern] abbrev sltu : BitVec 3 := 0b011#3
@[match_pattern] abbrev xor : BitVec 3 := 0b100#3
@[match_pattern] abbrev srlSra : BitVec 3 := 0b101#3
@[match_pattern] abbrev or : BitVec 3 := 0b110#3
@[match_pattern] abbrev and : BitVec 3 := 0b111#3
-- MISC-MEM
@[match_pattern] abbrev fence : BitVec 3 := 0b000#3
@[match_pattern] abbrev fenceI : BitVec 3 := 0b001#3
-- SYSTEM
abbrev csrrwi : BitVec 3 := 0b101#3
abbrev csrrsi : BitVec 3 := 0b110#3
abbrev csrrci : BitVec 3 := 0b111#3
end Funct3

namespace Funct7
abbrev zero : BitVec 7 := 0b0000000#7
abbrev subSra : BitVec 7 := 0b0100000#7
end Funct7

inductive Format where
  | r | i | s | b | u | j
  deriving DecidableEq

/-- `Value.matches`. -/
def matchesAny {w : ℕ} (x : BitVec w) (patterns : List (BitVec w)) : Bool := patterns.contains x

/-- Sign bits above an immediate of format I, S or B. -/
def signBits (insn : Word) (n : ℕ) : BitVec n := (insn.extractLsb' 31 1).signExtend n

namespace ImmediateDecoder

def immI (insn : Word) : Word :=
  signBits insn 21 ++ insn.extractLsb' 25 6 ++ insn.extractLsb' 21 4 ++ insn.extractLsb' 20 1

def immS (insn : Word) : Word :=
  signBits insn 21 ++ insn.extractLsb' 25 6 ++ insn.extractLsb' 8 4 ++ insn.extractLsb' 7 1

def immB (insn : Word) : Word :=
  signBits insn 20 ++ insn.extractLsb' 7 1 ++ insn.extractLsb' 25 6 ++ insn.extractLsb' 8 4 ++ 0#1

def immU (insn : Word) : Word :=
  insn.extractLsb' 31 1 ++ insn.extractLsb' 20 11 ++ insn.extractLsb' 12 8 ++ 0#12

def immJ (insn : Word) : Word :=
  signBits insn 12 ++ insn.extractLsb' 12 8 ++ insn.extractLsb' 20 1 ++ insn.extractLsb' 25 6 ++
    insn.extractLsb' 21 4 ++ 0#1

def imm (insn : Word) (fmt : Format) : Word :=
  match fmt with
  | .r => 0
  | .i => immI insn
  | .s => immS insn
  | .b => immB insn
  | .u => immU insn
  | .j => immJ insn

end ImmediateDecoder

/-- The signals that the switch on the opcode drives; all reset to zero. -/
structure ControlSwitch where
  aSel : ASel := .rs1
  bSel : BSel := .rs2
  addSub : Bool := false
  addSignedCompare : Bool := false
  resultSel : ResultSel := .adder
  branchTargetSel : BranchTargetSel := .pc
  branchOp : BranchOp := .never
  memLoad : Bool := false
  memStore : Bool := false
  fenceI : Bool := false
  wdataSel : WDataSel := .aluResult
  illegal : Bool := false

structure Control extends ControlSwitch where
  rd : BitVec 5
  rdWen : Bool
  rs1 : BitVec 5
  rs1Ren : Bool
  rs2 : BitVec 5
  rs2Ren : Bool
  fmt : Format
  logicOp : Option LogicOp
  shiftRight : Bool
  shiftArithmetic : Bool
  memWidth : Option MemWidth
  memUnsigned : Bool

namespace Control

/-- Opcodes that match no case keep format R. -/
def format : Option Opcode → Format
  | some .lui => .u
  | some .auipc => .u
  | some .jal => .j
  | some .jalr => .i
  | some .branch => .b
  | some .load => .i
  | some .store => .s
  | some .opImm => .i
  | some .op => .r
  | some .miscMem => .i
  | some .system => .i
  | none => .r

def branchSwitch (funct3 : BitVec 3) : ControlSwitch :=
  let c : ControlSwitch :=
    { aSel := .rs1, bSel := .rs2, resultSel := .adder, addSub := true
      addSignedCompare := !funct3.getLsbD 1, branchTargetSel := .pc }
  match funct3 with
  | Funct3.beq => { c with branchOp := .eq }
  | Funct3.bne => { c with branchOp := .ne }
  | Funct3.blt | Funct3.bltu => { c with branchOp := .lt }
  | Funct3.bge | Funct3.bgeu => { c with branchOp := .ge }
  | _ => { c with illegal := true }

/-- The case shared by OP-IMM and OP. -/
def opSwitch (isOp : Bool) (funct3 : BitVec 3) (funct7 : BitVec 7) : ControlSwitch :=
  let c : ControlSwitch := { aSel := .rs1, bSel := if isOp then .rs2 else .imm }
  match funct3 with
  | Funct3.addSub =>
    { c with
      resultSel := .adder, addSub := if isOp then funct7.getLsbD 5 else false
      illegal := isOp && !matchesAny funct7 [Funct7.zero, Funct7.subSra] }
  | Funct3.slt | Funct3.sltu =>
    { c with
      resultSel := .slt, addSub := true, addSignedCompare := funct3 == Funct3.slt
      illegal := isOp && funct7 != Funct7.zero }
  | Funct3.xor | Funct3.or | Funct3.and =>
    { c with resultSel := .logic, illegal := isOp && funct7 != Funct7.zero }
  | Funct3.sll => { c with resultSel := .shift, illegal := funct7 != Funct7.zero }
  | Funct3.srlSra =>
    { c with resultSel := .shift, illegal := !matchesAny funct7 [Funct7.zero, Funct7.subSra] }
  | _ => c

def miscMemSwitch (funct3 : BitVec 3) : ControlSwitch :=
  match funct3 with
  | Funct3.fence => {}
  | Funct3.fenceI => { fenceI := true }
  | _ => { illegal := true }

def switch (opcode : Option Opcode) (funct3 : BitVec 3) (funct7 : BitVec 7) : ControlSwitch :=
  match opcode with
  | some .lui => { aSel := .zero, bSel := .imm, resultSel := .adder }
  | some .auipc => { aSel := .pc, bSel := .imm, resultSel := .adder }
  | some .jal =>
    { aSel := .pc, bSel := .four, resultSel := .adder
      branchTargetSel := .pc, branchOp := .always }
  | some .jalr =>
    { aSel := .pc, bSel := .four, resultSel := .adder
      branchTargetSel := .rs1, branchOp := .always, illegal := funct3 != Funct3.zero }
  | some .branch => branchSwitch funct3
  | some .load =>
    { aSel := .rs1, bSel := .imm, memLoad := true, wdataSel := .memRdata
      illegal := !matchesAny funct3 [Funct3.lb, Funct3.lh, Funct3.lw, Funct3.lbu, Funct3.lhu] }
  | some .store =>
    { aSel := .rs1, bSel := .imm, memStore := true
      illegal := !matchesAny funct3 [Funct3.sb, Funct3.sh, Funct3.sw] }
  | some .opImm => opSwitch false funct3 funct7
  | some .op => opSwitch true funct3 funct7
  | some .miscMem => miscMemSwitch funct3
  | some .system | none => { illegal := true }

def ofInsn (insn : Word) : Control :=
  let opcode := Opcode.ofBits (insn.extractLsb' 0 7)
  let rd := insn.extractLsb' 7 5
  let funct3 := insn.extractLsb' 12 3
  let rs1 := insn.extractLsb' 15 5
  let rs2 := insn.extractLsb' 20 5
  let funct7 := insn.extractLsb' 25 7
  let fmt := format opcode
  let fence := opcode == some .miscMem
  let zimm := opcode == some .system &&
    matchesAny funct3 [Funct3.csrrwi, Funct3.csrrsi, Funct3.csrrci]
  { toControlSwitch := switch opcode funct3 funct7
    rd := rd
    rdWen := rd != 0 && [Format.r, .i, .u, .j].contains fmt && !fence
    rs1 := rs1
    rs1Ren := rs1 != 0 && [Format.r, .i, .s, .b].contains fmt && !(fence || zimm)
    rs2 := rs2
    rs2Ren := rs2 != 0 && [Format.r, .s, .b].contains fmt
    fmt := fmt
    -- these always occupy the same bits of funct3 and funct7
    logicOp := LogicOp.ofBits (funct3.extractLsb' 0 2)
    shiftRight := funct3.getLsbD 2
    shiftArithmetic := funct7.getLsbD 5
    memWidth := MemWidth.ofBits (funct3.extractLsb' 0 2)
    memUnsigned := funct3.getLsbD 2 }

/-- How the signals of one instruction depend on each other. -/
structure Consistent (c : ControlSwitch) : Prop where
  exclusive : c.memStore = true → c.memLoad = false
  branchOp : (c.memLoad || c.memStore) = true → c.branchOp = .never
  fenceI : c.fenceI = true → c.memLoad = false ∧ c.memStore = false
  wdataSel : c.wdataSel = .memRdata → c.memLoad = true

/-- Signals without an access, for a result of the ALU. -/
def NoAccess (c : ControlSwitch) : Prop :=
  c.memLoad = false ∧ c.memStore = false ∧ c.wdataSel = .aluResult

theorem NoAccess.consistent {c : ControlSwitch} (h : NoAccess c) : Consistent c := by
  obtain ⟨hload, hstore, hsel⟩ := h
  refine ⟨fun _ => hload, ?_, fun _ => ⟨hload, hstore⟩, ?_⟩
  · intro hm
    simp [hload, hstore] at hm
  · intro hm
    rw [hsel] at hm
    cases hm

theorem branchSwitch_noAccess (funct3 : BitVec 3) : NoAccess (branchSwitch funct3) := by
  dsimp only [branchSwitch]
  split <;> exact ⟨rfl, rfl, rfl⟩

theorem opSwitch_noAccess (isOp : Bool) (funct3 : BitVec 3) (funct7 : BitVec 7) :
    NoAccess (opSwitch isOp funct3 funct7) := by
  dsimp only [opSwitch]
  split <;> exact ⟨rfl, rfl, rfl⟩

theorem miscMemSwitch_noAccess (funct3 : BitVec 3) : NoAccess (miscMemSwitch funct3) := by
  dsimp only [miscMemSwitch]
  split <;> exact ⟨rfl, rfl, rfl⟩

/-- Only loads and stores access memory, and they do nothing else. -/
theorem switch_consistent (opcode : Option Opcode) (funct3 : BitVec 3) (funct7 : BitVec 7) :
    Consistent (switch opcode funct3 funct7) := by
  cases opcode with
  | none => exact NoAccess.consistent ⟨rfl, rfl, rfl⟩
  | some o =>
    cases o with
    | lui => exact NoAccess.consistent ⟨rfl, rfl, rfl⟩
    | auipc => exact NoAccess.consistent ⟨rfl, rfl, rfl⟩
    | jal => exact NoAccess.consistent ⟨rfl, rfl, rfl⟩
    | jalr => exact NoAccess.consistent ⟨rfl, rfl, rfl⟩
    | branch => exact (branchSwitch_noAccess funct3).consistent
    | load => exact ⟨nofun, fun _ => rfl, nofun, fun _ => rfl⟩
    | store => exact ⟨fun _ => rfl, fun _ => rfl, nofun, nofun⟩
    | opImm => exact (opSwitch_noAccess false funct3 funct7).consistent
    | op => exact (opSwitch_noAccess true funct3 funct7).consistent
    | miscMem => exact (miscMemSwitch_noAccess funct3).consistent
    | system => exact NoAccess.consistent ⟨rfl, rfl, rfl⟩

theorem ofInsn_consistent (insn : Word) : Consistent (ofInsn insn).toControlSwitch :=
  switch_consistent _ _ _

end Control
end Icicle
