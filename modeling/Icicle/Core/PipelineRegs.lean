import Icicle.Framework.Stage
import Icicle.Datapath.Control

/-! The registers between the stages of the core (the layouts of
`pipeline_regs.py`), the register file and the RVFI record. Every field resets to
zero. -/
namespace Icicle

/-- `PF_LAYOUT`, from PC generation to fetch. -/
structure PF where
  state : State := .bubble
  pcRdata : Word := 0

/-- `FD_LAYOUT`, from fetch to decode. -/
@[ext] structure FD where
  state : State := .bubble
  pcRdata : Word := 0
  insn : Word := 0
  memFault : Bool := false

/-- The fields of `DX_LAYOUT` that decode registers itself. -/
structure DecodeRegs where
  state : State := .bubble
  pcRdata : Word := 0
  insn : Word := 0
  rd : BitVec 5 := 0
  rdWen : Bool := false
  rs1 : BitVec 5 := 0
  rs1Ren : Bool := false
  rs2 : BitVec 5 := 0
  rs2Ren : Bool := false
  imm : Word := 0
  aSel : ASel := .rs1
  bSel : BSel := .rs2
  addSub : Bool := false
  addSignedCompare : Bool := false
  logicOp : Option LogicOp := some .xor
  shiftDirection : Bool := false
  shiftArithmetic : Bool := false
  resultSel : ResultSel := .adder
  branchTargetSel : BranchTargetSel := .pc
  branchOp : BranchOp := .never
  memLoad : Bool := false
  memStore : Bool := false
  memWidth : Option MemWidth := some .byte
  memUnsigned : Bool := false
  memFault : Bool := false
  fenceI : Bool := false
  wdataSel : WDataSel := .aluResult

/-- `DX_LAYOUT`, from decode to execute. The operands come from the output
registers of the register file. -/
structure DX extends DecodeRegs where
  rs1Rdata : Word
  rs2Rdata : Word

/-- `XM_LAYOUT`, from execute to memory access. -/
structure XM where
  state : State := .bubble
  pcRdata : Word := 0
  insn : Word := 0
  rd : BitVec 5 := 0
  rdWen : Bool := false
  rs1 : BitVec 5 := 0
  rs1Ren : Bool := false
  rs1Rdata : Word := 0
  rs2 : BitVec 5 := 0
  rs2Ren : Bool := false
  rs2Rdata : Word := 0
  addResult : Word := 0
  addCarry : Bool := false
  logicResult : Word := 0
  shiftResult : Word := 0
  resultSel : ResultSel := .adder
  branchTarget : Word := 0
  branchMisaligned : Bool := false
  branchOp : BranchOp := .never
  memLoad : Bool := false
  memStore : Bool := false
  memWidth : Option MemWidth := some .byte
  memUnsigned : Bool := false
  memFault : Bool := false
  wdataSel : WDataSel := .aluResult

/-- `MW_LAYOUT`, from memory access to writeback. -/
structure MW where
  state : State := .bubble
  pcRdata : Word := 0
  pcWdata : Word := 0
  insn : Word := 0
  rd : BitVec 5 := 0
  rdWen : Bool := false
  rs1 : BitVec 5 := 0
  rs1Ren : Bool := false
  rs1Rdata : Word := 0
  rs2 : BitVec 5 := 0
  rs2Ren : Bool := false
  rs2Rdata : Word := 0
  result : Word := 0
  memLoad : Bool := false
  memStore : Bool := false
  memRdata : Word := 0
  memAddrAligned : Word := 0
  memMask : BitVec 4 := 0
  memRdataAligned : Word := 0
  memWdataAligned : Word := 0
  memFault : Bool := false
  wdataSel : WDataSel := .aluResult

/-- `RVFI_LAYOUT`. -/
structure RVFI where
  valid : Bool := false
  order : BitVec 64 := 0
  insn : Word := 0
  trap : Bool := false
  halt : Bool := false
  intr : Bool := false
  mode : BitVec 2 := 0
  ixl : BitVec 2 := 0
  rs1Addr : BitVec 5 := 0
  rs2Addr : BitVec 5 := 0
  rs1Rdata : Word := 0
  rs2Rdata : Word := 0
  rdAddr : BitVec 5 := 0
  rdWdata : Word := 0
  pcRdata : Word := 0
  pcWdata : Word := 0
  memAddr : Word := 0
  memRmask : BitVec 4 := 0
  memWmask : BitVec 4 := 0
  memRdata : Word := 0
  memWdata : Word := 0
  memFault : Bool := false

/-- The inputs of one read port. -/
structure RsPort where
  en : Bool
  addr : BitVec 5

/-- The inputs of the write port. -/
structure RdPort where
  en : Bool
  addr : BitVec 5
  data : Word

abbrev Registers := BitVec 5 → Word

/-- A memory of 32 words, and the output registers of its two read ports. -/
structure RegisterFile where
  regs : Registers := fun _ => 0
  rs1Data : Word := 0
  rs2Data : Word := 0

def Registers.write (regs : Registers) (rd : RdPort) : Registers :=
  fun r => if rd.en && r == rd.addr then rd.data else regs r

/-- Both read ports are not transparent: they return the contents before a write
at the same clock edge. -/
def RegisterFile.step (f : RegisterFile) (rs1 rs2 : RsPort) (rd : RdPort) : RegisterFile where
  regs := f.regs.write rd
  rs1Data := if rs1.en then f.regs rs1.addr else f.rs1Data
  rs2Data := if rs2.en then f.regs rs2.addr else f.rs2Data

end Icicle
