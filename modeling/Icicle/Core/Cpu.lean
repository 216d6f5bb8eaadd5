import Icicle.Library.Clocked
import Icicle.Core.PipelineRegs

/-! The core: the six stages, their wiring in `CPU.elaborate`, and one clock cycle
of it with the RVFI registers included. -/
namespace Icicle
open Wishbone

structure Config where
  resetVector : Word := 0
  trapVector : Word := 0

/-- The blocks that `CPU` can replace by black boxes for formal verification: the
adder with its result and carry, the result multiplexer and the register file. -/
structure Blocks where
  adder : Adder → Word × Bool
  resultMux : ResultMux → Word
  registerFile : RegisterFile → RsPort → RsPort → RdPort → RegisterFile

/-- The blocks of the core itself. -/
def Blocks.rtl : Blocks where
  adder m := (m.result, m.carry)
  resultMux := ResultMux.result
  registerFile := RegisterFile.step

namespace Fetch

def loadStore (i : PF) (nextStall flush : Bool) : LoadStore where
  valid := i.state == .valid && !(nextStall || flush)
  load := true
  store := false
  width := some .word
  unsigned := false
  addr := i.pcRdata
  wdata := 0

/-- The token that leaves the stage in the given state. -/
def o (i : PF) (ls : LoadStore) (p : Response) (state : State) : FD where
  state := state
  pcRdata := i.pcRdata
  insn := if ls.trap p then 0 else ls.rdata (ls.rdataAligned p)
  memFault := ls.trap p

end Fetch

namespace Decode

def control (i : FD) : Control := Control.ofInsn i.insn

def imm (i : FD) : Word := ImmediateDecoder.imm i.insn (control i).fmt

def o (i : FD) (state : State) : DecodeRegs :=
  let c := control i
  { state := state
    pcRdata := i.pcRdata
    insn := i.insn
    rd := c.rd
    rdWen := c.rdWen
    rs1 := c.rs1
    rs1Ren := c.rs1Ren
    rs2 := c.rs2
    rs2Ren := c.rs2Ren
    imm := imm i
    aSel := c.aSel
    bSel := c.bSel
    addSub := c.addSub
    addSignedCompare := c.addSignedCompare
    logicOp := c.logicOp
    shiftDirection := c.shiftRight
    shiftArithmetic := c.shiftArithmetic
    resultSel := c.resultSel
    branchTargetSel := c.branchTargetSel
    branchOp := c.branchOp
    memLoad := c.memLoad
    memStore := c.memStore
    memWidth := c.memWidth
    memUnsigned := c.memUnsigned
    memFault := i.memFault
    fenceI := c.fenceI
    wdataSel := c.wdataSel }

/-- `data_hazard(stage)`, for a stage whose input has the given fields. -/
def dataHazard (c : Control) (state : State) (rdWen : Bool) (rd : BitVec 5) : Bool :=
  let rs1Matches := c.rs1Ren && c.rs1 == rd
  let rs2Matches := c.rs2Ren && c.rs2 == rd
  state == .valid && rdWen && (rs1Matches || rs2Matches)

end Decode

namespace Execute

def operandMux (i : DX) : OperandMux where
  aSel := i.aSel
  bSel := i.bSel
  pcRdata := i.pcRdata
  rs1Rdata := i.rs1Rdata
  rs2Rdata := i.rs2Rdata
  imm := i.imm

def add (i : DX) : Adder where
  sub := i.addSub
  signedCompare := i.addSignedCompare
  a := (operandMux i).a
  b := (operandMux i).b

def logic (i : DX) : Logic where
  op := i.logicOp
  a := i.rs1Rdata
  b := (operandMux i).b

def shift (i : DX) : BarrelShifter where
  right := i.shiftDirection
  arithmetic := i.shiftArithmetic
  a := i.rs1Rdata
  shamt := (operandMux i).b.setWidth 5

def branchTargetMux (i : DX) : BranchTargetMux where
  sel := i.branchTargetSel
  pcRdata := i.pcRdata
  rs1Rdata := i.rs1Rdata
  imm := i.imm

def o (b : Blocks) (i : DX) (state : State) : XM where
  state := state
  pcRdata := i.pcRdata
  insn := i.insn
  rd := i.rd
  rdWen := i.rdWen
  rs1 := i.rs1
  rs1Ren := i.rs1Ren
  rs1Rdata := i.rs1Rdata
  rs2 := i.rs2
  rs2Ren := i.rs2Ren
  rs2Rdata := i.rs2Rdata
  addResult := (b.adder (add i)).1
  addCarry := (b.adder (add i)).2
  logicResult := (logic i).result
  shiftResult := (shift i).result
  resultSel := i.resultSel
  branchTarget := (branchTargetMux i).target
  branchMisaligned := (branchTargetMux i).misaligned
  branchOp := i.branchOp
  memLoad := i.memLoad
  memStore := i.memStore
  memWidth := i.memWidth
  memUnsigned := i.memUnsigned
  memFault := i.memFault
  wdataSel := i.wdataSel

end Execute

namespace MemoryAccess

def resultMux (i : XM) : ResultMux where
  sel := i.resultSel
  addResult := i.addResult
  addCarry := i.addCarry
  logicResult := i.logicResult
  shiftResult := i.shiftResult

def branch (i : XM) : Branch where
  op := i.branchOp
  addResult := i.addResult
  addCarry := i.addCarry
  misaligned := i.branchMisaligned

def loadStore (i : XM) : LoadStore where
  valid := i.state == .valid
  load := i.memLoad
  store := i.memStore
  width := i.memWidth
  unsigned := i.memUnsigned
  addr := i.addResult
  wdata := i.rs2Rdata

def sources (i : XM) (p : Response) : Sources where
  stallSources := [(loadStore i).busy p]
  trapSources := [(branch i).trap, (loadStore i).trap p]

/-- The value of `o.pc_wdata`: a taken branch comes before a trap. -/
def pcWdata (cfg : Config) (i : XM) (trap : Bool) : Word :=
  if i.state == .valid && (branch i).taken then i.branchTarget
  else if trap then cfg.trapVector
  else i.pcRdata + 4

def o (b : Blocks) (cfg : Config) (i : XM) (p : Response) (trap : Bool) (state : State) : MW :=
  let ls := loadStore i
  { state := state
    pcRdata := i.pcRdata
    pcWdata := pcWdata cfg i trap
    insn := i.insn
    rd := i.rd
    rdWen := i.rdWen
    rs1 := i.rs1
    rs1Ren := i.rs1Ren
    rs1Rdata := i.rs1Rdata
    rs2 := i.rs2
    rs2Ren := i.rs2Ren
    rs2Rdata := i.rs2Rdata
    result := b.resultMux (resultMux i)
    memLoad := i.memLoad
    memStore := i.memStore
    memRdata := ls.rdata (ls.rdataAligned p)
    memAddrAligned := ls.addrAligned
    memMask := ls.mask
    memRdataAligned := ls.rdataAligned p
    memWdataAligned := ls.wdataAligned
    memFault := i.memFault || ls.trap p
    wdataSel := i.wdataSel }

end MemoryAccess

namespace Writeback

def rdWdata (i : MW) : Word :=
  WDataMux.rdWdata { sel := i.wdataSel, result := i.result, memRdata := i.memRdata }

/-- The RVFI registers after a cycle that consumes `i`, from their old value. -/
def record (i : MW) (r : RVFI) : RVFI :=
  let valid := i.state == .valid
  { valid := true
    order := r.order + 1
    insn := i.insn
    trap := i.state == .trap
    halt := false
    intr := false
    mode := 3
    ixl := 1
    rs1Addr := if i.rs1Ren then i.rs1 else 0
    rs2Addr := if i.rs2Ren then i.rs2 else 0
    rs1Rdata := if i.rs1Ren then i.rs1Rdata else 0
    rs2Rdata := if i.rs2Ren then i.rs2Rdata else 0
    rdAddr := if valid && i.rdWen then i.rd else 0
    rdWdata := if valid && i.rdWen then rdWdata i else 0
    pcRdata := i.pcRdata
    pcWdata := i.pcWdata
    memAddr := if valid && (i.memLoad || i.memStore) then i.memAddrAligned else 0
    memRmask := if valid && i.memLoad then i.memMask else 0
    memWmask := if valid && i.memStore then i.memMask else 0
    memRdata := if valid && i.memLoad then i.memRdataAligned else 0
    memWdata := if valid && i.memStore then i.memWdataAligned else 0
    memFault := i.memFault }

end Writeback

/-- The registers of the core. Each is the output of a stage and, as the pipeline
connects them, the input of the next one. -/
structure Cpu where
  pf : PF := {}
  fd : FD := {}
  decodeRegs : DecodeRegs := {}
  regs : RegisterFile := {}
  xm : XM := {}
  mw : MW := {}
  rvfi : RVFI := {}

/-- What the two buses answer in one cycle. -/
structure CpuIn where
  ibus : Response
  dbus : Response

namespace Cpu

def dx (s : Cpu) : DX :=
  { s.decodeRegs with rs1Rdata := s.regs.rs1Data, rs2Rdata := s.regs.rs2Data }

def writebackStage (s : Cpu) : Stage where
  iState := s.mw.state

/-- The token that writeback consumes. -/
def retire (s : Cpu) : Option MW :=
  if !s.writebackStage.stall && s.mw.state != .bubble then some s.mw else none

def rdPort (s : Cpu) : RdPort where
  en := !s.writebackStage.stall && s.mw.state == .valid && s.mw.rdWen
  addr := s.mw.rd
  data := Writeback.rdWdata s.mw

def memStage (s : Cpu) (p : CpuIn) : Stage where
  toSources := MemoryAccess.sources s.xm p.dbus
  iState := s.xm.state
  nextStall := s.writebackStage.stall

def dbus (s : Cpu) : Request 30 := (MemoryAccess.loadStore s.xm).bus

def branchTaken (s : Cpu) (p : CpuIn) : Bool :=
  !(s.memStage p).stall && s.xm.state == .valid && (MemoryAccess.branch s.xm).taken

def trapRaised (s : Cpu) (p : CpuIn) : Bool := !(s.memStage p).stall && (s.memStage p).trap

/-- The flush source of fetch, decode and execute. -/
def redirect (s : Cpu) (p : CpuIn) : Bool := s.branchTaken p || s.trapRaised p

def executeStage (s : Cpu) (p : CpuIn) : Stage where
  iState := s.dx.state
  flushSources := [s.redirect p]
  nextStall := (s.memStage p).stall

def control (s : Cpu) : Control := Decode.control s.fd

def decodeStage (s : Cpu) (p : CpuIn) : Stage where
  iState := s.fd.state
  stallSources :=
    [Decode.dataHazard s.control s.dx.state s.dx.rdWen s.dx.rd,
     Decode.dataHazard s.control s.xm.state s.xm.rdWen s.xm.rd,
     Decode.dataHazard s.control s.mw.state s.mw.rdWen s.mw.rd]
  flushSources := [s.redirect p]
  trapSources := [s.control.illegal]
  nextStall := (s.executeStage p).stall

def rs1Port (s : Cpu) (p : CpuIn) : RsPort := ⟨!(s.decodeStage p).stall, s.control.rs1⟩

def rs2Port (s : Cpu) (p : CpuIn) : RsPort := ⟨!(s.decodeStage p).stall, s.control.rs2⟩

def fetchLoadStore (s : Cpu) (p : CpuIn) : LoadStore :=
  Fetch.loadStore s.pf (s.decodeStage p).stall (s.redirect p)

def ibus (s : Cpu) (p : CpuIn) : Request 30 := (s.fetchLoadStore p).bus

def fetchStage (s : Cpu) (p : CpuIn) : Stage where
  iState := s.pf.state
  stallSources :=
    [s.fd.state == .valid && s.control.fenceI,
     s.dx.state == .valid && s.dx.fenceI,
     (s.fetchLoadStore p).busy p.ibus]
  flushSources := [s.redirect p]
  trapSources := [(s.fetchLoadStore p).trap p.ibus]
  nextStall := (s.decodeStage p).stall

def pcgenStage (s : Cpu) (p : CpuIn) : Stage where
  iState := .valid
  nextStall := (s.fetchStage p).stall

/-- The program counter is redirected without looking at `stall`. -/
def nextPF (cfg : Config) (s : Cpu) (p : CpuIn) : PF where
  state := (s.pcgenStage p).oState s.pf.state
  pcRdata :=
    if s.branchTaken p then s.xm.branchTarget
    else if s.trapRaised p then cfg.trapVector
    else if !(s.pcgenStage p).stall then s.pf.pcRdata + 4
    else s.pf.pcRdata

def nextFD (s : Cpu) (p : CpuIn) : FD :=
  let stage := s.fetchStage p
  let state := stage.oState s.fd.state
  if !stage.stall then Fetch.o s.pf (s.fetchLoadStore p) p.ibus state
  else { s.fd with state := state }

def nextDecodeRegs (s : Cpu) (p : CpuIn) : DecodeRegs :=
  let stage := s.decodeStage p
  let state := stage.oState s.decodeRegs.state
  if !stage.stall then Decode.o s.fd state else { s.decodeRegs with state := state }

def nextXM (b : Blocks) (s : Cpu) (p : CpuIn) : XM :=
  let stage := s.executeStage p
  let state := stage.oState s.xm.state
  if !stage.stall then Execute.o b s.dx state else { s.xm with state := state }

def nextMW (b : Blocks) (cfg : Config) (s : Cpu) (p : CpuIn) : MW :=
  let stage := s.memStage p
  let state := stage.oState s.mw.state
  if !stage.stall then MemoryAccess.o b cfg s.xm p.dbus stage.trap state
  else { s.mw with state := state }

def nextRVFI (s : Cpu) : RVFI :=
  match s.retire with
  | some i => Writeback.record i s.rvfi
  | none => { s.rvfi with valid := false }

/-- One clock cycle with the given blocks. -/
def stepWith (b : Blocks) (cfg : Config) (s : Cpu) (p : CpuIn) : Cpu where
  pf := s.nextPF cfg p
  fd := s.nextFD p
  decodeRegs := s.nextDecodeRegs p
  regs := b.registerFile s.regs (s.rs1Port p) (s.rs2Port p) s.rdPort
  xm := s.nextXM b p
  mw := s.nextMW b cfg p
  rvfi := s.nextRVFI

def step (cfg : Config) (s : Cpu) (p : CpuIn) : Cpu := s.stepWith Blocks.rtl cfg p

/-- The first program counter is issued by an increment. -/
def reset (cfg : Config) : Cpu := { pf := { pcRdata := cfg.resetVector - 4 } }

end Cpu

/-- The core as a synchronous circuit. -/
def core (cfg : Config) : Clocked CpuIn Cpu := ⟨Cpu.reset cfg, Cpu.step cfg⟩

end Icicle
