import Icicle.Datapath.Instruction
import Icicle.Core.Tokens

/-! The sequential machine: one instruction at a time, with the combinational units of
the core and no pipeline. -/
namespace Icicle
open Wishbone

/-- A constant instruction memory, whose unreadable words answer with an error, and
the set of data accesses that answer with an error. -/
structure Storage where
  imem : BitVec 30 → Option Word
  faults : (adr : BitVec 30) → (sel : BitVec 4) → (we : Bool) → Bool

/-- The state between two instructions. -/
structure Arch where
  pc : Word
  regs : Registers
  dmem : BitVec 30 → Word
  order : BitVec 64

def Arch.reset (cfg : Config) (dmem : BitVec 30 → Word) : Arch where
  pc := cfg.resetVector
  regs := fun _ => 0
  dmem := dmem
  order := 0

namespace Sequential
variable (cfg : Config) (m : Storage) (a : Arch)

/-- The word at `pc`, unless its fetch traps. -/
def fetched : Option Word :=
  if a.pc.extractLsb' 0 2 = 0#2 then m.imem (a.pc.extractLsb' 2 30) else none

/-- A fetch that traps delivers the word 0. -/
def insn : Insn :=
  let word := (fetched m a).getD 0
  let c := Control.ofInsn word
  ⟨word, a.pc, a.regs c.rs1, a.regs c.rs2⟩

def legal : Bool := (fetched m a).isSome && !(insn m a).control.illegal

def accesses : Bool := (insn m a).control.memLoad || (insn m a).control.memStore

def adr : BitVec 30 := (insn m a).align.addrAligned.extractLsb' 2 30

/-- The instruction has a data access and performs it. -/
def access : Bool := legal m a && accesses m a && !(insn m a).align.misaligned

def error : Bool :=
  access m a && m.faults (adr m a) (insn m a).align.mask (insn m a).control.memStore

def memTrap : Bool := accesses m a && ((insn m a).align.misaligned || error m a)

def trap : Bool := !legal m a || (insn m a).branch.trap || memTrap m a

/-- The value that memory access selects for `pc_wdata`. -/
def pcWdata : Word :=
  if legal m a && (insn m a).branch.taken then (insn m a).branchTargetMux.target
  else if trap m a then cfg.trapVector
  else a.pc + 4

def rdWdata : Word :=
  WDataMux.rdWdata
    { sel := (insn m a).control.wdataSel
      result := (insn m a).resultMux.result
      memRdata := (insn m a).align.rdata (a.dmem (adr m a)) }

def writes : Bool := !trap m a && (insn m a).control.rdWen

/-- The RVFI record of the instruction. -/
def record : RVFI :=
  let c := (insn m a).control
  let valid := !trap m a
  { valid := true
    order := a.order + 1
    insn := (insn m a).insn
    trap := trap m a
    halt := false
    intr := false
    mode := 3
    ixl := 1
    rs1Addr := if c.rs1Ren then c.rs1 else 0
    rs2Addr := if c.rs2Ren then c.rs2 else 0
    rs1Rdata := if c.rs1Ren then (insn m a).rs1Rdata else 0
    rs2Rdata := if c.rs2Ren then (insn m a).rs2Rdata else 0
    rdAddr := if writes m a then c.rd else 0
    rdWdata := if writes m a then rdWdata m a else 0
    pcRdata := a.pc
    pcWdata := pcWdata cfg m a
    memAddr := if valid && accesses m a then (insn m a).align.addrAligned else 0
    memRmask := if valid && c.memLoad then (insn m a).align.mask else 0
    memWmask := if valid && c.memStore then (insn m a).align.mask else 0
    memRdata := if valid && c.memLoad then a.dmem (adr m a) else 0
    memWdata := if valid && c.memStore then (insn m a).align.wdataAligned else 0
    memFault := (fetched m a).isNone || memTrap m a }

/-- One instruction. -/
def next : RVFI × Arch :=
  (record cfg m a,
    { pc := pcWdata cfg m a
      regs := if writes m a then Function.update a.regs (insn m a).control.rd (rdWdata m a)
        else a.regs
      dmem := if !trap m a && (insn m a).control.memStore then
          Function.update a.dmem (adr m a) (mergeLanes (insn m a).align.mask (a.dmem (adr m a))
            (insn m a).align.wdataAligned)
        else a.dmem
      order := a.order + 1 })

/-- The token that decode receives for the instruction. -/
def fd : FD :=
  match fetched m a with
  | some word => { state := .valid, pcRdata := a.pc, insn := word, memFault := false }
  | none => { state := .trap, pcRdata := a.pc, insn := 0, memFault := true }

/-- The operands of the instruction, with values that may differ where they are not read. -/
def operands (v₁ v₂ : Word) : Insn := ⟨(insn m a).insn, a.pc, v₁, v₂⟩

/-- A response that a memory with contents `dmem` gives when it answers. -/
structure Answers (dmem : BitVec 30 → Word) (r : Request 30) (p : Response) : Prop where
  answers : r.requesting = true → p.answers = true
  err : r.requesting = true → p.err = m.faults r.adr r.sel r.we
  datR : r.requesting = true → p.err = false → r.we = false → p.datR = dmem r.adr

variable {cfg m a} {v₁ v₂ : Word} {p : Response}

theorem fd_insn : (fd m a).insn = (insn m a).insn := by
  unfold fd insn
  cases fetched m a <;> rfl

theorem fd_memFault : (fd m a).memFault = (fetched m a).isNone := by
  unfold fd
  cases fetched m a <;> rfl

theorem fd_pcRdata : (fd m a).pcRdata = a.pc := by
  unfold fd
  cases fetched m a <;> rfl

theorem control_fd : Decode.control (fd m a) = (insn m a).control := by
  rw [Decode.control, fd_insn]
  rfl

theorem executed_state : (executed (fd m a) v₁ v₂).state = if legal m a then .valid else .trap := by
  have hx : (executed (fd m a) v₁ v₂).state = Stage.passed
      { iState := (fd m a).state, trapSources := [(Decode.control (fd m a)).illegal] } := rfl
  rw [hx, control_fd, legal]
  cases hf : fetched m a with
  | none =>
    have hs : (fd m a).state = .trap := by rw [fd, hf]
    rw [Stage.passed_trap hs]
    rfl
  | some w =>
    have hs : (fd m a).state = .valid := by rw [fd, hf]
    rw [Stage.passed_valid hs]
    cases (insn m a).control.illegal <;> rfl

/-- What the units of execute and memory access see of the token. -/
theorem executed_units :
    MemoryAccess.branch (executed (fd m a) v₁ v₂) = (operands m a v₁ v₂).branch ∧
    MemoryAccess.resultMux (executed (fd m a) v₁ v₂) = (operands m a v₁ v₂).resultMux ∧
    (executed (fd m a) v₁ v₂).branchTarget = (operands m a v₁ v₂).branchTargetMux.target ∧
    MemoryAccess.loadStore (executed (fd m a) v₁ v₂) =
      { toWordAlign := (operands m a v₁ v₂).align
        valid := legal m a
        load := (insn m a).control.memLoad
        store := (insn m a).control.memStore } := by
  have hst : (executed (fd m a) v₁ v₂).state = if legal m a then .valid else .trap :=
    executed_state
  have hinsn : ∀ i : FD, ∀ w pc, i.insn = w → i.pcRdata = pc →
      MemoryAccess.branch (executed i v₁ v₂) = (⟨w, pc, v₁, v₂⟩ : Insn).branch ∧
      MemoryAccess.resultMux (executed i v₁ v₂) = (⟨w, pc, v₁, v₂⟩ : Insn).resultMux ∧
      (executed i v₁ v₂).branchTarget = (⟨w, pc, v₁, v₂⟩ : Insn).branchTargetMux.target ∧
      MemoryAccess.loadStore (executed i v₁ v₂) =
        { toWordAlign := (⟨w, pc, v₁, v₂⟩ : Insn).align
          valid := (executed i v₁ v₂).state == .valid
          load := (Control.ofInsn w).memLoad
          store := (Control.ofInsn w).memStore } := by
    rintro i w pc rfl rfl
    exact ⟨rfl, rfl, rfl, rfl⟩
  obtain ⟨hb, hr, ht, hl⟩ := hinsn (fd m a) _ _ fd_insn fd_pcRdata
  refine ⟨hb, hr, ht, ?_⟩
  rw [hl, hst]
  cases legal m a <;> rfl

end Sequential
end Icicle
