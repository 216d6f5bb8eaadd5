import Icicle.Core.BlackBox
import Icicle.Core.HartStep
import Icicle.Core.Tags

/-! The instruction checks of the formal flow: whatever is read from the register file, each
RVFI record is by itself what the manual says of its word, its address and its operands. -/
namespace Icicle
open Wishbone Bytes

namespace RVFI
variable (cfg : Config) (r : RVFI) (i : Rv32i.Instruction)

/-- The register write of an instruction, unless it is discarded. A load takes its value from
the word that the record says was read. -/
def rdWrite : Option (Rv32i.Reg × Word) :=
  (i.dest.bind fun rd =>
    (i.result (bytes fun _ => r.memRdata) r.pcRdata r.rs1Rdata r.rs2Rdata).map fun v =>
      (rd, v)).filter fun w => w.1 != 0

/-- The record of an instruction that completes. -/
structure Completes : Prop where
  rs1 : ∀ rs, i.source1 = some rs → r.rs1Addr = rs
  rs2 : ∀ rs, i.source2 = some rs → r.rs2Addr = rs
  rd : (r.rdAddr, r.rdWdata) = (r.rdWrite i).getD (0, 0)
  pcWdata : i.successor r.pcRdata r.rs1Rdata r.rs2Rdata = .ok r.pcWdata
  memAddr : ∀ a, i.access r.rs1Rdata = some a →
    a.Aligned ∧ r.memAddr = Rv32i.alignDown a.address
  memRmask : r.memRmask =
    ((i.access r.rs1Rdata).filter fun a => !a.isStore).elim 0 Rv32i.Access.lanes
  memWmask : r.memWmask =
    ((i.access r.rs1Rdata).filter Rv32i.Access.isStore).elim 0 Rv32i.Access.lanes
  memWdata : ∀ w a, i.access r.rs1Rdata = some (.store w a) → ∀ c,
    (Rv32i.Access.store w a).Covers c →
      byte r.memWdata (c.extractLsb' 0 2).toNat = byte r.rs2Rdata (c - a).toNat
  memFault : r.memFault = false

/-- Where the word of the record leads, apart from the memory. -/
def successor : Except Rv32i.Exception Word := do
  let i ← Rv32i.Instruction.ofWord r.insn
  i.successor r.pcRdata r.rs1Rdata r.rs2Rdata

/-- The record says why its instruction does not complete, and where it leads instead. -/
structure Raises : Prop where
  reason : r.memFault = true ∨ ∃ e, r.successor = .error e
  pcWdata : r.pcWdata =
    match r.successor with
    | .error e => cfg.handler e
    | .ok _ => cfg.trapVector

/-- The record of an instruction that does not complete. -/
structure Refused : Prop extends r.Raises cfg where
  rd : r.rdAddr = 0 ∧ r.rdWdata = 0
  mem : r.memRmask = 0 ∧ r.memWmask = 0

/-- The record agrees with the manual. -/
def Checked : Prop :=
  if r.trap then r.Refused cfg else ∃ i, Rv32i.decode r.insn = some i ∧ r.Completes i

end RVFI

/-- A token in decode as fetch makes them. -/
structure FD.Fetched (i : FD) : Prop extends i.Ok where
  aligned : i.state = .valid → 4 ∣ i.pcRdata.toNat

/-- Operands of a token: the register 0 reads as 0. -/
structure FD.Reads (i : FD) (v₁ v₂ : Word) : Prop where
  rs1 : (Decode.control i).rs1 = 0 → v₁ = 0
  rs2 : (Decode.control i).rs2 = 0 → v₂ = 0

theorem Fetch.token_fetched {i : PF} (hi : i.state ≠ .trap) (p : Response) :
    (token i p).Fetched where
  toOk := token_ok hi p
  aligned hv := by
    cases ht : (loadStore i false false).trap p with
    | true =>
      cases hs : i.state with
      | trap => exact absurd hs hi
      | bubble =>
        rw [token_bubble_iff.mpr hs] at hv
        cases hv
      | valid =>
        rw [(token_of_trap hs ht).2.2] at hv
        cases hv
    | false =>
      refine (Sequential.aligned_iff _).mp ?_
      simp only [LoadStore.trap, Bool.and_eq_false_iff, Bool.or_eq_false_iff] at ht
      rcases ht with ht | ht
      · exact absurd ht (by simp [Fetch.loadStore])
      · exact bne_eq_false_iff_eq.mp ht.1

/-- The combinational path of a token. -/
def FD.path (i : FD) (v₁ v₂ : Word) : Insn := ⟨i.insn, i.pcRdata, v₁, v₂⟩

section Token
variable {cfg : Config} {i : FD} {v₁ v₂ : Word} {p : Response} {r : RVFI}

variable (cfg i v₁ v₂ p r) in
/-- The record of a token. -/
abbrev recordOf : RVFI := Writeback.record (MemoryAccess.token cfg (executed i v₁ v₂) p) r

theorem executed_path : MemoryAccess.branch (executed i v₁ v₂) = (i.path v₁ v₂).branch ∧
    (executed i v₁ v₂).branchTarget = (i.path v₁ v₂).branchTargetMux.target ∧
    MemoryAccess.resultMux (executed i v₁ v₂) = (i.path v₁ v₂).resultMux ∧
    MemoryAccess.loadStore (executed i v₁ v₂) =
      { toWordAlign := (i.path v₁ v₂).align
        valid := (executed i v₁ v₂).state == .valid
        load := (i.path v₁ v₂).control.memLoad
        store := (i.path v₁ v₂).control.memStore } := ⟨rfl, rfl, rfl, rfl⟩

/-- A record shows the number and the value of an operand unless it is the register 0. -/
theorem operand_of_enabled {ren : Bool} {rs : BitVec 5} {source : Option Rv32i.Reg}
    (hen : ren = true ↔ ∃ a, source = some a ∧ a ≠ 0) (hrs : ∀ a, source = some a → rs = a) :
    (∀ a, source = some a → (if ren then rs else 0) = a) ∧
      ∀ v : Word, (rs = 0 → v = 0) → source ≠ none → v = if ren then v else 0 := by
  constructor
  · intro a ha
    rw [hrs a ha, ite_eq_left_iff]
    intro hren
    by_contra h0
    exact hren (hen.mpr ⟨a, ha, Ne.symm h0⟩)
  · intro v hv hne
    obtain ⟨a, ha⟩ := Option.ne_none_iff_exists'.mp hne
    by_cases h0 : a = 0
    · rw [hv ((hrs a ha).trans h0), ite_self]
    · rw [if_pos (hen.mpr ⟨a, ha, h0⟩)]

variable (cfg p r) in
/-- An operand that the instruction has is in the record. -/
theorem operands_of_reads (hreads : i.Reads v₁ v₂) {instr : Rv32i.Instruction}
    (hsel : Control.Selects i.insn instr) :
    (instr.source1 ≠ none → v₁ = (recordOf cfg i v₁ v₂ p r).rs1Rdata) ∧
      (instr.source2 ≠ none → v₂ = (recordOf cfg i v₁ v₂ p r).rs2Rdata) :=
  ⟨(operand_of_enabled hsel.rs1Ren hsel.rs1).2 v₁ hreads.rs1,
    (operand_of_enabled hsel.rs2Ren hsel.rs2).2 v₂ hreads.rs2⟩

variable (cfg p r) in
/-- With the operands of the record an instruction does what it does with those of the token. -/
theorem manual_of_reads (hreads : i.Reads v₁ v₂) {instr : Rv32i.Instruction}
    (hdecode : Rv32i.decode i.insn = some instr) :
    instr.successor (recordOf cfg i v₁ v₂ p r).pcRdata (recordOf cfg i v₁ v₂ p r).rs1Rdata
        (recordOf cfg i v₁ v₂ p r).rs2Rdata = instr.successor i.pcRdata v₁ v₂ ∧
      (∀ mem, instr.result mem (recordOf cfg i v₁ v₂ p r).pcRdata
        (recordOf cfg i v₁ v₂ p r).rs1Rdata (recordOf cfg i v₁ v₂ p r).rs2Rdata =
          instr.result mem i.pcRdata v₁ v₂) ∧
      instr.access (recordOf cfg i v₁ v₂ p r).rs1Rdata = instr.access v₁ := by
  obtain ⟨h1, h2⟩ := operands_of_reads cfg p r hreads (Control.selects_of_decode hdecode)
  obtain ⟨hvalue, htaken, htarget, haccess⟩ := instr.congr_operands i.pcRdata h1 h2
  refine ⟨?_, fun mem => ?_, haccess.symm⟩
  · change instr.successor i.pcRdata _ _ = _
    unfold Rv32i.Instruction.successor
    rw [htaken, htarget]
  · change instr.result mem i.pcRdata _ _ = _
    unfold Rv32i.Instruction.result
    rw [hvalue, haccess]

variable (cfg p r) in
theorem successor_recordOf (hreads : i.Reads v₁ v₂) {instr : Rv32i.Instruction}
    (hdecode : Rv32i.decode i.insn = some instr) :
    (recordOf cfg i v₁ v₂ p r).successor = instr.successor i.pcRdata v₁ v₂ := by
  rw [← (manual_of_reads cfg p r hreads hdecode).1]
  unfold RVFI.successor Rv32i.Instruction.ofWord
  rw [show (recordOf cfg i v₁ v₂ p r).insn = i.insn from rfl, hdecode]
  rfl

/-- A token that is valid behind memory access. -/
structure Passes (i : FD) (v₁ v₂ : Word) (p : Response) : Prop where
  state : i.state = .valid
  valid : (executed i v₁ v₂).state = .valid
  legal : (i.path v₁ v₂).control.illegal = false
  branch : (i.path v₁ v₂).branch.trap = false
  mem : (MemoryAccess.loadStore (executed i v₁ v₂)).trap p = false

theorem passes_of_valid (h : (MemoryAccess.token cfg (executed i v₁ v₂) p).state = .valid) :
    Passes i v₁ v₂ p := by
  obtain ⟨hx, hbranch, hmem⟩ := MemoryAccess.token_valid_iff.mp h
  obtain ⟨hs, hill⟩ := Decode.token_valid (i := i) hx
  exact ⟨hs, hx, hill, hbranch, hmem⟩

namespace Passes
variable (h : Passes i v₁ v₂ p)
include h

theorem aligned
    (hacc : ((i.path v₁ v₂).control.memLoad || (i.path v₁ v₂).control.memStore) = true) :
    (i.path v₁ v₂).align.misaligned = false := by
  have hmem := h.mem
  rw [executed_path.2.2.2, LoadStore.trap, hacc, Bool.true_and, Bool.or_eq_false_iff] at hmem
  exact hmem.1

theorem trap : (MemoryAccess.stage (executed i v₁ v₂) p).trap = false := by
  rw [MemoryAccess.stage_trap, h.valid, executed_path.1, h.branch, h.mem]
  rfl

theorem memFault (hf : i.Fetched) : (recordOf cfg i v₁ v₂ p r).memFault = false := by
  change (i.memFault || (MemoryAccess.loadStore (executed i v₁ v₂)).trap p) = false
  rw [hf.valid h.state, h.mem]
  rfl

end Passes

variable (cfg r) in
/-- The fields that only a valid token sets. -/
theorem record_of_valid (hv : (MemoryAccess.token cfg (executed i v₁ v₂) p).state = .valid) :
    let c := (i.path v₁ v₂).control
    let align := (i.path v₁ v₂).align
    ((recordOf cfg i v₁ v₂ p r).rdAddr = if c.rdWen then c.rd else 0) ∧
      ((recordOf cfg i v₁ v₂ p r).rdWdata = if c.rdWen then WDataMux.rdWdata
        { sel := c.wdataSel
          result := (i.path v₁ v₂).resultMux.result
          memRdata := align.rdata p.datR } else 0) ∧
      ((recordOf cfg i v₁ v₂ p r).memAddr =
        if c.memLoad || c.memStore then align.addrAligned else 0) ∧
      ((recordOf cfg i v₁ v₂ p r).memRmask = if c.memLoad then align.mask else 0) ∧
      ((recordOf cfg i v₁ v₂ p r).memWmask = if c.memStore then align.mask else 0) ∧
      ((recordOf cfg i v₁ v₂ p r).memRdata = if c.memLoad then p.datR else 0) ∧
      ((recordOf cfg i v₁ v₂ p r).memWdata = if c.memStore then align.wdataAligned else 0) := by
  have hvalid : ((MemoryAccess.token cfg (executed i v₁ v₂) p).state == .valid) = true := by
    rw [hv]
    rfl
  unfold recordOf Writeback.record
  rw [hvalid]
  exact ⟨rfl, rfl, rfl, rfl, rfl, rfl, rfl⟩

/-- The register write in the record of a valid token. -/
theorem record_rd (hreads : i.Reads v₁ v₂)
    (hv : (MemoryAccess.token cfg (executed i v₁ v₂) p).state = .valid)
    {instr : Rv32i.Instruction} (hdecode : Rv32i.decode i.insn = some instr)
    (himp : (i.path v₁ v₂).Implements instr) :
    ((recordOf cfg i v₁ v₂ p r).rdAddr, (recordOf cfg i v₁ v₂ p r).rdWdata) =
      ((recordOf cfg i v₁ v₂ p r).rdWrite instr).getD (0, 0) := by
  have hsel := Control.selects_of_decode hdecode
  obtain ⟨hrd, hrdWdata, -, -, -, hrdata, -⟩ := record_of_valid cfg r hv
  have hwen : (i.path v₁ v₂).control.rdWen = true ↔ ∃ rd, instr.dest = some rd ∧ rd ≠ 0 :=
    hsel.rdWen
  rw [RVFI.rdWrite, (manual_of_reads cfg p r hreads hdecode).2.1, hrd, hrdWdata]
  cases hdest : instr.dest with
  | none =>
    rw [if_neg, if_neg]
    · rfl
    all_goals
      intro hw
      obtain ⟨rd, hr, -⟩ := hwen.mp hw
      rw [hdest] at hr
      cases hr
  | some rd =>
    have hal : ∀ a, instr.access (i.path v₁ v₂).rs1Rdata = some a → a.Aligned := by
      intro a ha
      have hmakes := himp.makes ha
      refine hmakes.misaligned_iff.mp ((passes_of_valid hv).aligned ?_)
      rw [hmakes.memLoad, hmakes.memStore]
      cases a.isStore <;> rfl
    have hresult := himp.result_eq hal (fun _ => (recordOf cfg i v₁ v₂ p r).memRdata) hdest
    have hload : ∀ w, WDataMux.rdWdata
        { sel := (i.path v₁ v₂).control.wdataSel
          result := w
          memRdata := (i.path v₁ v₂).align.rdata (recordOf cfg i v₁ v₂ p r).memRdata } =
        WDataMux.rdWdata
          { sel := (i.path v₁ v₂).control.wdataSel
            result := w
            memRdata := (i.path v₁ v₂).align.rdata p.datR } := by
      intro w
      cases hs : (i.path v₁ v₂).control.wdataSel with
      | aluResult => rfl
      | memRdata =>
        have hl : (i.path v₁ v₂).control.memLoad = true :=
          (Control.ofInsn_consistent i.insn).wdataSel hs
        rw [hrdata, if_pos hl]
    rw [hload] at hresult
    rw [Option.bind_some, show instr.result _ i.pcRdata v₁ v₂ = _ from hresult, Option.map_some]
    by_cases h0 : rd = 0
    · rw [if_neg, if_neg]
      · rw [h0]
        rfl
      all_goals
        intro hw
        obtain ⟨rd', hr, hne⟩ := hwen.mp hw
        rw [hdest] at hr
        exact hne ((Option.some.inj hr).symm.trans h0)
    · have hw := hwen.mpr ⟨rd, hdest, h0⟩
      have hrd' : (i.path v₁ v₂).control.rd = rd := hsel.rd rd hdest
      rw [if_pos hw, if_pos hw, hrd', Option.filter_some, if_pos (bne_iff_ne.mpr h0)]
      rfl

/-- Where a valid token leads. -/
theorem successor_of_passes (hf : i.Fetched) (h : Passes i v₁ v₂ p) {instr : Rv32i.Instruction}
    (himp : (i.path v₁ v₂).Implements instr) :
    instr.successor i.pcRdata v₁ v₂ = .ok (recordOf cfg i v₁ v₂ p r).pcWdata := by
  have heven : (i.path v₁ v₂).pcRdata.getLsbD 0 = false :=
    ((Rv32i.four_dvd_iff _).mp (hf.aligned h.state)).1
  have hpc : (recordOf cfg i v₁ v₂ p r).pcWdata = if (i.path v₁ v₂).branch.taken then
      (i.path v₁ v₂).branchTargetMux.target else i.pcRdata + 4 := by
    change MemoryAccess.pcWdata cfg (executed i v₁ v₂)
      (MemoryAccess.stage (executed i v₁ v₂) p).trap = _
    rw [MemoryAccess.pcWdata, h.trap, h.valid]
    rfl
  rw [hpc]
  cases ht : (i.path v₁ v₂).branch.taken with
  | false => exact himp.successor_of_not_taken ht
  | true =>
    obtain ⟨u, -, hsucc⟩ := himp.successor_of_taken heven ht
    rw [h.branch] at hsucc
    exact hsucc

theorem completes_of_valid (hf : i.Fetched) (hreads : i.Reads v₁ v₂)
    (hv : (MemoryAccess.token cfg (executed i v₁ v₂) p).state = .valid) :
    ∃ instr, Rv32i.decode i.insn = some instr ∧ (recordOf cfg i v₁ v₂ p r).Completes instr := by
  have h := passes_of_valid hv
  obtain ⟨instr, hdecode, himp⟩ := Insn.implements (n := i.path v₁ v₂) h.legal
  have hsel := Control.selects_of_decode hdecode
  obtain ⟨hsucc, -, haccess⟩ := manual_of_reads cfg p r hreads hdecode
  obtain ⟨-, -, haddr, hrmask, hwmask, -, hwdata⟩ := record_of_valid cfg r hv
  have hmakes : ∀ a, instr.access v₁ = some a →
      (i.path v₁ v₂).Makes a ∧ a.Aligned ∧
        ((i.path v₁ v₂).control.memLoad || (i.path v₁ v₂).control.memStore) = true := by
    intro a ha
    have hm := himp.makes ha
    have hacc : ((i.path v₁ v₂).control.memLoad || (i.path v₁ v₂).control.memStore) = true := by
      rw [hm.memLoad, hm.memStore]
      cases a.isStore <;> rfl
    exact ⟨hm, hm.misaligned_iff.mp (h.aligned hacc), hacc⟩
  refine ⟨instr, hdecode, (operand_of_enabled hsel.rs1Ren hsel.rs1).1,
    (operand_of_enabled hsel.rs2Ren hsel.rs2).1, record_rd hreads hv hdecode himp,
    hsucc.trans (successor_of_passes hf h himp), ?_, ?_, ?_, ?_, h.memFault hf⟩
  · intro a ha
    rw [haccess] at ha
    obtain ⟨hm, hal, hacc⟩ := hmakes a ha
    rw [haddr, if_pos hacc]
    exact ⟨hal, hm.addr⟩
  · rw [haccess, hrmask]
    cases ha : instr.access v₁ with
    | none =>
      rw [if_neg (ne_true_of_eq_false (himp.noAccess ha).1)]
      rfl
    | some a =>
      obtain ⟨hm, hal, -⟩ := hmakes a ha
      rw [hm.memLoad, hm.mask hal]
      cases a <;> rfl
  · rw [haccess, hwmask]
    cases ha : instr.access v₁ with
    | none =>
      rw [if_neg (ne_true_of_eq_false (himp.noAccess ha).2)]
      rfl
    | some a =>
      obtain ⟨hm, hal, -⟩ := hmakes a ha
      rw [hm.memStore, hm.mask hal]
      cases a <;> rfl
  · intro w a ha c hc
    rw [haccess] at ha
    obtain ⟨hm, hal, -⟩ := hmakes _ ha
    have hs : (i.path v₁ v₂).control.memStore = true := hm.memStore
    have hdata : v₂ = (recordOf cfg i v₁ v₂ p r).rs2Rdata :=
      (operands_of_reads cfg p r hreads hsel).2 (Rv32i.Instruction.source2_of_store ha)
    rw [hwdata, if_pos hs, hm.byte_wdata hal hc, ← hdata]
    rfl

/-- A memory instruction does not jump. -/
theorem not_taken_of_trap (h : (MemoryAccess.loadStore (executed i v₁ v₂)).trap p = true) :
    (i.path v₁ v₂).branch.taken = false := by
  have hacc : ((i.path v₁ v₂).control.memLoad || (i.path v₁ v₂).control.memStore) = true :=
    (Bool.and_eq_true_iff.mp h).1
  have hnever : (i.path v₁ v₂).control.branchOp = .never :=
    (Control.ofInsn_consistent i.insn).branchOp hacc
  simp only [Branch.taken, Insn.branch, hnever]

variable (cfg r) in
theorem pcWdata_of_trap (ht : (MemoryAccess.stage (executed i v₁ v₂) p).trap = true) :
    (recordOf cfg i v₁ v₂ p r).pcWdata =
      if (Decode.token i).state == .valid && (i.path v₁ v₂).branch.taken then
        (i.path v₁ v₂).branchTargetMux.target
      else cfg.trapVector := by
  change MemoryAccess.pcWdata cfg (executed i v₁ v₂)
    (MemoryAccess.stage (executed i v₁ v₂) p).trap = _
  rw [MemoryAccess.pcWdata, ht]
  rfl

/-- A word that is not decoded, because of its fetch or by itself. -/
theorem raises_of_undecoded (ht : (MemoryAccess.stage (executed i v₁ v₂) p).trap = true)
    (hs : (Decode.token i).state ≠ .valid) (hdecode : Rv32i.decode i.insn = none) :
    (recordOf cfg i v₁ v₂ p r).Raises cfg := by
  have hsucc : (recordOf cfg i v₁ v₂ p r).successor = .error .illegalInstruction := by
    unfold RVFI.successor Rv32i.Instruction.ofWord
    rw [show (recordOf cfg i v₁ v₂ p r).insn = i.insn from rfl, hdecode]
    rfl
  refine ⟨.inr ⟨_, hsucc⟩, ?_⟩
  rw [pcWdata_of_trap cfg r ht, beq_false_of_ne hs, hsucc]
  rfl

/-- An instruction with a misaligned target, or a memory fault. -/
theorem raises_of_decoded (hf : i.Fetched) (hreads : i.Reads v₁ v₂)
    (ht : (MemoryAccess.stage (executed i v₁ v₂) p).trap = true) (hs : i.state = .valid)
    (hill : (Decode.control i).illegal = false) : (recordOf cfg i v₁ v₂ p r).Raises cfg := by
  obtain ⟨instr, hdecode, himp⟩ := Insn.implements (n := i.path v₁ v₂) hill
  have hsucc := successor_recordOf cfg p r hreads hdecode
  have hstate : (Decode.token i).state = .valid := by
    rw [Decode.token_state_of_valid hs, hill]
    rfl
  have hpc := pcWdata_of_trap cfg r ht
  rw [hstate] at hpc
  have hcause : ((i.path v₁ v₂).branch.trap ||
      (MemoryAccess.loadStore (executed i v₁ v₂)).trap p) = true := by
    rw [MemoryAccess.stage_trap, show (executed i v₁ v₂).state = .valid from hstate] at ht
    exact ht
  cases htaken : (i.path v₁ v₂).branch.taken with
  | false =>
    have hmem : (MemoryAccess.loadStore (executed i v₁ v₂)).trap p = true := by
      rwa [Branch.trap, htaken, Bool.false_and, Bool.false_or] at hcause
    rw [show instr.successor i.pcRdata v₁ v₂ = _ from himp.successor_of_not_taken htaken] at hsucc
    refine ⟨.inl ?_, ?_⟩
    · change (i.memFault || (MemoryAccess.loadStore (executed i v₁ v₂)).trap p) = true
      rw [hmem, Bool.or_true]
    · rw [hpc, hsucc, htaken]
      rfl
  | true =>
    have hbranch : (i.path v₁ v₂).branch.trap = true := by
      refine (Bool.or_eq_true_iff.mp hcause).resolve_right fun hmem => ?_
      rw [not_taken_of_trap hmem] at htaken
      cases htaken
    have heven : (i.path v₁ v₂).pcRdata.getLsbD 0 = false :=
      ((Rv32i.four_dvd_iff _).mp (hf.aligned hs)).1
    obtain ⟨u, hu, hraises⟩ := himp.successor_of_taken heven htaken
    rw [hbranch, if_pos rfl] at hraises
    rw [show instr.successor i.pcRdata v₁ v₂ = _ from hraises] at hsucc
    refine ⟨.inr ⟨_, hsucc⟩, ?_⟩
    rw [hpc, hsucc, htaken]
    exact hu

/-- Why a token traps. -/
theorem raises_of_trap (hf : i.Fetched) (hreads : i.Reads v₁ v₂)
    (ht : (MemoryAccess.stage (executed i v₁ v₂) p).trap = true) :
    (recordOf cfg i v₁ v₂ p r).Raises cfg := by
  cases hs : i.state with
  | bubble =>
    have hb : (executed i v₁ v₂).state = .bubble := Decode.token_bubble_iff.mpr hs
    rw [MemoryAccess.stage_trap, hb] at ht
    cases ht
  | trap =>
    refine raises_of_undecoded ht (fun hv => ?_) ?_
    · rw [(Decode.token_valid hv).1] at hs
      cases hs
    · rw [(hf.trap hs).1]
      decide
  | valid =>
    cases hill : (Decode.control i).illegal with
    | true =>
      refine raises_of_undecoded ht (fun hv => ?_) (Sequential.decode_of_illegal hill)
      rw [(Decode.token_valid hv).2] at hill
      cases hill
    | false => exact raises_of_decoded hf hreads ht hs hill

/-- The record of every token agrees with the manual. -/
theorem checked_of_token (hf : i.Fetched) (hreads : i.Reads v₁ v₂)
    (hb : (MemoryAccess.token cfg (executed i v₁ v₂) p).state ≠ .bubble) :
    (recordOf cfg i v₁ v₂ p r).Checked cfg := by
  have htrap : (recordOf cfg i v₁ v₂ p r).trap =
    ((MemoryAccess.token cfg (executed i v₁ v₂) p).state == .trap) := rfl
  unfold RVFI.Checked
  rw [htrap]
  cases hs : (MemoryAccess.token cfg (executed i v₁ v₂) p).state with
  | bubble => exact absurd hs hb
  | valid =>
    rw [if_neg (by decide)]
    exact completes_of_valid hf hreads hs
  | trap =>
    have hvalid : ((MemoryAccess.token cfg (executed i v₁ v₂) p).state == .valid) = false := by
      rw [hs]
      rfl
    rw [if_pos (beq_self_eq_true _)]
    refine ⟨raises_of_trap hf hreads (MemoryAccess.token_trap_iff.mp hs), ?_, ?_⟩
    · unfold recordOf Writeback.record
      rw [hvalid]
      exact ⟨rfl, rfl⟩
    · unfold recordOf Writeback.record
      rw [hvalid]
      exact ⟨rfl, rfl⟩

end Token
/-- The options of the checks: only the register file is a black box. -/
def insnBoxes : BlackBoxes := ⟨false, true⟩

namespace Cpu
variable {cfg : Config} {s s' : Cpu} {p : CpuIn}

/-- Where the tokens of the core come from, whatever is in its register file. -/
structure Carries (cfg : Config) (s : Cpu) : Prop where
  pf : s.pf.state ≠ .trap
  fd : s.fd.state ≠ .bubble → s.fd.Fetched
  dx : s.decodeRegs.state ≠ .bubble → ∃ i : FD, i.Fetched ∧ s.decodeRegs = Decode.token i ∧
    i.Reads s.regs.rs1Data s.regs.rs2Data
  xm : s.xm.state ≠ .bubble →
    ∃ (i : FD) (v₁ v₂ : Word), i.Fetched ∧ i.Reads v₁ v₂ ∧ s.xm = executed i v₁ v₂
  mw : s.mw.state ≠ .bubble → ∃ (i : FD) (v₁ v₂ : Word) (p : Response), i.Fetched ∧
    i.Reads v₁ v₂ ∧ s.mw = MemoryAccess.token cfg (executed i v₁ v₂) p
  rvfi : s.rvfi.valid = true → s.rvfi.Checked cfg

theorem carries_reset (cfg : Config) : (reset cfg).Carries cfg where
  pf := by simp [reset]
  fd h := absurd rfl h
  dx h := absurd rfl h
  xm h := absurd rfl h
  mw h := absurd rfl h
  rvfi h := absurd h (by simp [reset])

/-- A cycle in which the register file returns anything is a cycle of the core otherwise. -/
theorem stepWith_insnBoxes (cfg : Config) (s : Cpu) (p : CpuIn) (v : AnySeq) :
    s.stepWith (insnBoxes.blocks v) cfg p =
      { s.step cfg p with
        regs := BlackBoxRegisterFile.step v s.regs (s.rs1Port p) (s.rs2Port p) } := rfl

/-- When decode moves it asks for its operands, and the register 0 reads as 0. -/
theorem reads_of_moves (s : Cpu) (v : AnySeq) (hd : (s.decodeStage p).stall = false) :
    s.fd.Reads (BlackBoxRegisterFile.step v s.regs (s.rs1Port p) (s.rs2Port p)).rs1Data
      (BlackBoxRegisterFile.step v s.regs (s.rs1Port p) (s.rs2Port p)).rs2Data := by
  have hen : (s.rs1Port p).en = true ∧ (s.rs2Port p).en = true := by simp [rs1Port, rs2Port, hd]
  unfold BlackBoxRegisterFile.step
  rw [hen.1, hen.2]
  refine ⟨fun h0 => ?_, fun h0 => ?_⟩
  · exact if_neg (not_not_intro h0)
  · exact if_neg (not_not_intro h0)

/-- While decode stalls the operands are held. -/
theorem holds_of_stall (s : Cpu) (v : AnySeq) (hd : (s.decodeStage p).stall = true) :
    BlackBoxRegisterFile.step v s.regs (s.rs1Port p) (s.rs2Port p) = s.regs := by
  have hen : (s.rs1Port p).en = false ∧ (s.rs2Port p).en = false := by simp [rs1Port, rs2Port, hd]
  unfold BlackBoxRegisterFile.step
  rw [hen.1, hen.2]
  rfl

namespace Carries
variable (h : s.Carries cfg)
include h

theorem token (hx : s.xm.state ≠ .bubble) (p : Response) :
    ∃ (i : FD) (v₁ v₂ : Word) (p' : Response), i.Fetched ∧ i.Reads v₁ v₂ ∧
      MemoryAccess.token cfg s.xm p = MemoryAccess.token cfg (executed i v₁ v₂) p' := by
  obtain ⟨i, v₁, v₂, hf, hr, he⟩ := h.xm hx
  exact ⟨i, v₁, v₂, p, hf, hr, by rw [he]⟩

theorem executed (hx : (Execute.token s.dx).state ≠ .bubble) :
    ∃ (i : FD) (v₁ v₂ : Word), i.Fetched ∧ i.Reads v₁ v₂ ∧
      Execute.token s.dx = Icicle.executed i v₁ v₂ := by
  obtain ⟨i, hf, hd, hr⟩ := h.dx hx
  refine ⟨i, _, _, hf, hr, ?_⟩
  rw [Icicle.executed, ← hd]
  rfl

/-- The record that a cycle leaves. -/
theorem nextRVFI (hvalid : s.nextRVFI.valid = true) : s.nextRVFI.Checked cfg := by
  unfold Cpu.nextRVFI at hvalid ⊢
  cases hr : s.retire with
  | none =>
    rw [hr] at hvalid
    cases hvalid
  | some tok =>
    obtain ⟨hb, rfl⟩ := retire_eq_some.mp hr
    obtain ⟨i, v₁, v₂, p, hf, hreads, htok⟩ := h.mw hb
    rw [htok] at hb
    dsimp only
    rw [htok]
    exact checked_of_token hf hreads hb

/-- A cycle keeps the tokens, whatever the register file returns. -/
theorem step (p : CpuIn) (v : AnySeq) : (s.stepWith (insnBoxes.blocks v) cfg p).Carries cfg := by
  rw [stepWith_insnBoxes]
  have hrvfi : (s.step cfg p).rvfi = s.nextRVFI := rfl
  have hcycle := step_cycle cfg s p
  generalize s.step cfg p = s' at hcycle hrvfi ⊢
  have hvalid := h.nextRVFI
  rw [← hrvfi] at hvalid
  have hmw : ∀ hf : Flows cfg s p s', s'.mw.state ≠ .bubble → ∃ (i : FD) (v₁ v₂ : Word)
      (p : Response), i.Fetched ∧ i.Reads v₁ v₂ ∧
        s'.mw = MemoryAccess.token cfg (Icicle.executed i v₁ v₂) p := by
    intro hf hb
    rw [hf.mw] at hb ⊢
    exact h.token (by simpa using hb) _
  have hxm : ∀ hf : Flows cfg s p s', s'.xm.state ≠ .bubble → ∃ (i : FD) (v₁ v₂ : Word),
      i.Fetched ∧ i.Reads v₁ v₂ ∧ s'.xm = Icicle.executed i v₁ v₂ := by
    intro hf hb
    rw [hf.xm] at hb ⊢
    exact h.executed hb
  have hdx : ∀ hd : Decodes cfg s p s', s'.decodeRegs.state ≠ .bubble → ∃ i : FD, i.Fetched ∧
      s'.decodeRegs = Decode.token i ∧
      i.Reads (BlackBoxRegisterFile.step v s.regs (s.rs1Port p) (s.rs2Port p)).rs1Data
        (BlackBoxRegisterFile.step v s.regs (s.rs1Port p) (s.rs2Port p)).rs2Data := by
    intro hd hb
    rw [hd.decodeRegs] at hb
    exact ⟨s.fd, h.fd (by simpa using hb), hd.decodeRegs, reads_of_moves s v hd.decodeStage_stall⟩
  cases hcycle with
  | wait waiting pf fd dx xm mw =>
    have hstall : (s.decodeStage p).stall = true := by
      rw [decodeStage_stall, waiting, redirect_of_pending waiting]
      simp
    have hd : s'.decodeRegs = s.decodeRegs := congrArg DX.toDecodeRegs dx
    rw [holds_of_stall s v hstall]
    exact ⟨pf ▸ h.pf, fd ▸ h.fd, by rw [hd]; exact h.dx, by rw [xm]; exact h.xm,
      fun hb => absurd mw hb, hvalid⟩
  | redirect answered redirect pf fd dx xm mw =>
    refine ⟨by simp [pf], fun hb => absurd fd hb, fun hb => absurd dx hb, fun hb => absurd xm hb,
      fun hb => ?_, hvalid⟩
    rw [mw] at hb ⊢
    exact h.token (by simpa using hb) _
  | interlock flows hazard valid pf fd dx =>
    exact ⟨pf ▸ h.pf, fd ▸ h.fd, fun hb => absurd dx hb, hxm flows, hmw flows, hvalid⟩
  | starve decodes valid waiting pf fd =>
    exact ⟨pf ▸ h.pf, fun hb => absurd fd hb, hdx decodes, hxm decodes.toFlows,
      hmw decodes.toFlows, hvalid⟩
  | advance decodes clear pf fd =>
    exact ⟨by simp [pf], fun _ => fd ▸ Fetch.token_fetched h.pf _, hdx decodes,
      hxm decodes.toFlows, hmw decodes.toFlows, hvalid⟩

end Carries
end Cpu

section Run
variable (cfg : Config) (bus : ℕ → CpuIn)

theorem insnBoxes_carries (v : ℕ → AnySeq) (t : ℕ) :
    ((blackBoxCore insnBoxes cfg).run (fun u => (bus u, v u)) t).Carries cfg :=
  (blackBoxCore insnBoxes cfg).run_invariant (Cpu.carries_reset cfg)
    (fun _ i h => h.step i.1 i.2) (fun u => (bus u, v u)) t

/-- The checks of single instructions hold, in every run and with any answers of the buses:
whatever a black box returns for the operands, each record is what the manual says of its
word, its address and its operands. So is each record of the core itself. -/
theorem records_checked :
    (∀ (v : ℕ → AnySeq) (t : ℕ),
      let r := ((blackBoxCore insnBoxes cfg).run (fun u => (bus u, v u)) t).rvfi
      r.valid = true → r.Checked cfg) ∧
    ∀ t, (stateAt cfg bus t).rvfi.valid = true → (stateAt cfg bus t).rvfi.Checked cfg := by
  refine ⟨fun v t => (insnBoxes_carries cfg bus v t).rvfi, fun t => ?_⟩
  have hcarries := insnBoxes_carries cfg bus (fun u => (stateAt cfg bus u).values) t
  rw [blackBoxCore_run] at hcarries
  exact hcarries.rvfi

/-- `add x3, x2, x2`, for which the black box returns two values of `x2`. -/
def addEverywhere : ℕ → CpuIn × AnySeq :=
  fun _ => (⟨⟨true, false, 0x002101B3⟩, ⟨false, false, 0⟩⟩, ⟨1, 2, 0, false, 0⟩)

theorem add_checked : ((blackBoxCore insnBoxes {}).run addEverywhere 6).rvfi.rdWdata = 3 ∧
    ((blackBoxCore insnBoxes {}).run addEverywhere 6).rvfi.Completes (.op .add 3 2 2) := by
  have hvalid : ((blackBoxCore insnBoxes {}).run addEverywhere 6).rvfi.valid = true := by decide
  have htrap : ((blackBoxCore insnBoxes {}).run addEverywhere 6).rvfi.trap = false := by decide
  have hchecked : ((blackBoxCore insnBoxes {}).run addEverywhere 6).rvfi.Checked {} :=
    (records_checked {} fun u => (addEverywhere u).1).1 (fun u => (addEverywhere u).2) 6 hvalid
  rw [RVFI.Checked, htrap, if_neg (by decide)] at hchecked
  obtain ⟨i, hdecode, hi⟩ := hchecked
  obtain rfl : Rv32i.Instruction.op .add 3 2 2 = i :=
    Option.some.inj ((show _ = some _ by decide).symm.trans hdecode)
  exact ⟨by decide, hi⟩

end Run
end Icicle
