import Icicle.Core.Cpu

/-! What one clock cycle of the core can do. Every cycle is of one of five kinds;
the invariants of the core are proved by cases on them. -/
namespace Icicle
open Wishbone

/-- The token that fetch makes of `i` when it moves. -/
def Fetch.token (i : PF) (p : Response) : FD :=
  let ls := Fetch.loadStore i false false
  Fetch.o i ls p (Stage.passed { iState := i.state, trapSources := [ls.trap p] })

/-- The registered part of the token that decode makes of `i` when it moves. -/
def Decode.token (i : FD) : DecodeRegs :=
  Decode.o i (Stage.passed { iState := i.state, trapSources := [(Decode.control i).illegal] })

/-- The token that execute makes of `i` when it moves. -/
def Execute.token (i : DX) : XM := Execute.o Blocks.rtl i i.state

/-- The stage of memory access, which is never stalled from behind. -/
def MemoryAccess.stage (i : XM) (p : Response) : Stage :=
  { MemoryAccess.sources i p with iState := i.state }

/-- The token that memory access makes of `i` when it moves. -/
def MemoryAccess.token (cfg : Config) (i : XM) (p : Response) : MW :=
  let stage := MemoryAccess.stage i p
  MemoryAccess.o Blocks.rtl cfg i p stage.trap stage.passed

namespace Cpu

variable (cfg : Config) (s : Cpu) (p : CpuIn)

@[simp] theorem writebackStage_stall : s.writebackStage.stall = false := by
  simp [writebackStage, Stage.stall, Stage.flush]

theorem memStage_eq : s.memStage p = MemoryAccess.stage s.xm p.dbus := by
  simp [memStage, MemoryAccess.stage]

@[simp] theorem memStage_flush : (s.memStage p).flush = false := rfl

/-- Memory access stalls exactly while its own bus request is unanswered. -/
theorem memStage_stall : (s.memStage p).stall = pending s.dbus p.dbus := by
  have hb : (MemoryAccess.loadStore s.xm).busy p.dbus = pending s.dbus p.dbus :=
    LoadStore.busy_eq_pending _ _
  have hv : pending s.dbus p.dbus = true → (s.xm.state == .valid) = true := fun h =>
    ((LoadStore.requesting_iff _).mp (pending_requesting h)).1
  rw [memStage_eq]
  simp only [Stage.stall, Stage.flush, MemoryAccess.stage, MemoryAccess.sources, hb, reduceOr_cons,
    reduceOr_nil, Bool.or_false, Bool.not_false, Bool.and_true]
  cases hp : pending s.dbus p.dbus
  · simp
  · simp [hv hp]

@[simp] theorem executeStage_flush : (s.executeStage p).flush = s.redirect p := by
  simp [executeStage, Stage.flush]

@[simp] theorem decodeStage_flush : (s.decodeStage p).flush = s.redirect p := by
  simp [decodeStage, Stage.flush]

@[simp] theorem fetchStage_flush : (s.fetchStage p).flush = s.redirect p := by
  simp [fetchStage, Stage.flush]

/-- A redirect is raised only by a token that leaves memory access. -/
theorem memStage_stall_of_redirect {s : Cpu} {p : CpuIn} (h : s.redirect p = true) :
    (s.memStage p).stall = false := by
  rcases Bool.or_eq_true_iff.mp h with hb | ht
  · simpa [branchTaken, Bool.and_eq_true_iff] using (Bool.and_eq_true_iff.mp
      (Bool.and_eq_true_iff.mp hb).1).1
  · simpa using (Bool.and_eq_true_iff.mp ht).1

theorem xm_of_redirect {s : Cpu} {p : CpuIn} (h : s.redirect p = true) :
    s.xm.state ≠ .bubble := by
  intro hb
  simp [redirect, branchTaken, trapRaised, memStage, Stage.trap, hb] at h

/-- Execute has no stall source of its own. -/
theorem executeStage_stall : (s.executeStage p).stall = pending s.dbus p.dbus := by
  cases hr : s.redirect p
  · unfold Stage.stall
    rw [executeStage_flush]
    simp [executeStage, memStage_stall, hr]
  · rw [Stage.stall_of_flush (by simpa using hr), ← memStage_stall,
      memStage_stall_of_redirect hr]

/-- The three hazard comparisons. -/
def hazard (s : Cpu) : Bool :=
  Decode.dataHazard s.control s.dx.state s.dx.rdWen s.dx.rd ||
    (Decode.dataHazard s.control s.xm.state s.xm.rdWen s.xm.rd ||
      Decode.dataHazard s.control s.mw.state s.mw.rdWen s.mw.rd)

theorem decodeStage_stall : (s.decodeStage p).stall =
    (((s.fd.state == .valid && s.hazard) || pending s.dbus p.dbus) && !s.redirect p) := by
  unfold Stage.stall
  rw [decodeStage_flush]
  simp [decodeStage, hazard, executeStage_stall]

/-- The fence comparisons with decode and execute. -/
def fence (s : Cpu) : Bool :=
  (s.fd.state == .valid && s.control.fenceI) || (s.dx.state == .valid && s.dx.fenceI)

theorem fetchStage_stall : (s.fetchStage p).stall =
    (((s.pf.state == .valid && (s.fence || pending (s.ibus p) p.ibus)) ||
      (s.decodeStage p).stall) && !s.redirect p) := by
  rw [Stage.stall, fetchStage_flush]
  simp [fetchStage, fence, LoadStore.busy_eq_pending, ibus, Bool.or_assoc]

theorem pcgenStage_stall : (s.pcgenStage p).stall = (s.fetchStage p).stall := by
  simp [pcgenStage, Stage.stall, Stage.flush]

/-- PC generation issues a valid token whenever it moves. -/
theorem pcgenStage_oState : (s.pcgenStage p).oState s.pf.state =
    if (s.fetchStage p).stall then s.pf.state else .valid := by
  have hn : (s.pcgenStage p).nextStall = (s.fetchStage p).stall := rfl
  cases h : (s.fetchStage p).stall
  · rw [Stage.oState_moves _ (by rw [pcgenStage_stall, h]) rfl]
    rfl
  · rw [Stage.oState_holds _ (by rw [pcgenStage_stall, h]) (by rw [hn, h])]
    rfl

/-- What decode, execute and memory access do when the token in memory access
moves on and nothing is flushed: each passes its token to the next stage. -/
structure Flows (cfg : Config) (s : Cpu) (p : CpuIn) (s' : Cpu) : Prop where
  answered : pending s.dbus p.dbus = false
  straight : s.redirect p = false
  mw : s'.mw = MemoryAccess.token cfg s.xm p.dbus
  xm : s'.xm = Execute.token s.dx

/-- Decode moves too: it has read its operands from the register file. -/
structure Decodes (cfg : Config) (s : Cpu) (p : CpuIn) (s' : Cpu) : Prop
    extends Flows cfg s p s' where
  clear : s.fd.state = .valid → s.hazard = false
  decodeRegs : s'.decodeRegs = Decode.token s.fd
  rs1Data : s'.regs.rs1Data = s.regs.regs s.control.rs1
  rs2Data : s'.regs.rs2Data = s.regs.regs s.control.rs2

/-- The five kinds of cycles. -/
inductive Cycle (cfg : Config) (s : Cpu) (p : CpuIn) (s' : Cpu) : Prop where
  /-- Memory access waits for the bus and everything behind it stands still. -/
  | wait (waiting : pending s.dbus p.dbus = true) (pf : s'.pf = s.pf) (fd : s'.fd = s.fd)
      (dx : s'.dx = s.dx) (xm : s'.xm = s.xm) (mw : s'.mw.state = .bubble)
  /-- The token in memory access leaves it and flushes what is younger. -/
  | redirect (answered : pending s.dbus p.dbus = false) (redirect : s.redirect p = true)
      (pf : s'.pf = ⟨.valid, s'.mw.pcWdata⟩) (fd : s'.fd.state = .bubble)
      (dx : s'.dx.state = .bubble) (xm : s'.xm.state = .bubble)
      (mw : s'.mw = MemoryAccess.token cfg s.xm p.dbus)
  /-- Decode waits for an operand. -/
  | interlock (flows : Flows cfg s p s') (hazard : s.hazard = true) (valid : s.fd.state = .valid)
      (pf : s'.pf = s.pf) (fd : s'.fd = s.fd) (dx : s'.dx.state = .bubble)
  /-- Fetch waits for the bus or for a fence. -/
  | starve (decodes : Decodes cfg s p s') (valid : s.pf.state = .valid)
      (waiting : s.fence = true ∨ pending (s.ibus p) p.ibus = true)
      (pf : s'.pf = s.pf) (fd : s'.fd.state = .bubble)
  /-- Every stage moves. -/
  | advance (decodes : Decodes cfg s p s')
      (clear : s.pf.state = .valid → s.fence = false ∧ pending (s.ibus p) p.ibus = false)
      (pf : s'.pf = ⟨.valid, s.pf.pcRdata + 4⟩) (fd : s'.fd = Fetch.token s.pf p.ibus)

/-- A redirect goes where the redirecting token says the next instruction is. -/
theorem nextPF_redirect {cfg : Config} {s : Cpu} {p : CpuIn} (hr : s.redirect p = true) :
    s.nextPF cfg p = ⟨.valid, (MemoryAccess.token cfg s.xm p.dbus).pcWdata⟩ := by
  have hstall := memStage_stall_of_redirect hr
  have hfetch : (s.fetchStage p).stall = false := Stage.stall_of_flush (by simpa using hr)
  have hpc : (if s.branchTaken p then s.xm.branchTarget
      else if s.trapRaised p then cfg.trapVector
      else if !(s.pcgenStage p).stall then s.pf.pcRdata + 4 else s.pf.pcRdata) =
      (MemoryAccess.token cfg s.xm p.dbus).pcWdata := by
    simp only [MemoryAccess.token, MemoryAccess.o, MemoryAccess.pcWdata, ← memStage_eq]
    rcases Bool.or_eq_true_iff.mp hr with hb | ht
    · have hb' := hb
      unfold branchTaken at hb'
      rw [hstall] at hb'
      rw [if_pos hb, if_pos (by simpa using hb')]
    · cases hb : s.branchTaken p
      · have hb' := hb
        unfold branchTaken at hb'
        rw [hstall] at hb'
        unfold trapRaised at ht
        rw [hstall] at ht
        rw [if_neg (by simp), if_pos (by simpa [trapRaised, hstall] using ht),
          if_neg (by simpa using hb'), if_pos (by simpa using ht)]
      · have hb' := hb
        unfold branchTaken at hb'
        rw [hstall] at hb'
        rw [if_pos rfl, if_pos (by simpa using hb')]
  unfold nextPF
  rw [pcgenStage_oState, hfetch, hpc]
  rfl

section Next
variable {cfg : Config} {s : Cpu} {p : CpuIn}

theorem nextMW_moves (h : pending s.dbus p.dbus = false) :
    s.nextMW Blocks.rtl cfg p = MemoryAccess.token cfg s.xm p.dbus := by
  have hs : (s.memStage p).stall = false := by rw [memStage_stall, h]
  simp only [nextMW, hs, Bool.not_false, if_true, Stage.oState_moves _ hs (memStage_flush s p)]
  rw [memStage_eq]
  rfl

theorem nextMW_waits (h : pending s.dbus p.dbus = true) :
    (s.nextMW Blocks.rtl cfg p).state = .bubble := by
  have hs : (s.memStage p).stall = true := by rw [memStage_stall, h]
  have hn : (s.memStage p).nextStall = false := writebackStage_stall s
  simp only [nextMW, hs, Bool.not_true, Bool.false_eq_true, if_false, Stage.oState_drains _ hs hn]

theorem nextXM_moves (h : pending s.dbus p.dbus = false) (hr : s.redirect p = false) :
    s.nextXM Blocks.rtl p = Execute.token s.dx := by
  have hs : (s.executeStage p).stall = false := by rw [executeStage_stall, h]
  have hf : (s.executeStage p).flush = false := by rw [executeStage_flush, hr]
  have hp : (s.executeStage p).passed = s.dx.state := by
    simp only [Stage.passed, Stage.trap, executeStage, reduceOr_nil, Bool.and_false, Bool.or_false]
    cases s.dx.state <;> rfl
  simp only [nextXM, hs, Bool.not_false, if_true, Stage.oState_moves _ hs hf, hp]
  rfl

theorem nextXM_flushed (hr : s.redirect p = true) :
    (s.nextXM Blocks.rtl p).state = .bubble := by
  have hf : (s.executeStage p).flush = true := by rw [executeStage_flush, hr]
  simp only [nextXM, Stage.stall_of_flush hf, Bool.not_false, if_true, Stage.oState_flush _ hf,
    Execute.o]

theorem nextXM_waits (h : pending s.dbus p.dbus = true) : s.nextXM Blocks.rtl p = s.xm := by
  have hs : (s.executeStage p).stall = true := by rw [executeStage_stall, h]
  have hn : (s.executeStage p).nextStall = true := by
    rw [show (s.executeStage p).nextStall = (s.memStage p).stall from rfl, memStage_stall, h]
  simp only [nextXM, hs, Bool.not_true, Bool.false_eq_true, if_false, Stage.oState_holds _ hs hn]

theorem nextDecodeRegs_moves (hs : (s.decodeStage p).stall = false)
    (hr : s.redirect p = false) : s.nextDecodeRegs p = Decode.token s.fd := by
  have hf : (s.decodeStage p).flush = false := by rw [decodeStage_flush, hr]
  simp only [nextDecodeRegs, hs, Bool.not_false, if_true, Stage.oState_moves _ hs hf]
  rfl

theorem nextDecodeRegs_flushed (hr : s.redirect p = true) :
    (s.nextDecodeRegs p).state = .bubble := by
  have hf : (s.decodeStage p).flush = true := by rw [decodeStage_flush, hr]
  simp only [nextDecodeRegs, Stage.stall_of_flush hf, Bool.not_false, if_true,
    Stage.oState_flush _ hf, Decode.o]

theorem nextDecodeRegs_drains (hs : (s.decodeStage p).stall = true)
    (h : pending s.dbus p.dbus = false) : (s.nextDecodeRegs p).state = .bubble := by
  have hn : (s.decodeStage p).nextStall = false := by
    rw [show (s.decodeStage p).nextStall = (s.executeStage p).stall from rfl, executeStage_stall, h]
  simp only [nextDecodeRegs, hs, Bool.not_true, Bool.false_eq_true, if_false,
    Stage.oState_drains _ hs hn]

theorem nextDecodeRegs_waits (hs : (s.decodeStage p).stall = true)
    (h : pending s.dbus p.dbus = true) : s.nextDecodeRegs p = s.decodeRegs := by
  have hn : (s.decodeStage p).nextStall = true := by
    rw [show (s.decodeStage p).nextStall = (s.executeStage p).stall from rfl, executeStage_stall, h]
  simp only [nextDecodeRegs, hs, Bool.not_true, Bool.false_eq_true, if_false,
    Stage.oState_holds _ hs hn]

theorem nextFD_moves (hs : (s.fetchStage p).stall = false) (hd : (s.decodeStage p).stall = false)
    (hr : s.redirect p = false) : s.nextFD p = Fetch.token s.pf p.ibus := by
  have hf : (s.fetchStage p).flush = false := by rw [fetchStage_flush, hr]
  have hl : s.fetchLoadStore p = Fetch.loadStore s.pf false false := by
    rw [fetchLoadStore, hd, hr]
  have hp : (s.fetchStage p).passed = Stage.passed
      { iState := s.pf.state, trapSources := [(s.fetchLoadStore p).trap p.ibus] } := rfl
  simp only [nextFD, hs, Bool.not_false, if_true, Stage.oState_moves _ hs hf, hp, hl]
  rfl

theorem nextFD_flushed (hr : s.redirect p = true) : (s.nextFD p).state = .bubble := by
  have hf : (s.fetchStage p).flush = true := by rw [fetchStage_flush, hr]
  simp only [nextFD, Stage.stall_of_flush hf, Bool.not_false, if_true, Stage.oState_flush _ hf,
    Fetch.o]

theorem nextFD_drains (hs : (s.fetchStage p).stall = true)
    (hd : (s.decodeStage p).stall = false) : (s.nextFD p).state = .bubble := by
  have hn : (s.fetchStage p).nextStall = false := hd
  simp only [nextFD, hs, Bool.not_true, Bool.false_eq_true, if_false, Stage.oState_drains _ hs hn]

theorem nextFD_waits (hs : (s.fetchStage p).stall = true)
    (hd : (s.decodeStage p).stall = true) : s.nextFD p = s.fd := by
  have hn : (s.fetchStage p).nextStall = true := hd
  simp only [nextFD, hs, Bool.not_true, Bool.false_eq_true, if_false, Stage.oState_holds _ hs hn]

theorem nextPF_waits (hs : (s.fetchStage p).stall = true) (hr : s.redirect p = false) :
    s.nextPF cfg p = s.pf := by
  obtain ⟨hb, ht⟩ := Bool.or_eq_false_iff.mp hr
  simp only [nextPF, hb, ht, pcgenStage_stall, pcgenStage_oState, hs, Bool.false_eq_true, if_false,
    Bool.not_true, if_true]

theorem nextPF_moves (hs : (s.fetchStage p).stall = false) (hr : s.redirect p = false) :
    s.nextPF cfg p = ⟨.valid, s.pf.pcRdata + 4⟩ := by
  obtain ⟨hb, ht⟩ := Bool.or_eq_false_iff.mp hr
  simp only [nextPF, hb, ht, pcgenStage_stall, pcgenStage_oState, hs, Bool.false_eq_true, if_false,
    Bool.not_false, if_true]

/-- The operands are held while decode is stalled. -/
theorem step_dx_waits (hs : (s.decodeStage p).stall = true)
    (h : pending s.dbus p.dbus = true) : (s.step cfg p).dx = s.dx := by
  simp only [dx, step, stepWith, nextDecodeRegs_waits hs h, Blocks.rtl, RegisterFile.step, rs1Port,
    rs2Port, hs, Bool.not_true, Bool.false_eq_true, if_false]

end Next

/-- Every cycle is of one of the five kinds. -/
theorem step_cycle (cfg : Config) (s : Cpu) (p : CpuIn) : Cycle cfg s p (s.step cfg p) := by
  cases hw : pending s.dbus p.dbus with
  | true =>
    have hr : s.redirect p = false := by
      by_contra hr
      have := memStage_stall_of_redirect (eq_true_of_ne_false hr)
      rw [memStage_stall, hw] at this
      exact Bool.false_ne_true this.symm
    have hd : (s.decodeStage p).stall = true := by rw [decodeStage_stall, hw, hr]; simp
    have hf : (s.fetchStage p).stall = true := by rw [fetchStage_stall, hd, hr]; simp
    exact .wait hw (nextPF_waits hf hr) (nextFD_waits hf hd) (step_dx_waits hd hw)
      (nextXM_waits hw) (nextMW_waits hw)
  | false =>
    cases hr : s.redirect p with
    | true =>
      have hmw : (s.step cfg p).mw = MemoryAccess.token cfg s.xm p.dbus := nextMW_moves hw
      exact .redirect hw hr (hmw ▸ nextPF_redirect hr) (nextFD_flushed hr)
        (nextDecodeRegs_flushed hr) (nextXM_flushed hr) hmw
    | false =>
      have flows : Flows cfg s p (s.step cfg p) :=
        ⟨hw, hr, nextMW_moves hw, nextXM_moves hw hr⟩
      cases hd : (s.decodeStage p).stall with
      | true =>
        have hf : (s.fetchStage p).stall = true := by rw [fetchStage_stall, hd, hr]; simp
        have hh : s.fd.state = .valid ∧ s.hazard = true := by
          rw [decodeStage_stall, hw, hr] at hd
          simpa using hd
        exact .interlock flows hh.2 hh.1 (nextPF_waits hf hr) (nextFD_waits hf hd)
          (nextDecodeRegs_drains hd hw)
      | false =>
        have clear : s.fd.state = .valid → s.hazard = false := by
          rw [decodeStage_stall, hw, hr] at hd
          simpa using hd
        have decodes : Decodes cfg s p (s.step cfg p) :=
          { flows with
            clear := clear
            decodeRegs := nextDecodeRegs_moves hd hr
            rs1Data := by simp [step, stepWith, Blocks.rtl, RegisterFile.step, rs1Port, hd]
            rs2Data := by simp [step, stepWith, Blocks.rtl, RegisterFile.step, rs2Port, hd] }
        cases hf : (s.fetchStage p).stall with
        | true =>
          have hh : s.pf.state = .valid ∧ (s.fence = true ∨ pending (s.ibus p) p.ibus = true) := by
            rw [fetchStage_stall, hd, hr] at hf
            simpa using hf
          exact .starve decodes hh.1 hh.2 (nextPF_waits hf hr) (nextFD_drains hf hd)
        | false =>
          have hc : s.pf.state = .valid → s.fence = false ∧ pending (s.ibus p) p.ibus = false := by
            rw [fetchStage_stall, hd, hr] at hf
            simpa using hf
          exact .advance decodes hc (nextPF_moves hf hr) (nextFD_moves hf hd hr)

section Pending
variable {s : Cpu} {p : CpuIn}

/-- While its request is unanswered, memory access keeps its token. -/
theorem xm_of_dbus_pending (cfg : Config) (h : pending s.dbus p.dbus = true) :
    (s.step cfg p).xm = s.xm := by
  cases step_cycle cfg s p with
  | wait _ _ _ _ xm _ => exact xm
  | redirect answered => rw [answered] at h; cases h
  | interlock flows => rw [flows.answered] at h; cases h
  | starve decodes => rw [decodes.answered] at h; cases h
  | advance decodes => rw [decodes.answered] at h; cases h

/-- An unanswered request of fetch shows that decode is not stalled. -/
theorem ibus_pending (h : pending (s.ibus p) p.ibus = true) : s.pf.state = .valid ∧
    (s.decodeStage p).stall = false ∧ s.redirect p = false := by
  have hreq := pending_requesting h
  have hv := ((LoadStore.requesting_iff _).mp hreq).1
  simpa [fetchLoadStore, Fetch.loadStore] using hv

/-- In such a cycle decode moves and fetch waits. -/
theorem starves_of_ibus_pending (cfg : Config) (h : pending (s.ibus p) p.ibus = true) :
    Decodes cfg s p (s.step cfg p) ∧ (s.step cfg p).fd.state = .bubble ∧
      (s.step cfg p).pf = s.pf := by
  obtain ⟨hv, hd, hr⟩ := ibus_pending h
  rw [decodeStage_stall, hr, Bool.not_false, Bool.and_true, Bool.or_eq_false_iff] at hd
  cases step_cycle cfg s p with
  | wait waiting => rw [waiting] at hd; exact absurd hd.2 (by simp)
  | redirect _ redirect => rw [redirect] at hr; cases hr
  | interlock _ hazard valid => rw [hazard, valid] at hd; exact absurd hd.1 (by simp)
  | starve decodes _ _ pf fd => exact ⟨decodes, fd, pf⟩
  | advance _ clear => rw [(clear hv).2] at h; cases h

end Pending

end Cpu
end Icicle
