import Icicle.Core.Cycle

/-! The tokens in flight. Each carries what the stages computed from one fetched
word and two operand values; a valid token past decode holds a legal instruction. -/
namespace Icicle
open Wishbone

namespace Fetch

@[simp] theorem token_pcRdata (i : PF) (p : Response) : (token i p).pcRdata = i.pcRdata := rfl

@[simp] theorem token_bubble_iff {i : PF} {p : Response} :
    (token i p).state = .bubble ↔ i.state = .bubble := Stage.passed_eq_bubble_iff

/-- The token of a fetch that does not trap is the answer of the bus. -/
theorem token_of_not_trap {i : PF} {p : Response}
    (h : (loadStore i false false).trap p = false) :
    (token i p).insn = p.datR ∧ (token i p).memFault = false ∧ (token i p).state = i.state := by
  refine ⟨by simp [token, o, h]; rfl, by simp [token, o, h], ?_⟩
  simp only [token, o, h, Stage.passed, Stage.trap, reduceOr_cons, reduceOr_nil]
  cases i.state <;> rfl

theorem token_of_trap {i : PF} {p : Response} (hv : i.state = .valid)
    (h : (loadStore i false false).trap p = true) :
    (token i p).insn = 0 ∧ (token i p).memFault = true ∧ (token i p).state = .trap := by
  simp [token, o, h, Stage.passed, Stage.trap, hv]

end Fetch

/-- A token in decode: a faulting fetch delivers the word 0, which names no register. -/
structure FD.Ok (i : FD) : Prop where
  trap : i.state = .trap → i.insn = 0 ∧ i.memFault = true
  valid : i.state = .valid → i.memFault = false

theorem Fetch.token_ok {i : PF} (hi : i.state ≠ .trap) (p : Response) : (token i p).Ok := by
  cases ht : (loadStore i false false).trap p
  · obtain ⟨-, hm, hs⟩ := token_of_not_trap ht
    exact ⟨fun h => absurd (hs ▸ h) hi, fun _ => hm⟩
  · cases hs : i.state with
    | trap => exact absurd hs hi
    | bubble =>
      have hb : (token i p).state = .bubble := token_bubble_iff.mpr hs
      exact ⟨fun h => by simp [hb] at h, fun h => by simp [hb] at h⟩
    | valid =>
      obtain ⟨h0, hm, hs'⟩ := token_of_trap hs ht
      exact ⟨fun _ => ⟨h0, hm⟩, fun h => by simp [hs'] at h⟩

namespace Decode

@[simp] theorem token_bubble_iff {i : FD} : (token i).state = .bubble ↔ i.state = .bubble :=
  Stage.passed_eq_bubble_iff

@[simp] theorem token_pcRdata (i : FD) : (token i).pcRdata = i.pcRdata := rfl

/-- A valid token leaves decode only with a legal instruction. -/
theorem token_valid {i : FD} (h : (token i).state = .valid) :
    i.state = .valid ∧ (control i).illegal = false := by
  obtain ⟨hv, ht⟩ := Stage.iState_of_passed_valid h
  exact ⟨hv, by simpa using ht⟩

theorem token_state_of_valid {i : FD} (h : i.state = .valid) :
    (token i).state = if (control i).illegal then .trap else .valid := by
  have hpassed : (token i).state = if reduceOr [(control i).illegal] then .trap else .valid :=
    Stage.passed_valid h
  simpa using hpassed

end Decode

/-- A decoded token with the operands that the register file returned for it. -/
def DecodeRegs.withOperands (d : DecodeRegs) (v₁ v₂ : Word) : DX :=
  { d with rs1Rdata := v₁, rs2Rdata := v₂ }

/-- What execute makes of a word fetched as `i` and the operands `v₁` and `v₂`. -/
def executed (i : FD) (v₁ v₂ : Word) : XM :=
  Execute.token ((Decode.token i).withOperands v₁ v₂)

namespace Execute

@[simp] theorem token_state (i : DX) : (token i).state = i.state := rfl

@[simp] theorem token_pcRdata (i : DX) : (token i).pcRdata = i.pcRdata := rfl

@[simp] theorem token_insn (i : DX) : (token i).insn = i.insn := rfl

end Execute

namespace MemoryAccess

@[simp] theorem token_pcRdata (cfg : Config) (i : XM) (p : Response) :
    (token cfg i p).pcRdata = i.pcRdata := rfl

@[simp] theorem token_insn (cfg : Config) (i : XM) (p : Response) :
    (token cfg i p).insn = i.insn := rfl

@[simp] theorem token_bubble_iff {cfg : Config} {i : XM} {p : Response} :
    (token cfg i p).state = .bubble ↔ i.state = .bubble := Stage.passed_eq_bubble_iff

theorem token_state (cfg : Config) (i : XM) (p : Response) :
    (token cfg i p).state = (stage i p).passed := rfl

theorem stage_trap (i : XM) (p : Response) : (stage i p).trap =
    (i.state == .trap || (i.state == .valid && ((branch i).trap || (loadStore i).trap p))) := by
  simp [stage, sources, Stage.trap]

theorem token_valid_iff {cfg : Config} {i : XM} {p : Response} :
    (token cfg i p).state = .valid ↔
      i.state = .valid ∧ (branch i).trap = false ∧ (loadStore i).trap p = false := by
  rw [token_state, Stage.passed, stage_trap]
  cases hs : i.state <;> simp [stage, hs]

theorem token_trap_iff {cfg : Config} {i : XM} {p : Response} :
    (token cfg i p).state = .trap ↔ (stage i p).trap = true := by
  rw [token_state, Stage.passed]
  cases ht : (stage i p).trap
  · have hs : i.state ≠ .trap := by
      intro hs
      simp [stage_trap, hs] at ht
    simpa [stage] using hs
  · simp

theorem token_pcWdata (cfg : Config) (i : XM) (p : Response) :
    (token cfg i p).pcWdata = pcWdata cfg i (stage i p).trap := rfl

theorem token_rdWdata (cfg : Config) (i : XM) (p : Response) :
    Writeback.rdWdata (token cfg i p) =
      WDataMux.rdWdata ⟨i.wdataSel, (resultMux i).result, (loadStore i).rdata p.datR⟩ := rfl

end MemoryAccess

namespace Cpu

variable {cfg : Config} {s s' : Cpu} {p : CpuIn}

theorem redirect_eq (h : pending s.dbus p.dbus = false) : s.redirect p =
    ((s.xm.state == .valid && (MemoryAccess.branch s.xm).taken) ||
      (MemoryAccess.stage s.xm p.dbus).trap) := by
  have hs : (MemoryAccess.stage s.xm p.dbus).stall = false := by
    rw [← memStage_eq, memStage_stall, h]
  simp only [redirect, branchTaken, trapRaised, memStage_eq, hs, Bool.not_false, Bool.true_and]

/-- Without a redirect a token leaves memory access valid, towards the next word. -/
theorem Flows.next (h : Flows cfg s p s') (hx : s.xm.state ≠ .bubble) :
    s.xm.state = .valid ∧ s'.mw.state = .valid ∧ s'.mw.pcWdata = s.xm.pcRdata + 4 := by
  have hr := h.straight
  rw [redirect_eq h.answered, Bool.or_eq_false_iff] at hr
  obtain ⟨hb, ht⟩ := hr
  have hv : s.xm.state = .valid := by
    cases hs : s.xm.state with
    | bubble => exact absurd hs hx
    | valid => rfl
    | trap => simp [MemoryAccess.stage_trap, hs] at ht
  refine ⟨hv, ?_, ?_⟩
  · rw [h.mw, MemoryAccess.token_state, Stage.passed, ht]
    exact hv
  · rw [h.mw, MemoryAccess.token_pcWdata, MemoryAccess.pcWdata, hb, ht]
    rfl

/-- Where the tokens of a core come from. -/
structure WellFormed (s : Cpu) : Prop where
  pf : s.pf.state ≠ .trap
  fd : s.fd.Ok
  dx : s.dx.state ≠ .bubble → ∃ i : FD, i.Ok ∧ i.state ≠ .bubble ∧ s.decodeRegs = Decode.token i
  xm : s.xm.state ≠ .bubble →
    ∃ (i : FD) (v₁ v₂ : Word), i.Ok ∧ i.state ≠ .bubble ∧ s.xm = executed i v₁ v₂

theorem wellFormed_reset (cfg : Config) : (reset cfg).WellFormed where
  pf := by simp [reset]
  fd := ⟨by simp [reset], by simp [reset]⟩
  dx h := absurd rfl h
  xm h := absurd rfl h

/-- Execute passes on where its token comes from. -/
theorem WellFormed.executed (h : s.WellFormed) (hx : (Execute.token s.dx).state ≠ .bubble) :
    ∃ (i : FD) (v₁ v₂ : Word), i.Ok ∧ i.state ≠ .bubble ∧
      Execute.token s.dx = Icicle.executed i v₁ v₂ := by
  obtain ⟨i, hok, hb, hd⟩ := h.dx hx
  refine ⟨i, s.regs.rs1Data, s.regs.rs2Data, hok, hb, ?_⟩
  rw [Icicle.executed, ← hd]
  rfl

theorem WellFormed.decoded (h : s.WellFormed) (hd : (Decode.token s.fd).state ≠ .bubble) :
    ∃ i : FD, i.Ok ∧ i.state ≠ .bubble ∧ Decode.token s.fd = Decode.token i :=
  ⟨s.fd, h.fd, by simpa using hd, rfl⟩

/-- A cycle keeps the tokens well formed. -/
theorem WellFormed.step (h : s.WellFormed) (cfg : Config) (p : CpuIn) :
    (s.step cfg p).WellFormed := by
  have hstate : ∀ c : Cpu, c.dx.state = c.decodeRegs.state := fun _ => rfl
  generalize hs' : s.step cfg p = s'
  have hcycle := hs' ▸ step_cycle cfg s p
  cases hcycle with
  | wait _ pf fd dx xm _ =>
    have hd : s'.decodeRegs = s.decodeRegs := congrArg DX.toDecodeRegs dx
    exact ⟨pf ▸ h.pf, fd ▸ h.fd, by rw [dx, hd]; exact h.dx, by rw [xm]; exact h.xm⟩
  | redirect _ _ pf fd dx xm _ =>
    exact ⟨by simp [pf], ⟨by simp [fd], by simp [fd]⟩, fun hb => absurd dx hb,
      fun hb => absurd xm hb⟩
  | interlock flows _ _ pf fd dx =>
    exact ⟨pf ▸ h.pf, fd ▸ h.fd, fun hb => absurd dx hb,
      by rw [flows.xm]; exact h.executed⟩
  | starve decodes _ _ pf fd =>
    exact ⟨pf ▸ h.pf, ⟨by simp [fd], by simp [fd]⟩,
      by rw [hstate, decodes.decodeRegs]; exact h.decoded, by rw [decodes.xm]; exact h.executed⟩
  | advance decodes _ pf fd =>
    exact ⟨by simp [pf], fd ▸ Fetch.token_ok h.pf _,
      by rw [hstate, decodes.decodeRegs]; exact h.decoded, by rw [decodes.xm]; exact h.executed⟩

end Cpu

theorem core_wellFormed (cfg : Config) (bus : ℕ → CpuIn) (t : ℕ) :
    ((core cfg).run bus t).WellFormed :=
  (core cfg).run_invariant (Cpu.wellFormed_reset cfg) (fun _ p h => h.step cfg p) bus t

end Icicle
