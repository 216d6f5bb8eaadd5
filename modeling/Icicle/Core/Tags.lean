import Icicle.Framework.Pipeline
import Icicle.Core.Retirement

/-! Which fetch each token in flight comes from. Beside every pipeline register
stands the cycle in which fetch accepted its token, copied as the common fields of
the layouts are copied. -/
namespace Icicle
open Wishbone

structure Tags where
  fd : ℕ := 0
  dx : ℕ := 0
  xm : ℕ := 0
  mw : ℕ := 0

/-- A stage that is not stalled copies the tag of its input; fetch writes the cycle `now`. -/
def Tags.step (g : Tags) (s : Cpu) (p : CpuIn) (now : ℕ) : Tags where
  fd := if !(s.fetchStage p).stall then now else g.fd
  dx := if !(s.decodeStage p).stall then g.fd else g.dx
  xm := if !(s.executeStage p).stall then g.dx else g.xm
  mw := if !(s.memStage p).stall then g.xm else g.mw

namespace Cpu
variable {cfg : Config} {s s' : Cpu} {p : CpuIn}

/-- The tags of the tokens behind memory access, oldest first, the token in memory
access included. -/
def younger (s : Cpu) (g : Tags) : List ℕ :=
  slot s.xm.state g.xm ++ slot s.dx.state g.dx ++ slot s.fd.state g.fd

/-- The tags of all tokens that fetch has accepted and that are in flight. -/
def inflight (s : Cpu) (g : Tags) : List ℕ := slot s.mw.state g.mw ++ younger s g

theorem Flows.tags (h : Flows cfg s p s') (g : Tags) (now : ℕ) :
    (g.step s p now).mw = g.xm ∧ (g.step s p now).xm = g.dx := by
  simp [Tags.step, memStage_stall, executeStage_stall, h.answered]

theorem Decodes.decodeStage_stall (h : Decodes cfg s p s') : (s.decodeStage p).stall = false := by
  rw [Cpu.decodeStage_stall, h.answered, h.straight]
  simpa using h.clear

theorem Decodes.tags (h : Decodes cfg s p s') (g : Tags) (now : ℕ) :
    (g.step s p now).dx = g.fd := by
  simp [Tags.step, h.decodeStage_stall]

/-- In a cycle of the kind `advance` fetch is not stalled. -/
theorem Decodes.fetchStage_stall (h : Decodes cfg s p s')
    (hc : s.pf.state = .valid → s.fence = false ∧ pending (s.ibus p) p.ibus = false) :
    (s.fetchStage p).stall = false := by
  rw [Cpu.fetchStage_stall, h.decodeStage_stall, h.straight]
  simpa using hc

theorem redirect_of_pending (h : pending s.dbus p.dbus = true) : s.redirect p = false := by
  by_contra hr
  have hs := memStage_stall_of_redirect (eq_true_of_ne_false hr)
  rw [memStage_stall, h] at hs
  exact Bool.false_ne_true hs.symm

theorem tags_wait (h : pending s.dbus p.dbus = true) (g : Tags) (now : ℕ) :
    (g.step s p now).fd = g.fd ∧ (g.step s p now).dx = g.dx ∧ (g.step s p now).xm = g.xm := by
  have hd : (s.decodeStage p).stall = true := by
    rw [decodeStage_stall, h, redirect_of_pending h]; simp
  have hf : (s.fetchStage p).stall = true := by
    rw [fetchStage_stall, hd, redirect_of_pending h]; simp
  simp [Tags.step, hf, hd, executeStage_stall, h]

theorem tags_interlock (hr : s.redirect p = false) (hh : s.hazard = true)
    (hv : s.fd.state = .valid) (g : Tags) (now : ℕ) : (g.step s p now).fd = g.fd := by
  have hd : (s.decodeStage p).stall = true := by rw [decodeStage_stall, hr]; simp [hh, hv]
  have hf : (s.fetchStage p).stall = true := by rw [fetchStage_stall, hd, hr]; simp
  simp [Tags.step, hf]

theorem tags_redirect (h : pending s.dbus p.dbus = false) (g : Tags) (now : ℕ) :
    (g.step s p now).mw = g.xm := by
  simp [Tags.step, memStage_stall, h]

/-- The registers from fetch on, first stage first. From there on the core is an instance of
the framework, whose rules say where each token goes. -/
def registers (s : Cpu) (g : Tags) : List (Token ℕ) :=
  [⟨s.fd.state, g.fd⟩, ⟨s.dx.state, g.dx⟩, ⟨s.xm.state, g.xm⟩, ⟨s.mw.state, g.mw⟩]

/-- What the stages from fetch on registered. -/
def stageSources (s : Cpu) (p : CpuIn) : ℕ → Sources
  | 0 => (s.fetchStage p).toSources
  | 1 => (s.decodeStage p).toSources
  | 2 => (s.executeStage p).toSources
  | 3 => (s.memStage p).toSources
  | _ => s.writebackStage.toSources

theorem tags_registers (s : Cpu) (g : Tags) :
    Pipeline.tags (Pipeline.tokens (registers s g)) = inflight s g := by
  have hnil : Pipeline.tags (Pipeline.tokens ([] : List (Token ℕ))) = [] := rfl
  simp only [registers, Pipeline.tags_tokens_cons, hnil, inflight, younger, List.nil_append,
    List.append_assoc]

/-- The state registers and the tags move as those of a pipeline do. -/
theorem registers_step (cfg : Config) (s : Cpu) (p : CpuIn) (g : Tags) (now : ℕ) :
    registers (s.step cfg p) (g.step s p now) =
      Pipeline.step (stageSources s p) ⟨s.pf.state, now⟩ (registers s g) := by
  have hfd : (s.nextFD p).state = (s.fetchStage p).oState s.fd.state := by
    dsimp only [nextFD]
    split <;> rfl
  have hdx : (s.nextDecodeRegs p).state = (s.decodeStage p).oState s.dx.state := by
    dsimp only [nextDecodeRegs]
    split <;> rfl
  have hxm : (s.nextXM Blocks.rtl p).state = (s.executeStage p).oState s.xm.state := by
    dsimp only [nextXM]
    split <;> rfl
  have hmw : (s.nextMW Blocks.rtl cfg p).state = (s.memStage p).oState s.mw.state := by
    dsimp only [nextMW]
    split <;> rfl
  change [(⟨(s.nextFD p).state, _⟩ : Token ℕ), ⟨(s.nextDecodeRegs p).state, _⟩,
    ⟨(s.nextXM Blocks.rtl p).state, _⟩, ⟨(s.nextMW Blocks.rtl cfg p).state, _⟩] = _
  rw [hfd, hdx, hxm, hmw]
  rfl

/-- The core flushes from the front: memory access is not stalled when it redirects. -/
theorem releases (s : Cpu) (p : CpuIn) (g : Tags) :
    Pipeline.Releases (stageSources s p) s.pf.state (registers s g) := by
  have hflush : ∀ st : Stage, st.flush = true → st.stall = false := fun _ => Stage.stall_of_flush
  refine ⟨?_, ?_, ?_, ?_, rfl⟩
  · intro h
    exact hflush (s.decodeStage p) (by rw [decodeStage_flush, ← fetchStage_flush]; exact h)
  · intro h
    exact hflush (s.executeStage p) (by rw [executeStage_flush, ← decodeStage_flush]; exact h)
  · intro h
    exact memStage_stall_of_redirect (by rw [← executeStage_flush]; exact h)
  · intro h
    cases h

/-- The tokens in flight after a cycle were behind writeback before it, or the one
fetched in it. -/
theorem inflight_step (cfg : Config) (s : Cpu) (p : CpuIn) (g : Tags) (now : ℕ) :
    inflight (s.step cfg p) (g.step s p now) <+: younger s g ++ [now] := by
  have hcycle := Pipeline.delivered_append_tokens (i := ⟨s.pf.state, now⟩) (releases s p g)
  rw [← registers_step cfg, tags_registers] at hcycle
  have hdelivered : Pipeline.tags (Pipeline.delivered (stageSources s p) ⟨s.pf.state, now⟩
      (registers s g)) = slot s.mw.state g.mw := by
    change Pipeline.tags (if s.writebackStage.stall || s.mw.state == .bubble then [] else
      [(⟨s.mw.state, g.mw⟩ : Token ℕ)]) = _
    rw [writebackStage_stall, slot]
    cases s.mw.state <;> rfl
  have hkept : Pipeline.kept (stageSources s p) (registers s g) = slot s.mw.state g.mw ++
      (slot s.xm.state g.xm ++ if s.redirect p then [] else
        slot s.dx.state g.dx ++ slot s.fd.state g.fd) := by
    change (((([] : List ℕ) ++ slot s.mw.state g.mw) ++ slot s.xm.state g.xm) ++
      if (s.executeStage p).flush then [] else slot s.dx.state g.dx) ++
      (if (s.decodeStage p).flush then [] else slot s.fd.state g.fd) = _
    rw [executeStage_flush, decodeStage_flush]
    cases s.redirect p <;> simp
  have hentering : Pipeline.entering (stageSources s p) ⟨s.pf.state, now⟩ (registers s g) =
      if (s.fetchStage p).stall || s.redirect p then [] else slot s.pf.state now := by
    rw [← fetchStage_flush]
    rfl
  rw [hdelivered, hkept, hentering, List.append_assoc, List.append_cancel_left_eq] at hcycle
  rw [hcycle, younger]
  cases s.redirect p with
  | true => simp
  | false =>
    have hnew : (if (s.fetchStage p).stall || false then [] else slot s.pf.state now) <+:
        [now] := by
      unfold slot
      split
      · simp
      · split <;> simp
    simpa using hnew

end Cpu

section Run
variable (cfg : Config) (bus : ℕ → CpuIn)

/-- The tags at the start of cycle `t`. -/
def tagsAt : ℕ → Tags
  | 0 => {}
  | t + 1 => (tagsAt t).step (stateAt cfg bus t) (bus t) t

variable {cfg bus}

theorem inflight_succ (t : ℕ) : Cpu.inflight (stateAt cfg bus (t + 1)) (tagsAt cfg bus (t + 1)) <+:
    Cpu.younger (stateAt cfg bus t) (tagsAt cfg bus t) ++ [t] :=
  Cpu.inflight_step cfg _ _ _ _

variable (cfg bus) in
/-- Tokens in flight are in the order in which they were fetched. -/
theorem inflight_sorted (t : ℕ) :
    (Cpu.inflight (stateAt cfg bus t) (tagsAt cfg bus t)).Pairwise (· < ·) ∧
      ∀ x ∈ Cpu.inflight (stateAt cfg bus t) (tagsAt cfg bus t), x < t := by
  induction t with
  | zero => exact ⟨List.Pairwise.nil, fun x hx => absurd hx List.not_mem_nil⟩
  | succ t ih =>
    obtain ⟨hsorted, hlt⟩ := ih
    have hsub : (Cpu.younger (stateAt cfg bus t) (tagsAt cfg bus t)).Sublist
        (Cpu.inflight (stateAt cfg bus t) (tagsAt cfg bus t)) := List.sublist_append_right _ _
    have hall : (Cpu.younger (stateAt cfg bus t) (tagsAt cfg bus t) ++ [t]).Pairwise (· < ·) := by
      rw [List.pairwise_append]
      refine ⟨hsorted.sublist hsub, List.pairwise_singleton _ _, fun x hx y hy => ?_⟩
      rw [List.mem_singleton.mp hy]
      exact hlt x (hsub.subset hx)
    refine ⟨hall.sublist (inflight_succ t).sublist, fun x hx => ?_⟩
    rcases List.mem_append.mp ((inflight_succ t).subset hx) with h | h
    · exact Nat.lt_succ_of_lt (hlt x (hsub.subset h))
    · rw [List.mem_singleton.mp h]
      exact Nat.lt_succ_self t

/-- Tags stay above a bound that the tokens behind writeback exceed. -/
theorem inflight_above {m t u : ℕ} (hm : m < t)
    (h : ∀ x ∈ Cpu.younger (stateAt cfg bus t) (tagsAt cfg bus t), m < x) (hu : t < u) :
    ∀ x ∈ Cpu.inflight (stateAt cfg bus u) (tagsAt cfg bus u), m < x := by
  have hstep : ∀ v, m < v →
      (∀ x ∈ Cpu.younger (stateAt cfg bus v) (tagsAt cfg bus v), m < x) →
      ∀ x ∈ Cpu.inflight (stateAt cfg bus (v + 1)) (tagsAt cfg bus (v + 1)), m < x := by
    intro v hv hy x hx
    rcases List.mem_append.mp ((inflight_succ v).subset hx) with h | h
    · exact hy x h
    · rwa [List.mem_singleton.mp h]
  induction u, hu using Nat.le_induction with
  | base => exact hstep t hm h
  | succ u hu ih =>
    exact hstep u (by omega) fun x hx => ih x (List.mem_append_right _ hx)

/-- Later retirements were fetched later. -/
theorem tags_mw_lt {t u : ℕ} (htu : t < u) (ht : (stateAt cfg bus t).mw.state ≠ .bubble)
    (hu : (stateAt cfg bus u).mw.state ≠ .bubble) :
    (tagsAt cfg bus t).mw < (tagsAt cfg bus u).mw := by
  have hmem : ∀ v, (stateAt cfg bus v).mw.state ≠ .bubble →
      (tagsAt cfg bus v).mw ∈ Cpu.inflight (stateAt cfg bus v) (tagsAt cfg bus v) :=
    fun v hv => List.mem_append_left _ (mem_slot.mpr ⟨hv, rfl⟩)
  obtain ⟨hsorted, hlt⟩ := inflight_sorted cfg bus t
  refine inflight_above (hlt _ (hmem t ht)) (fun x hx => ?_) htu _ (hmem u hu)
  exact (List.pairwise_append.mp hsorted).2.2 _ (mem_slot.mpr ⟨ht, rfl⟩) x hx

variable (cfg bus) in
/-- In cycle `c` fetch accepts the answer for a valid program counter, and hands `i` to decode. -/
structure Accepted (c : ℕ) (i : FD) : Prop where
  valid : (stateAt cfg bus c).pf.state = .valid
  moves : ((stateAt cfg bus c).fetchStage (bus c)).stall = false
  straight : (stateAt cfg bus c).redirect (bus c) = false
  token : i = Fetch.token (stateAt cfg bus c).pf (bus c).ibus

variable (cfg bus) in
/-- Every token in flight was accepted in the cycle of its tag and has passed through
the stages since. -/
structure Traced (s : Cpu) (g : Tags) : Prop where
  fd : s.fd.state ≠ .bubble → Accepted cfg bus g.fd s.fd
  dx : s.dx.state ≠ .bubble → ∃ i, Accepted cfg bus g.dx i ∧ s.decodeRegs = Decode.token i
  xm : s.xm.state ≠ .bubble →
    ∃ i v₁ v₂, Accepted cfg bus g.xm i ∧ s.xm = executed i v₁ v₂
  mw : s.mw.state ≠ .bubble →
    ∃ i v₁ v₂ p, Accepted cfg bus g.mw i ∧ s.mw = MemoryAccess.token cfg (executed i v₁ v₂) p

/-- A cycle keeps the tokens traced. -/
theorem Traced.step {t : ℕ} {g : Tags} (h : Traced cfg bus (stateAt cfg bus t) g) :
    Traced cfg bus (stateAt cfg bus (t + 1)) (g.step (stateAt cfg bus t) (bus t) t) := by
  have hvalid : (stateAt cfg bus t).pf.state ≠ .bubble → (stateAt cfg bus t).pf.state = .valid := by
    intro hb
    have ht := (core_wellFormed cfg bus t).pf
    cases hs : (stateAt cfg bus t).pf.state with
    | bubble => exact absurd hs hb
    | valid => rfl
    | trap => exact absurd hs ht
  have hcycle := Cpu.step_cycle cfg (stateAt cfg bus t) (bus t)
  rw [← stateAt_succ] at hcycle
  generalize hs : stateAt cfg bus t = s at *
  generalize stateAt cfg bus (t + 1) = s' at *
  have hmem : ∀ (hx : s.xm.state ≠ .bubble) p, ∃ i v₁ v₂ p', Accepted cfg bus g.xm i ∧
      MemoryAccess.token cfg s.xm p = MemoryAccess.token cfg (executed i v₁ v₂) p' := by
    intro hx p
    obtain ⟨i, v₁, v₂, ha, he⟩ := h.xm hx
    exact ⟨i, v₁, v₂, p, ha, by rw [he]⟩
  have hexec : ∀ hx : s.dx.state ≠ .bubble, ∃ i v₁ v₂, Accepted cfg bus g.dx i ∧
      Execute.token s.dx = executed i v₁ v₂ := by
    intro hx
    obtain ⟨i, ha, hd⟩ := h.dx hx
    refine ⟨i, s.regs.rs1Data, s.regs.rs2Data, ha, ?_⟩
    rw [executed, ← hd]
    rfl
  have hflows : ∀ hf : Cpu.Flows cfg s (bus t) s',
      (s'.xm.state ≠ .bubble → ∃ i v₁ v₂, Accepted cfg bus (g.step s (bus t) t).xm i ∧
        s'.xm = executed i v₁ v₂) ∧
      (s'.mw.state ≠ .bubble → ∃ i v₁ v₂ p, Accepted cfg bus (g.step s (bus t) t).mw i ∧
        s'.mw = MemoryAccess.token cfg (executed i v₁ v₂) p) := by
    intro hf
    rw [(hf.tags g t).1, (hf.tags g t).2, hf.xm, hf.mw]
    exact ⟨hexec, fun hb => hmem (by simpa using hb) _⟩
  have hdecodes : ∀ hd : Cpu.Decodes cfg s (bus t) s', s'.dx.state ≠ .bubble →
      ∃ i, Accepted cfg bus (g.step s (bus t) t).dx i ∧ s'.decodeRegs = Decode.token i := by
    intro hd hb
    rw [show s'.dx.state = s'.decodeRegs.state from rfl, hd.decodeRegs] at hb
    exact ⟨s.fd, by rw [hd.tags g t]; exact h.fd (by simpa using hb), hd.decodeRegs⟩
  cases hcycle with
  | wait waiting pf fd dx xm mw =>
    obtain ⟨hfd, hdx, hxm⟩ := Cpu.tags_wait waiting g t
    have hd : s'.decodeRegs = s.decodeRegs := congrArg DX.toDecodeRegs dx
    exact ⟨by rw [fd, hfd]; exact h.fd, by rw [dx, hd, hdx]; exact h.dx,
      by rw [xm, hxm]; exact h.xm, fun hb => absurd mw hb⟩
  | redirect answered redirect pf fd dx xm mw =>
    refine ⟨fun hb => absurd fd hb, fun hb => absurd dx hb, fun hb => absurd xm hb, ?_⟩
    rw [mw, Cpu.tags_redirect answered g t]
    exact fun hb => hmem (by simpa using hb) _
  | interlock flows hazard valid pf fd dx =>
    refine ⟨?_, fun hb => absurd dx hb, (hflows flows).1, (hflows flows).2⟩
    rw [fd, Cpu.tags_interlock flows.straight hazard valid g t]
    exact h.fd
  | starve decodes valid waiting pf fd =>
    exact ⟨fun hb => absurd fd hb, hdecodes decodes, (hflows decodes.toFlows).1,
      (hflows decodes.toFlows).2⟩
  | advance decodes clear pf fd =>
    refine ⟨fun hb => ?_, hdecodes decodes, (hflows decodes.toFlows).1,
      (hflows decodes.toFlows).2⟩
    have hmoves := decodes.fetchStage_stall clear
    rw [fd] at hb ⊢
    rw [show (g.step s (bus t) t).fd = t by simp [Tags.step, hmoves]]
    subst hs
    exact ⟨hvalid (by simpa using hb), hmoves, decodes.straight, rfl⟩

theorem traced (cfg : Config) (bus : ℕ → CpuIn) (t : ℕ) :
    Traced cfg bus (stateAt cfg bus t) (tagsAt cfg bus t) := by
  induction t with
  | zero =>
    exact ⟨fun h => absurd rfl h, fun h => absurd rfl h, fun h => absurd rfl h,
      fun h => absurd rfl h⟩
  | succ t ih => exact ih.step

end Run
end Icicle
