import Icicle.Core.Tags

/-! Progress. The oldest token in flight waits for nothing but an answer on its own bus. -/
namespace Icicle
open Wishbone

/-- The stages that have an input, oldest token first. -/
inductive Position where
  | writeback | mem | execute | decode | fetch
  deriving DecidableEq

namespace Cpu

/-- Where the oldest token is. -/
def oldest (s : Cpu) : Option Position :=
  if s.mw.state ≠ .bubble then some .writeback
  else if s.xm.state ≠ .bubble then some .mem
  else if s.dx.state ≠ .bubble then some .execute
  else if s.fd.state ≠ .bubble then some .decode
  else if s.pf.state ≠ .bubble then some .fetch
  else none

def stallAt (s : Cpu) (p : CpuIn) : Position → Bool
  | .writeback => s.writebackStage.stall
  | .mem => (s.memStage p).stall
  | .execute => (s.executeStage p).stall
  | .decode => (s.decodeStage p).stall
  | .fetch => (s.fetchStage p).stall

section
variable {s : Cpu} {p : CpuIn}

theorem oldest_eq_some {k : Position} (h : s.oldest = some k) :
    (k ≠ .writeback → s.mw.state = .bubble) ∧
    (k ≠ .writeback → k ≠ .mem → s.xm.state = .bubble) ∧
    (k ≠ .writeback → k ≠ .mem → k ≠ .execute → s.dx.state = .bubble) ∧
    (k = .fetch → s.fd.state = .bubble ∧ s.pf.state ≠ .bubble) := by
  unfold oldest at h
  split_ifs at h with hw hm hx hd hf <;> cases h <;> simp_all

theorem oldest_eq_none (h : s.oldest = none) : s.mw.state = .bubble ∧ s.xm.state = .bubble ∧
    s.dx.state = .bubble ∧ s.fd.state = .bubble ∧ s.pf.state = .bubble := by
  unfold oldest at h
  split_ifs at h
  simp_all

/-- Without a token in memory access nothing waits for the data bus. -/
theorem not_pending_of_bubble (h : s.xm.state = .bubble) : pending s.dbus p.dbus = false := by
  by_contra hp
  have hreq := pending_requesting (eq_true_of_ne_false hp)
  have hv := ((LoadStore.requesting_iff _).mp hreq).1
  simp [MemoryAccess.loadStore, h] at hv

theorem redirect_of_bubble (h : s.xm.state = .bubble) : s.redirect p = false := by
  by_contra hr
  exact xm_of_redirect (eq_true_of_ne_false hr) h

theorem hazard_of_bubbles (hw : s.mw.state = .bubble) (hm : s.xm.state = .bubble)
    (hx : s.dx.state = .bubble) : s.hazard = false := by
  simp [hazard, Decode.dataHazard, hw, hm, hx]

theorem fence_of_bubbles (hx : s.dx.state = .bubble) (hd : s.fd.state = .bubble) :
    s.fence = false := by
  simp [fence, hx, hd]

/-- Behind bubbles decode does not stall. -/
theorem decodeStage_stall_of_bubbles (hw : s.mw.state = .bubble) (hm : s.xm.state = .bubble)
    (hx : s.dx.state = .bubble) : (s.decodeStage p).stall = false := by
  rw [decodeStage_stall, hazard_of_bubbles hw hm hx, not_pending_of_bubble hm]
  simp

/-- Behind bubbles fetch stalls only for the answer to its own request. -/
theorem fetchStage_stall_of_bubbles (hw : s.mw.state = .bubble) (hm : s.xm.state = .bubble)
    (hx : s.dx.state = .bubble) (hd : s.fd.state = .bubble) :
    (s.fetchStage p).stall = (s.pf.state == .valid && pending (s.ibus p) p.ibus) := by
  rw [fetchStage_stall, decodeStage_stall_of_bubbles hw hm hx, fence_of_bubbles hx hd,
    redirect_of_bubble hm]
  simp

/-- The oldest token is stalled only by its own unanswered bus request. -/
theorem oldest_stalled {k : Position} (h : s.oldest = some k) (hs : s.stallAt p k = true) :
    (k = .mem ∧ pending s.dbus p.dbus = true) ∨
      (k = .fetch ∧ pending (s.ibus p) p.ibus = true) := by
  obtain ⟨hw, hm, hx, hd⟩ := oldest_eq_some h
  cases k with
  | writeback => simp [stallAt] at hs
  | mem => exact .inl ⟨rfl, by rw [← memStage_stall]; exact hs⟩
  | execute =>
    unfold stallAt at hs
    rw [executeStage_stall, not_pending_of_bubble (hm (by simp) (by simp))] at hs
    exact absurd hs Bool.false_ne_true
  | decode =>
    rw [stallAt, decodeStage_stall_of_bubbles (hw (by simp)) (hm (by simp) (by simp))
      (hx (by simp) (by simp) (by simp))] at hs
    exact absurd hs Bool.false_ne_true
  | fetch =>
    rw [stallAt, fetchStage_stall_of_bubbles (hw (by simp)) (hm (by simp) (by simp))
      (hx (by simp) (by simp) (by simp)) (hd rfl).1] at hs
    exact .inr ⟨rfl, (Bool.and_eq_true_iff.mp hs).2⟩

/-- An empty pipeline issues a token. -/
theorem issues_of_empty (cfg : Config) (h : s.oldest = none) :
    (s.step cfg p).pf.state = .valid := by
  obtain ⟨hw, hm, hx, hd, hf⟩ := oldest_eq_none h
  have hpf : (s.step cfg p).pf.state = (s.pcgenStage p).oState s.pf.state := rfl
  rw [hpf, pcgenStage_oState, fetchStage_stall_of_bubbles hw hm hx hd, hf]
  rfl

/-- The request of the oldest token, in fetch. -/
theorem ibus_of_oldest (h : s.oldest = some .fetch) :
    s.ibus p = (Fetch.loadStore s.pf false false).bus := by
  obtain ⟨hw, hm, hx, hd⟩ := oldest_eq_some h
  rw [ibus, fetchLoadStore, decodeStage_stall_of_bubbles (hw (by simp)) (hm (by simp) (by simp))
    (hx (by simp) (by simp) (by simp)), redirect_of_bubble (hm (by simp) (by simp))]

/-- The oldest token in fetch asserts a request for its program counter, if that is aligned. -/
theorem requesting_of_oldest (h : s.oldest = some .fetch) (hv : s.pf.state = .valid)
    (ha : s.pf.pcRdata.extractLsb' 0 2 = 0#2) :
    (s.ibus p).requesting = true ∧ (s.ibus p).adr ++ 0#2 = s.pf.pcRdata := by
  have hal : (Fetch.loadStore s.pf false false).misaligned = false := by
    simpa [WordAlign.misaligned, Fetch.loadStore, WordAlign.offset] using ha
  rw [ibus_of_oldest h]
  refine ⟨(LoadStore.requesting_iff _).mpr ⟨by simp [Fetch.loadStore, hv], rfl, hal⟩, ?_⟩
  rw [LoadStore.bus_adr, WordAlign.addrAligned_of_word rfl hal]
  rfl

/-- Without an answer the oldest token stays in fetch. -/
theorem oldest_waits (cfg : Config) (h : s.oldest = some .fetch) (hv : s.pf.state = .valid)
    (ha : s.pf.pcRdata.extractLsb' 0 2 = 0#2) (hp : p.ibus.answers = false) :
    (s.step cfg p).oldest = some .fetch ∧ (s.step cfg p).pf = s.pf := by
  obtain ⟨hw, hm, hx, hd⟩ := oldest_eq_some h
  have hxm := hm (by simp) (by simp)
  have hdx := hx (by simp) (by simp) (by simp)
  obtain ⟨hfd, -⟩ := hd rfl
  have hpend : pending (s.ibus p) p.ibus = true := by
    simp [pending, (requesting_of_oldest h hv ha).1, hp]
  generalize hs' : s.step cfg p = s'
  have hcycle := hs' ▸ step_cycle cfg s p
  cases hcycle with
  | wait waiting => rw [not_pending_of_bubble hxm] at waiting; cases waiting
  | redirect _ redirect => rw [redirect_of_bubble hxm] at redirect; cases redirect
  | interlock _ _ valid => rw [hfd] at valid; cases valid
  | advance _ clear => rw [(clear hv).2] at hpend; cases hpend
  | starve decodes _ _ pf fd =>
    have hmw' : s'.mw.state = .bubble := by rw [decodes.mw]; simpa using hxm
    have hxm' : s'.xm.state = .bubble := by rw [decodes.xm]; exact hdx
    have hdx' : s'.dx.state = .bubble := by
      rw [show s'.dx.state = s'.decodeRegs.state from rfl, decodes.decodeRegs]
      simpa using hfd
    refine ⟨?_, pf⟩
    simp [oldest, hmw', hxm', hdx', fd, pf, hv]

end
end Cpu

section Run
variable {cfg : Config} {bus : ℕ → CpuIn}

/-- The oldest token keeps its request until it is answered. -/
theorem oldest_requests {t : ℕ} (h : (stateAt cfg bus t).oldest = some .fetch)
    (ha : (stateAt cfg bus t).pf.pcRdata.extractLsb' 0 2 = 0#2) {u : ℕ} (htu : t ≤ u)
    (hu : ∀ w, t ≤ w → w < u → (bus w).ibus.answers = false) :
    ((stateAt cfg bus u).ibus (bus u)).requesting = true ∧
      ((stateAt cfg bus u).ibus (bus u)).adr ++ 0#2 = (stateAt cfg bus t).pf.pcRdata := by
  have hvalid : (stateAt cfg bus t).pf.state = .valid := by
    have htrap := (core_wellFormed cfg bus t).pf
    have hb := ((Cpu.oldest_eq_some h).2.2.2 rfl).2
    cases hs : (stateAt cfg bus t).pf.state with
    | bubble => exact absurd hs hb
    | valid => rfl
    | trap => exact absurd hs htrap
  have hstay : (stateAt cfg bus u).oldest = some .fetch ∧
      (stateAt cfg bus u).pf = (stateAt cfg bus t).pf := by
    induction u, htu using Nat.le_induction with
    | base => exact ⟨h, rfl⟩
    | succ u htu ih =>
      obtain ⟨ho, hpf⟩ := ih fun w hw hwu => hu w hw (Nat.lt_succ_of_lt hwu)
      obtain ⟨ho', hpf'⟩ := Cpu.oldest_waits cfg ho (hpf ▸ hvalid) (hpf ▸ ha)
        (hu u htu (Nat.lt_succ_self u))
      exact ⟨ho', hpf'.trans hpf⟩
  obtain ⟨ho, hpf⟩ := hstay
  rw [← hpf] at hvalid ha ⊢
  exact Cpu.requesting_of_oldest ho hvalid ha

/-- The pipeline does not stop by itself, in any cycle of any run: the oldest token
waits only for an answer to its own request, an empty pipeline issues a token, and a
fetch that is the oldest keeps its request until the answer. -/
theorem never_deadlocks (cfg : Config) (bus : ℕ → CpuIn) (t : ℕ) :
    (∀ k, (stateAt cfg bus t).oldest = some k → (stateAt cfg bus t).stallAt (bus t) k = true →
      (k = .mem ∧ (stateAt cfg bus t).dbus.requesting = true ∧ (bus t).dbus.answers = false) ∨
      (k = .fetch ∧ ((stateAt cfg bus t).ibus (bus t)).requesting = true ∧
        (bus t).ibus.answers = false)) ∧
    ((stateAt cfg bus t).oldest = none → (stateAt cfg bus (t + 1)).pf.state = .valid) ∧
    ((stateAt cfg bus t).oldest = some .fetch →
      (stateAt cfg bus t).pf.pcRdata.extractLsb' 0 2 = 0#2 →
      ∀ u, t ≤ u → (∀ w, t ≤ w → w < u → (bus w).ibus.answers = false) →
        ((stateAt cfg bus u).ibus (bus u)).requesting = true ∧
          ((stateAt cfg bus u).ibus (bus u)).adr ++ 0#2 = (stateAt cfg bus t).pf.pcRdata) := by
  refine ⟨fun k hk hs => ?_, Cpu.issues_of_empty cfg, fun h ha u => oldest_requests h ha⟩
  rcases Cpu.oldest_stalled hk hs with ⟨rfl, hp⟩ | ⟨rfl, hp⟩
  · exact .inl ⟨rfl, pending_requesting hp, pending_not_answers hp⟩
  · exact .inr ⟨rfl, pending_requesting hp, pending_not_answers hp⟩

end Run
end Icicle
