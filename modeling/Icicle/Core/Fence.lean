import Icicle.Core.SideEffects
import Icicle.Core.ControlFlow

/-! FENCE.I on two separate buses. While the fence is in decode or execute fetch does
not accept a word, but it keeps requesting one; a request that began before the fence
left execute can be the one that is accepted behind it. -/
namespace Icicle
open Wishbone

/-- A valid FENCE.I that retires. -/
def MW.isFenceI (i : MW) : Bool := i.state == .valid && (Control.ofInsn i.insn).fenceI

/-- A valid store that retires. -/
def MW.isStore (i : MW) : Bool := i.state == .valid && i.memStore

namespace Cpu
variable {cfg : Config} {s s' : Cpu} {p : CpuIn}

/-- A valid FENCE.I in execute. -/
def fenceX (s : Cpu) : Bool := s.dx.state == .valid && s.dx.fenceI

/-- A valid FENCE.I in decode. -/
def fenceD (s : Cpu) : Bool := s.fd.state == .valid && s.control.fenceI

theorem fence_eq (s : Cpu) : s.fence = (s.fenceD || s.fenceX) := rfl

/-- A token is followed by PC generation, which has always issued one after reset. -/
structure Fenced (s : Cpu) : Prop where
  issued : s.fd.state ≠ .bubble → s.pf.state = .valid
  alone : s.fenceX = true → s.fd.state = .bubble

theorem fenced_reset (cfg : Config) : (reset cfg).Fenced where
  issued h := absurd rfl h
  alone h := by cases h

/-- A fence that enters execute was in decode. -/
theorem Decodes.fenceD (h : Decodes cfg s p s') (hx : s'.fenceX = true) : s.fenceD = true := by
  have hd : s'.dx.toDecodeRegs = Decode.token s.fd := h.decodeRegs
  simp only [fenceX, hd, Bool.and_eq_true, beq_iff_eq] at hx
  have hv := (Decode.token_valid hx.1).1
  have hf : s.control.fenceI = true := hx.2
  simp [Cpu.fenceD, hv, hf]

/-- Fetch accepts nothing behind a fence. -/
theorem Fenced.step (h : s.Fenced) (hpf : s.pf.state ≠ .trap) (cfg : Config) (p : CpuIn) :
    (s.step cfg p).Fenced := by
  have hbubble : ∀ {c : Cpu}, c.dx.state = .bubble → c.fenceX = false := by
    intro c hb
    simp [fenceX, hb]
  generalize hs' : s.step cfg p = s'
  have hcycle := hs' ▸ step_cycle cfg s p
  cases hcycle with
  | wait _ pf fd dx _ _ =>
    refine ⟨by rw [fd, pf]; exact h.issued, fun hx => ?_⟩
    rw [fenceX, dx] at hx
    rw [fd]
    exact h.alone hx
  | redirect _ _ _ fd dx _ _ => exact ⟨fun hb => absurd fd hb, fun _ => fd⟩
  | interlock _ _ _ pf fd dx =>
    refine ⟨by rw [fd, pf]; exact h.issued, fun hx => ?_⟩
    rw [hbubble dx] at hx
    cases hx
  | starve _ _ _ _ fd => exact ⟨fun hb => absurd fd hb, fun _ => fd⟩
  | advance decodes clear pf fd =>
    refine ⟨fun _ => by rw [pf], fun hx => ?_⟩
    have hnv : s.pf.state ≠ .valid := by
      intro hv
      have hc := (clear hv).1
      rw [fence_eq, decodes.fenceD hx] at hc
      exact Bool.false_ne_true hc.symm
    rw [fd, Fetch.token_bubble_iff]
    cases hst : s.pf.state with
    | bubble => rfl
    | valid => exact absurd hst hnv
    | trap => exact absurd hst hpf

end Cpu

section Run
variable (cfg : Config) (bus : ℕ → CpuIn)

/-- The first cycle of the request that fetch completes in cycle `t`. -/
def fetchBegan (t : ℕ) : ℕ := began (ibusAt cfg bus) (fun u => (bus u).ibus) t

/-- Every instruction that retires after a FENCE.I was fetched by a request that
began after the data bus acknowledged every store that retired before the fence. -/
def FencesStores : Prop :=
  ∀ u b v c, retirement cfg bus u = some b → b.token.isFenceI = true → u < v →
    retirement cfg bus v = some c → ∀ t a, retirement cfg bus (t + 1) = some a →
    a.token.isStore = true → t + 1 < u →
    stores (dbusAt cfg bus t) (bus t).dbus = true ∧ t < fetchBegan cfg bus (tagsAt cfg bus v).mw

/-- When a store is acknowledged, no request of fetch is left waiting across a fence
behind the store. -/
structure FenceClear (t : ℕ) : Prop where
  execute : stores (dbusAt cfg bus t) (bus t).dbus = true → (stateAt cfg bus t).fenceX = true →
    pending (ibusAt cfg bus t) (bus t).ibus = false
  decode : stores (dbusAt cfg bus t) (bus t).dbus = true → (stateAt cfg bus t).fenceD = true →
    pending (ibusAt cfg bus t) (bus t).ibus = true →
    pending (ibusAt cfg bus (t + 1)) (bus (t + 1)).ibus = false

variable {cfg bus}

theorem core_fenced (cfg : Config) (bus : ℕ → CpuIn) (t : ℕ) : (stateAt cfg bus t).Fenced := by
  have h := (core cfg).run_invariant (P := fun s => s.WellFormed ∧ s.Fenced)
    ⟨Cpu.wellFormed_reset cfg, Cpu.fenced_reset cfg⟩
    (fun s p h => ⟨h.1.step cfg p, h.2.step h.1.pf cfg p⟩) bus t
  exact h.2

/-- A store that retires valid was acknowledged in the cycle before. -/
theorem stores_of_retirement {t : ℕ} {a : Retirement} (ha : retirement cfg bus (t + 1) = some a)
    (hs : a.token.isStore = true) : stores (dbusAt cfg bus t) (bus t).dbus = true := by
  have hd : departure cfg bus t = some ((stateAt cfg bus t).xm, a) := by rw [departure, ha]; rfl
  obtain ⟨-, hp, -, ht, -⟩ := departure_eq_some.mp hd
  set x := (stateAt cfg bus t).xm with hx
  have hbus : dbusAt cfg bus t = (MemoryAccess.loadStore x).bus := rfl
  obtain ⟨hv, hstore⟩ : a.token.state = .valid ∧ a.token.memStore = true := by
    simpa [MW.isStore] using hs
  have hxs : x.memStore = true := by rw [ht] at hstore; exact hstore
  obtain ⟨hxv, -, htrap⟩ := MemoryAccess.token_valid_iff.mp (ht ▸ hv)
  have hls : ((MemoryAccess.loadStore x).load || (MemoryAccess.loadStore x).store) = true := by
    simp [MemoryAccess.loadStore, hxs]
  rw [LoadStore.trap, hls, Bool.true_and, Bool.or_eq_false_iff] at htrap
  have hacc : x.accesses = true := XM.accesses_iff.mpr ⟨hxv, hls, htrap.1⟩
  have hreq : (dbusAt cfg bus t).requesting = true := by
    rw [hbus, MemoryAccess.requesting_eq, hacc]
  have hhand : handshake (dbusAt cfg bus t) (bus t).dbus = true := by
    refine (handshake_or_pending hreq).resolve_right ?_
    rw [show dbusAt cfg bus t = (stateAt cfg bus t).dbus from rfl, hp]
    exact Bool.false_ne_true
  have herr : (bus t).dbus.err = false := by
    have hfault := htrap.2
    unfold LoadStore.fault at hfault
    rw [← hbus] at hfault
    unfold Request.requesting at hreq
    rwa [hreq, Bool.true_and] at hfault
  have hwe : (dbusAt cfg bus t).we = true := hxs
  simp [stores, hhand, hwe, herr]

theorem dx_fenceI {t : ℕ} (hb : (stateAt cfg bus t).dx.state ≠ .bubble) :
    (stateAt cfg bus t).dx.fenceI = (Control.ofInsn (stateAt cfg bus t).dx.insn).fenceI := by
  obtain ⟨i, -, hi⟩ := (traced cfg bus t).dx hb
  have hd : (stateAt cfg bus t).dx.toDecodeRegs = Decode.token i := hi
  rw [hd]
  rfl

/-- A fence has no access to wait for. -/
theorem fence_not_accesses {t : ℕ} (hb : (stateAt cfg bus t).xm.state ≠ .bubble)
    (hf : (Control.ofInsn (stateAt cfg bus t).xm.insn).fenceI = true) :
    (stateAt cfg bus t).xm.accesses = false := by
  obtain ⟨i, v₁, v₂, -, hi⟩ := (traced cfg bus t).xm hb
  rw [hi] at hf ⊢
  obtain ⟨hload, hstore⟩ := (Control.ofInsn_consistent i.insn).fenceI hf
  have hl : (executed i v₁ v₂).memLoad = false := hload
  have hs : (executed i v₁ v₂).memStore = false := hstore
  simp [XM.accesses, hl, hs]

/-- A FENCE.I that retires left execute two cycles before. -/
theorem fenceX_of_retirement {u : ℕ} {b : Retirement} (hb : retirement cfg bus u = some b)
    (hf : b.token.isFenceI = true) : ∃ e, u = e + 2 ∧ (stateAt cfg bus e).fenceX = true ∧
      Cpu.Flows cfg (stateAt cfg bus e) (bus e) (stateAt cfg bus (e + 1)) := by
  obtain ⟨hv, hfence⟩ : b.token.state = .valid ∧ (Control.ofInsn b.token.insn).fenceI = true := by
    simpa [MW.isFenceI] using hf
  cases u with
  | zero => exact absurd rfl (retirement_eq_some.mp hb).1
  | succ m =>
    have hd : departure cfg bus m = some ((stateAt cfg bus m).xm, b) := by rw [departure, hb]; rfl
    obtain ⟨hxb, -, -, ht, -⟩ := departure_eq_some.mp hd
    rw [ht, MemoryAccess.token_insn] at hfence
    have hxv := (MemoryAccess.token_valid_iff.mp (ht ▸ hv)).1
    cases m with
    | zero => exact absurd rfl hxb
    | succ e =>
      have hflows : Cpu.Flows cfg (stateAt cfg bus e) (bus e) (stateAt cfg bus (e + 1)) := by
        have hcycle := Cpu.step_cycle cfg (stateAt cfg bus e) (bus e)
        rw [← stateAt_succ] at hcycle
        cases hcycle with
        | wait waiting _ _ _ xm _ =>
          rw [xm] at hfence hxb
          have hacc := pending_requesting waiting
          unfold Cpu.dbus at hacc
          rw [MemoryAccess.requesting_eq, fence_not_accesses hxb hfence] at hacc
          exact absurd hacc Bool.false_ne_true
        | redirect _ _ _ _ _ xm _ => exact absurd xm hxb
        | interlock flows => exact flows
        | starve decodes => exact decodes.toFlows
        | advance decodes => exact decodes.toFlows
      rw [hflows.xm, Execute.token_state] at hxv
      rw [hflows.xm, Execute.token_insn] at hfence
      have hfx := @dx_fenceI cfg bus e (by simp [hxv])
      exact ⟨e, rfl, by simp [Cpu.fenceX, hxv, hfx, hfence], hflows⟩

/-- What retires after the fence was accepted after the fence left execute. -/
theorem fetched_after_fence {e v : ℕ} {c : Retirement} (hx : (stateAt cfg bus e).fenceX = true)
    (hflows : Cpu.Flows cfg (stateAt cfg bus e) (bus e) (stateAt cfg bus (e + 1)))
    (hb : (stateAt cfg bus (e + 2)).mw.state ≠ .bubble) (hev : e + 2 < v)
    (hc : retirement cfg bus v = some c) : e < (tagsAt cfg bus v).mw := by
  have hfd := (core_fenced cfg bus e).alone hx
  -- behind the fence there is nothing in decode and execute
  have hnext : (stateAt cfg bus (e + 1)).dx.state = .bubble ∧
      (stateAt cfg bus (e + 1)).fd.state = .bubble := by
    have hcycle := Cpu.step_cycle cfg (stateAt cfg bus e) (bus e)
    rw [← stateAt_succ] at hcycle
    have hdx : Cpu.Decodes cfg (stateAt cfg bus e) (bus e) (stateAt cfg bus (e + 1)) →
        (stateAt cfg bus (e + 1)).dx.state = .bubble := by
      intro hd
      have h : (stateAt cfg bus (e + 1)).dx.state = (Decode.token (stateAt cfg bus e).fd).state :=
        congrArg DecodeRegs.state hd.decodeRegs
      rw [h, Decode.token_bubble_iff, hfd]
    cases hcycle with
    | wait waiting => rw [hflows.answered] at waiting; cases waiting
    | redirect _ redirect => rw [hflows.straight] at redirect; cases redirect
    | interlock _ _ valid => rw [hfd] at valid; cases valid
    | starve decodes _ _ _ fd => exact ⟨hdx decodes, fd⟩
    | advance decodes clear _ fd =>
      refine ⟨hdx decodes, ?_⟩
      rw [fd, Fetch.token_bubble_iff]
      cases hst : (stateAt cfg bus e).pf.state with
      | bubble => rfl
      | trap => exact absurd hst (core_wellFormed cfg bus e).pf
      | valid =>
        have hclear := (clear hst).1
        rw [Cpu.fence_eq, hx, Bool.or_true] at hclear
        cases hclear
  have hyounger : Cpu.younger (stateAt cfg bus (e + 1)) (tagsAt cfg bus (e + 1)) =
      slot (stateAt cfg bus (e + 1)).xm.state (tagsAt cfg bus (e + 1)).xm := by
    simp [Cpu.younger, hnext.1, hnext.2]
  -- so the only tag behind the fence is that of the cycle in which it is in memory access
  have honly : ∀ x ∈ Cpu.younger (stateAt cfg bus (e + 2)) (tagsAt cfg bus (e + 2)), x = e + 1 := by
    have hslot : slot (stateAt cfg bus (e + 2)).mw.state (tagsAt cfg bus (e + 2)).mw =
        [(tagsAt cfg bus (e + 2)).mw] := if_neg hb
    have hpre := @inflight_succ cfg bus (e + 1)
    unfold Cpu.inflight at hpre
    rw [hslot, hyounger, List.singleton_append] at hpre
    intro x hx
    unfold slot at hpre
    split at hpre
    · obtain ⟨-, hnil⟩ := List.cons_prefix_cons.mp hpre
      simp [List.prefix_nil.mp hnil] at hx
    · obtain ⟨-, hmem⟩ := List.cons_prefix_cons.mp hpre
      simpa using hmem.subset hx
  refine inflight_above (by omega) (fun x hx => ?_) hev _
    (List.mem_append_left _ (mem_slot.mpr ⟨(retirement_eq_some.mp hc).1, rfl⟩))
  rw [honly x hx]
  exact Nat.lt_succ_self e

/-- Fetches behind a fence begin after the stores before it are acknowledged, if no request of
fetch waits across the fence. -/
theorem fencesStores_of_clear (hclear : ∀ t, FenceClear cfg bus t) : FencesStores cfg bus := by
  intro u b v c hb hf huv hc t a ha hs htu
  obtain ⟨e, rfl, hx, hflows⟩ := fenceX_of_retirement hb hf
  have hstores := stores_of_retirement ha hs
  have hfetch := fetched_after_fence hx hflows (retirement_eq_some.mp hb).1 huv hc
  refine ⟨hstores, ?_⟩
  by_contra hlt
  -- otherwise one request waits from the acknowledgement until the fence has left execute
  have hpend : ∀ w, t ≤ w → w < (tagsAt cfg bus v).mw →
      pending (ibusAt cfg bus w) (bus w).ibus = true := fun w hw hwc =>
    pending_of_began_le (ibusAt cfg bus) (fun u => (bus u).ibus)
      ((not_lt.mp hlt).trans hw) hwc
  have hdecode : ∀ w, w + 1 = e → pending (ibusAt cfg bus w) (bus w).ibus = true →
      (stateAt cfg bus w).fenceD = true := by
    intro w hw hp
    have hd := (Cpu.starves_of_ibus_pending cfg hp).1
    rw [← stateAt_succ, hw] at hd
    exact hd.fenceD hx
  rcases Nat.lt_trichotomy (t + 1) e with hlt | heq | hgt
  · obtain ⟨w, rfl⟩ : ∃ w, e = w + 2 := ⟨e - 2, by omega⟩
    have hfd := (Cpu.starves_of_ibus_pending cfg (hpend w (by omega) (by omega))).2.1
    have hfence := hdecode (w + 1) rfl (hpend (w + 1) (by omega) (by omega))
    rw [Cpu.fenceD, stateAt_succ, hfd] at hfence
    simp at hfence
  · have hp := hpend t le_rfl (by omega)
    have hnext := (hclear t).decode hstores (hdecode t heq hp) hp
    rw [hpend (t + 1) (by omega) (by omega)] at hnext
    cases hnext
  · obtain rfl : t = e := by omega
    have hnone := (hclear t).execute hstores hx
    rw [hpend t le_rfl hfetch] at hnone
    cases hnone

/-- If no request of fetch is left waiting across a fence behind an acknowledged store,
FENCE.I orders fetches behind stores; a word that is executed after the fence is then
what the memory held in a cycle after all stores before the fence. -/
theorem fenceI_orders_fetches (hclear : ∀ t, FenceClear cfg bus t) :
    FencesStores cfg bus ∧
    ∀ init, Reads (ibusAt cfg bus) (fun t => (bus t).ibus)
        (contents (dbusAt cfg bus) (fun t => (bus t).dbus) init) →
      ∀ u b v c, retirement cfg bus u = some b → b.token.isFenceI = true → u < v →
        retirement cfg bus v = some c →
        ((stateAt cfg bus (tagsAt cfg bus v).mw).fetchStage (bus (tagsAt cfg bus v).mw)).trap
          = false →
        ∃ w adr, adr ++ 0#2 = c.token.pcRdata ∧
          c.token.insn = contents (dbusAt cfg bus) (fun t => (bus t).dbus) init w adr ∧
          ∀ t a, retirement cfg bus (t + 1) = some a → a.token.isStore = true →
            t + 1 < u → t < w := by
  refine ⟨fencesStores_of_clear hclear, fun init hreads u b v c hb hf huv hc htrap => ?_⟩
  obtain ⟨hcb, hct, -⟩ := retirement_eq_some.mp hc
  obtain ⟨hhand, herr, hadr, hinsn⟩ := (fetchedIn hcb).word htrap
  obtain ⟨w, hw, -, hword⟩ := hreads _ hhand herr
  refine ⟨w, _, hct ▸ hadr, ?_, ?_⟩
  · rw [hct, hinsn]
    exact hword
  · intro t a ha hs htu
    exact lt_of_lt_of_le (fencesStores_of_clear hclear u b v c hb hf huv hc t a ha hs htu).2 hw

def idleBus : CpuIn := ⟨⟨false, false, 0⟩, ⟨false, false, 0⟩⟩

def fetchAnswer (word : Word) : CpuIn := ⟨⟨true, false, word⟩, ⟨false, false, 0⟩⟩

/-- `addi x2, x0, 0x13; sw x2, 12(x0); fence.i; addi x3, x0, 1`: the store replaces
the last instruction by a `nop`. -/
def patchProgram (adr : BitVec 30) : Word :=
  match adr with
  | 0#30 => 0x01300113
  | 1#30 => 0x00202623
  | 2#30 => 0x0000100F
  | 3#30 => 0x00100193
  | _ => 0

/-- The store is acknowledged at once, in cycle 8; the word behind the fence has been
requested since cycle 7 and is answered in cycle 9 as it was in cycle 7. -/
def staleAnswers : ℕ → CpuIn
  | 1 => fetchAnswer (patchProgram 0)
  | 2 => fetchAnswer (patchProgram 1)
  | 6 => fetchAnswer (patchProgram 2)
  | 8 => ⟨⟨false, false, 0⟩, ⟨true, false, 0⟩⟩
  | 9 => fetchAnswer (patchProgram 3)
  | _ => idleBus

/-- The same accesses without wait states. -/
def promptAnswers : ℕ → CpuIn
  | 1 => fetchAnswer (patchProgram 0)
  | 2 => fetchAnswer (patchProgram 1)
  | 6 => fetchAnswer (patchProgram 2)
  | 7 => fetchAnswer (patchProgram 3)
  | 8 => ⟨⟨true, false, patchProgram 3⟩, ⟨true, false, 0⟩⟩
  | 9 => fetchAnswer 0x13
  | _ => idleBus

theorem promptAnswers_ordered : FencesStores {} promptAnswers ∧
    8 < fetchBegan {} promptAnswers (tagsAt {} promptAnswers 13).mw := by
  have hclear : ∀ t, FenceClear {} promptAnswers t := by
    intro t
    by_cases ht : t < 10
    · have hx : ∀ t < 10, stores (dbusAt {} promptAnswers t) (promptAnswers t).dbus = true →
          (stateAt {} promptAnswers t).fenceX = true →
          pending (ibusAt {} promptAnswers t) (promptAnswers t).ibus = false := by decide
      have hd : ∀ t < 10, stores (dbusAt {} promptAnswers t) (promptAnswers t).dbus = true →
          (stateAt {} promptAnswers t).fenceD = false := by decide
      exact ⟨hx t ht, fun hs hf => by rw [hd t ht hs] at hf; cases hf⟩
    · obtain ⟨k, rfl⟩ : ∃ k, t = k + 10 := ⟨t - 10, by omega⟩
      have hidle : stores (dbusAt {} promptAnswers (k + 10)) (promptAnswers (k + 10)).dbus =
          false := by
        simp [stores, handshake, Response.answers, promptAnswers, idleBus]
      have hnone : stores (dbusAt {} promptAnswers (k + 10)) (promptAnswers (k + 10)).dbus ≠ true :=
        ne_true_of_eq_false hidle
      exact ⟨fun hs => absurd hs hnone, fun hs => absurd hs hnone⟩
  have h := (fenceI_orders_fetches hclear).1
  exact ⟨h, (h 10 _ 13 _ (retirement_of_mw (by decide)) (by decide) (by decide)
    (retirement_of_mw (by decide)) 8 _ (retirement_of_mw (by decide)) (by decide) (by decide)).2⟩

/-- The word that the store replaced is executed after the fence. -/
theorem staleAnswers_not_ordered :
    Reads (ibusAt {} staleAnswers) (fun t => (staleAnswers t).ibus)
      (contents (dbusAt {} staleAnswers) (fun t => (staleAnswers t).dbus) patchProgram) ∧
    ¬ FencesStores {} staleAnswers ∧
    (stateAt {} staleAnswers 13).mw.insn = patchProgram 3 ∧
    contents (dbusAt {} staleAnswers) (fun t => (staleAnswers t).dbus) patchProgram 9 3 = 0x13 := by
  refine ⟨?_, ?_, by decide +kernel, by decide +kernel⟩
  · intro t hh herr
    have hread : ∀ t < 10, handshake (ibusAt {} staleAnswers t) (staleAnswers t).ibus = true →
        (staleAnswers t).ibus.datR = contents (dbusAt {} staleAnswers)
          (fun t => (staleAnswers t).dbus) patchProgram
          (began (ibusAt {} staleAnswers) (fun t => (staleAnswers t).ibus) t)
          (ibusAt {} staleAnswers t).adr := by decide
    by_cases ht : t < 10
    · exact ⟨_, le_rfl, began_le _ _ t, hread t ht hh⟩
    · obtain ⟨k, rfl⟩ : ∃ k, t = k + 10 := ⟨t - 10, by omega⟩
      simp [handshake, Response.answers, staleAnswers, idleBus] at hh
  · intro h
    have hlt := (h 10 _ 13 _ (retirement_of_mw (by decide)) (by decide) (by decide)
      (retirement_of_mw (by decide)) 8 _ (retirement_of_mw (by decide)) (by decide) (by decide)).2
    exact absurd hlt (by decide)

end Run
end Icicle
