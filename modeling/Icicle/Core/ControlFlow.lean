import Icicle.Core.Tags

/-! The chain of program counters. Every token that retires is the successor of the
one before it, whatever the buses answer. -/
namespace Icicle
open Wishbone

namespace Cpu

/-- What PC generation issues next, or has issued and fetch not yet accepted. -/
def pcF (s : Cpu) : Word := if s.pf.state = .bubble then s.pf.pcRdata + 4 else s.pf.pcRdata

def pcD (s : Cpu) : Word := if s.fd.state = .bubble then s.pcF else s.fd.pcRdata

def pcX (s : Cpu) : Word := if s.dx.state = .bubble then s.pcD else s.dx.pcRdata

def pcM (s : Cpu) : Word := if s.xm.state = .bubble then s.pcX else s.xm.pcRdata

def pcW (s : Cpu) : Word := if s.mw.state = .bubble then s.pcM else s.mw.pcRdata

/-- Each token in flight is followed by its successor: the next word up to memory
access, and what the token says itself behind it. -/
structure Chained (s : Cpu) : Prop where
  fd : s.fd.state ≠ .bubble → s.pcF = s.fd.pcRdata + 4
  dx : s.dx.state ≠ .bubble → s.pcD = s.dx.pcRdata + 4
  xm : s.xm.state ≠ .bubble → s.pcX = s.xm.pcRdata + 4
  mw : s.mw.state ≠ .bubble → s.pcM = s.mw.pcWdata

variable {cfg : Config} {s s' : Cpu} {p : CpuIn}

theorem chained_reset (cfg : Config) : (reset cfg).Chained where
  fd h := absurd rfl h
  dx h := absurd rfl h
  xm h := absurd rfl h
  mw h := absurd rfl h

/-- A fetch that is taken over leaves the next word to PC generation. -/
theorem pcD_of_fetched (pf : s'.pf = ⟨.valid, s.pf.pcRdata + 4⟩)
    (fd : s'.fd = Fetch.token s.pf p.ibus) : s'.pcD = s.pcF := by
  have hF : s'.pcF = s.pf.pcRdata + 4 := by simp [pcF, pf]
  simp only [pcD, fd, Fetch.token_bubble_iff, Fetch.token_pcRdata, hF]
  rfl

theorem pcD_of_starved (pf : s'.pf = s.pf) (fd : s'.fd.state = .bubble) : s'.pcD = s.pcF := by
  simp only [pcD, if_pos fd, pcF, pf]

theorem pcX_of_interlocked (pf : s'.pf = s.pf) (fd : s'.fd = s.fd) (dx : s'.dx.state = .bubble) :
    s'.pcX = s.pcD := by
  simp only [pcX, if_pos dx, pcD, pcF, pf, fd]

/-- Decode keeps the order of what it takes over from fetch. -/
theorem Decodes.pcX (h : Decodes cfg s p s') (hd : s'.pcD = s.pcF) : s'.pcX = s.pcD := by
  have hx : s'.dx.toDecodeRegs = Decode.token s.fd := h.decodeRegs
  simp only [Cpu.pcX, Cpu.pcD, hx, Decode.token_bubble_iff, Decode.token_pcRdata] at hd ⊢
  rw [hd]

/-- When nothing is flushed, memory access takes over the oldest token behind it. -/
theorem Flows.pcM (h : Flows cfg s p s') (hx : s'.pcX = s.pcD) : s'.pcM = s.pcX := by
  rw [Cpu.pcM, h.xm, Execute.token_state, Execute.token_pcRdata, hx]
  rfl

/-- The tokens behind decode follow each other if those behind fetch did. -/
theorem Decodes.chained_dx (h : Decodes cfg s p s') (hs : s.Chained) (hD : s'.pcD = s.pcF)
    (hb : s'.dx.state ≠ .bubble) : s'.pcD = s'.dx.pcRdata + 4 := by
  have hx : s'.dx.toDecodeRegs = Decode.token s.fd := h.decodeRegs
  rw [hD, hx, Decode.token_pcRdata]
  exact hs.fd (by simpa [hx] using hb)

theorem Flows.chained (h : Flows cfg s p s') (hs : s.Chained) (hx : s'.pcX = s.pcD)
    (hfd : s'.fd.state ≠ .bubble → s'.pcF = s'.fd.pcRdata + 4)
    (hdx : s'.dx.state ≠ .bubble → s'.pcD = s'.dx.pcRdata + 4) : s'.Chained := by
  refine ⟨hfd, hdx, ?_, ?_⟩
  · intro hb
    rw [h.xm, Execute.token_state] at hb
    rw [hx, hs.dx hb, h.xm, Execute.token_pcRdata]
  · intro hb
    rw [h.mw, Ne, MemoryAccess.token_bubble_iff] at hb
    rw [h.pcM hx, hs.xm hb, (h.next hb).2.2]

/-- A cycle keeps the chain. -/
theorem Chained.step (h : s.Chained) (cfg : Config) (p : CpuIn) : (s.step cfg p).Chained := by
  generalize hs' : s.step cfg p = s'
  have hcycle := hs' ▸ step_cycle cfg s p
  cases hcycle with
  | wait _ pf fd dx xm mw =>
    refine ⟨?_, ?_, ?_, fun hb => absurd mw hb⟩
    · simpa only [pcF, pf, fd] using h.fd
    · simpa only [pcD, pcF, pf, fd, dx] using h.dx
    · simpa only [pcX, pcD, pcF, pf, fd, dx, xm] using h.xm
  | redirect _ _ pf fd dx xm mw =>
    refine ⟨fun hb => absurd fd hb, fun hb => absurd dx hb, fun hb => absurd xm hb, fun _ => ?_⟩
    simp [pcM, pcX, pcD, pcF, pf, fd, dx, xm]
  | interlock flows _ _ pf fd dx =>
    refine flows.chained h (pcX_of_interlocked pf fd dx) (fun hb => ?_) (fun hb => absurd dx hb)
    simpa only [pcF, pf, fd] using h.fd (fd ▸ hb)
  | starve decodes _ _ pf fd =>
    have hD := pcD_of_starved pf fd
    exact decodes.chained h (decodes.pcX hD) (fun hb => absurd fd hb) (decodes.chained_dx h hD)
  | advance decodes _ pf fd =>
    have hD := pcD_of_fetched pf fd
    refine decodes.chained h (decodes.pcX hD) (fun _ => ?_) (decodes.chained_dx h hD)
    rw [fd, Fetch.token_pcRdata]
    simp [pcF, pf]

/-- Fetch runs ahead of memory access by three words at most. -/
theorem Chained.pcF_near (h : s.Chained) :
    ∃ j ≤ 3, s.pcF = s.pcM + BitVec.ofNat 32 (4 * j) := by
  have hstage : ∀ (state : State) (pc next : Word), (state ≠ .bubble → next = pc + 4) →
      ∃ j ≤ 1, next = (if state = .bubble then next else pc) + BitVec.ofNat 32 (4 * j) := by
    intro state pc next hnext
    by_cases hb : state = .bubble
    · exact ⟨0, Nat.zero_le 1, by rw [if_pos hb]; exact (BitVec.add_zero _).symm⟩
    · exact ⟨1, le_rfl, by rw [if_neg hb]; exact hnext hb⟩
  obtain ⟨j, hj, hF⟩ : ∃ j ≤ 1, s.pcF = s.pcD + BitVec.ofNat 32 (4 * j) := hstage _ _ _ h.fd
  obtain ⟨k, hk, hD⟩ : ∃ k ≤ 1, s.pcD = s.pcX + BitVec.ofNat 32 (4 * k) := hstage _ _ _ h.dx
  obtain ⟨n, hn, hX⟩ : ∃ n ≤ 1, s.pcX = s.pcM + BitVec.ofNat 32 (4 * n) := hstage _ _ _ h.xm
  refine ⟨n + k + j, by omega, ?_⟩
  rw [hF, hD, hX, BitVec.add_assoc, BitVec.add_assoc, ← BitVec.ofNat_add, ← BitVec.ofNat_add]
  congr 2
  omega

/-- What retires next is the oldest token behind writeback. -/
theorem pcW_step (cfg : Config) (s : Cpu) (p : CpuIn) : (s.step cfg p).pcW = s.pcM := by
  generalize hs' : s.step cfg p = s'
  have hcycle := hs' ▸ step_cycle cfg s p
  have hflows : Flows cfg s p s' → s'.pcX = s.pcD → s'.pcW = s.pcM := by
    intro h hx
    unfold pcW
    rw [h.mw, MemoryAccess.token_pcRdata, h.pcM hx]
    simp only [MemoryAccess.token_bubble_iff, pcM]
  cases hcycle with
  | wait _ pf fd dx xm mw => simp only [pcW, if_pos mw, pcM, pcX, pcD, pcF, pf, fd, dx, xm]
  | redirect answered redirect _ _ _ _ mw =>
    have hb := xm_of_redirect redirect
    unfold pcW
    rw [mw, MemoryAccess.token_pcRdata, if_neg (by simpa using hb), pcM, if_neg hb]
  | interlock flows _ _ pf fd dx => exact hflows flows (pcX_of_interlocked pf fd dx)
  | starve decodes _ _ pf fd =>
    exact hflows decodes.toFlows (decodes.pcX (pcD_of_starved pf fd))
  | advance decodes _ pf fd =>
    exact hflows decodes.toFlows (decodes.pcX (pcD_of_fetched pf fd))

end Cpu

section Run
variable {cfg : Config} {bus : ℕ → CpuIn}

theorem core_chained (cfg : Config) (bus : ℕ → CpuIn) (t : ℕ) : (stateAt cfg bus t).Chained :=
  (core cfg).run_invariant (Cpu.chained_reset cfg) (fun _ p h => h.step cfg p) bus t

theorem pcW_reset (cfg : Config) (bus : ℕ → CpuIn) : (stateAt cfg bus 0).pcW = cfg.resetVector :=
  BitVec.sub_add_cancel cfg.resetVector 4

theorem pcW_of_retirement {t : ℕ} {r : Retirement} (h : retirement cfg bus t = some r) :
    r.token.pcRdata = (stateAt cfg bus t).pcW := by
  obtain ⟨hb, ht, -⟩ := retirement_eq_some.mp h
  rw [ht, Cpu.pcW, if_neg hb]

/-- A cycle without a retirement keeps the next program counter. -/
theorem pcW_succ_of_none {t : ℕ} (h : retirement cfg bus t = none) :
    (stateAt cfg bus (t + 1)).pcW = (stateAt cfg bus t).pcW := by
  rw [stateAt_succ, Cpu.pcW_step, Cpu.pcW, if_pos (retirement_eq_none.mp h)]

/-- A retirement moves it to the successor of the token. -/
theorem pcW_succ_of_some {t : ℕ} {r : Retirement} (h : retirement cfg bus t = some r) :
    (stateAt cfg bus (t + 1)).pcW = r.token.pcWdata := by
  obtain ⟨hb, ht, -⟩ := retirement_eq_some.mp h
  rw [stateAt_succ, Cpu.pcW_step, ht, (core_chained cfg bus t).mw hb]

/-- Behind a token that does not go on to the next word the pipeline is empty up to execute. -/
theorem quiet_of_jump {t : ℕ} {r : Retirement} (h : retirement cfg bus t = some r)
    (hjump : r.token.pcWdata ≠ r.token.pcRdata + 4) :
    (stateAt cfg bus (t + 1)).mw.state = .bubble ∧
      (stateAt cfg bus (t + 1)).xm.state = .bubble := by
  obtain ⟨hb, ht, -⟩ := retirement_eq_some.mp h
  rw [ht] at hjump
  cases t with
  | zero => exact absurd rfl hb
  | succ t =>
    have hflows : ¬ Cpu.Flows cfg (stateAt cfg bus t) (bus t) (stateAt cfg bus (t + 1)) := by
      intro hf
      have hx : (stateAt cfg bus t).xm.state ≠ .bubble := by
        rwa [hf.mw, Ne, MemoryAccess.token_bubble_iff] at hb
      rw [(hf.next hx).2.2, hf.mw, MemoryAccess.token_pcRdata] at hjump
      exact hjump rfl
    obtain ⟨hx, hd⟩ : (stateAt cfg bus (t + 1)).xm.state = .bubble ∧
        (stateAt cfg bus (t + 1)).dx.state = .bubble := by
      have hcycle := Cpu.step_cycle cfg (stateAt cfg bus t) (bus t)
      rw [← stateAt_succ] at hcycle
      cases hcycle with
      | wait _ _ _ _ _ mw => exact absurd mw hb
      | redirect _ _ _ _ dx xm _ => exact ⟨xm, dx⟩
      | interlock flows _ _ _ _ _ => exact absurd flows hflows
      | starve decodes _ _ _ _ => exact absurd decodes.toFlows hflows
      | advance decodes _ _ _ => exact absurd decodes.toFlows hflows
    have hnext : Cpu.Flows cfg (stateAt cfg bus (t + 1)) (bus (t + 1))
        (stateAt cfg bus (t + 1 + 1)) → (stateAt cfg bus (t + 1 + 1)).mw.state = .bubble ∧
          (stateAt cfg bus (t + 1 + 1)).xm.state = .bubble := by
      intro hf
      rw [hf.mw, hf.xm, MemoryAccess.token_bubble_iff, Execute.token_state]
      exact ⟨hx, hd⟩
    have hcycle := Cpu.step_cycle cfg (stateAt cfg bus (t + 1)) (bus (t + 1))
    rw [← stateAt_succ] at hcycle
    cases hcycle with
    | wait _ _ _ _ xm mw => exact ⟨mw, by rw [xm]; exact hx⟩
    | redirect _ redirect _ _ _ _ _ => exact absurd hx (Cpu.xm_of_redirect redirect)
    | interlock flows _ _ _ _ _ => exact hnext flows
    | starve decodes _ _ _ _ => exact hnext decodes.toFlows
    | advance decodes _ _ _ => exact hnext decodes.toFlows

/-- The next token to retire after one is its successor. -/
theorem next_retirement {u v : ℕ} {a b : Retirement} (huv : u < v)
    (ha : retirement cfg bus u = some a) (hb : retirement cfg bus v = some b)
    (hnone : ∀ w, u < w → w < v → retirement cfg bus w = none) :
    b.token.pcRdata = a.token.pcWdata := by
  have hconst := Clocked.constant_of_none (f := fun v => (stateAt cfg bus v).pcW)
    (fun _ => pcW_succ_of_none) huv hnone
  rw [pcW_of_retirement hb, hconst, pcW_succ_of_some ha]

theorem order_succ_of_none {t : ℕ} (h : retirement cfg bus t = none) :
    (stateAt cfg bus (t + 1)).rvfi.order = (stateAt cfg bus t).rvfi.order := by
  rw [rvfi_order, rvfi_order, retired_succ_none h]

theorem next_order {u v : ℕ} {a b : Retirement} (huv : u < v)
    (ha : retirement cfg bus u = some a) (hb : retirement cfg bus v = some b)
    (hnone : ∀ w, u < w → w < v → retirement cfg bus w = none) :
    b.rvfi.order = a.rvfi.order + 1 := by
  have hrec : ∀ {t r}, retirement cfg bus t = some r →
      r.rvfi.order = (stateAt cfg bus t).rvfi.order + 1 := by
    intro t r h
    rw [(retirement_eq_some.mp h).2.2, Writeback.record]
  have hsucc : (stateAt cfg bus (u + 1)).rvfi.order = a.rvfi.order := by
    rw [hrec ha, rvfi_order, rvfi_order, retired_succ_some ha, List.length_append,
      BitVec.ofNat_add]
    rfl
  have hconst := Clocked.constant_of_none (f := fun v => (stateAt cfg bus v).rvfi.order)
    (fun _ => order_succ_of_none) huv hnone
  rw [hrec hb, hconst, hsucc]

variable (cfg bus) in
/-- The token carries the one answer that fetch accepted in cycle `c` for its program
counter, or the word 0 and a trap if that fetch trapped. -/
structure FetchedIn (c : ℕ) (i : MW) : Prop where
  pf : (stateAt cfg bus c).pf = ⟨.valid, i.pcRdata⟩
  moves : ((stateAt cfg bus c).fetchStage (bus c)).stall = false
  straight : (stateAt cfg bus c).redirect (bus c) = false
  word : ((stateAt cfg bus c).fetchStage (bus c)).trap = false →
    handshake ((stateAt cfg bus c).ibus (bus c)) (bus c).ibus = true ∧
      (bus c).ibus.err = false ∧ ((stateAt cfg bus c).ibus (bus c)).adr ++ 0#2 = i.pcRdata ∧
      i.insn = (bus c).ibus.datR
  trap : ((stateAt cfg bus c).fetchStage (bus c)).trap = true → i.insn = 0 ∧ i.state = .trap

/-- When fetch moves, its unit is not held back. -/
theorem Accepted.fetchLoadStore {c : ℕ} {i : FD} (h : Accepted cfg bus c i) :
    (stateAt cfg bus c).fetchLoadStore (bus c) =
      Fetch.loadStore (stateAt cfg bus c).pf false false := by
  have hd : ((stateAt cfg bus c).decodeStage (bus c)).stall = false :=
    Stage.nextStall_of_not_stall h.moves (by simpa using h.straight)
  rw [Cpu.fetchLoadStore, hd, h.straight]

theorem Accepted.ibus_eq {c : ℕ} {i : FD} (h : Accepted cfg bus c i) :
    (stateAt cfg bus c).ibus (bus c) =
      (Fetch.loadStore (stateAt cfg bus c).pf false false).bus := by
  rw [Cpu.ibus, h.fetchLoadStore]

theorem Accepted.trap {c : ℕ} {i : FD} (h : Accepted cfg bus c i) :
    ((stateAt cfg bus c).fetchStage (bus c)).trap =
      (Fetch.loadStore (stateAt cfg bus c).pf false false).trap (bus c).ibus := by
  simp [Cpu.fetchStage, Stage.trap, h.fetchLoadStore, h.valid]

/-- A fetch that does not trap completes its request. -/
theorem Accepted.word {c : ℕ} {i : FD} (h : Accepted cfg bus c i)
    (ht : (Fetch.loadStore (stateAt cfg bus c).pf false false).trap (bus c).ibus = false) :
    handshake ((stateAt cfg bus c).ibus (bus c)) (bus c).ibus = true ∧
      (bus c).ibus.err = false ∧
      ((stateAt cfg bus c).ibus (bus c)).adr ++ 0#2 = i.pcRdata ∧ i.insn = (bus c).ibus.datR := by
  set ls := Fetch.loadStore (stateAt cfg bus c).pf false false with hls
  have hbus : (stateAt cfg bus c).ibus (bus c) = ls.bus := h.ibus_eq
  have hvalid : ls.valid = true := by simp [hls, Fetch.loadStore, h.valid]
  obtain ⟨hm, hf⟩ : ls.misaligned = false ∧ ls.fault (bus c).ibus = false := by
    simpa [LoadStore.trap, hls, Fetch.loadStore] using ht
  have hreq : ls.bus.requesting = true := ls.requesting_iff.mpr ⟨hvalid, rfl, hm⟩
  have hpend : pending ls.bus (bus c).ibus = false := by
    have hs := h.moves
    rw [Cpu.fetchStage_stall, h.straight, hbus, h.valid] at hs
    simp only [beq_self_eq_true, Bool.true_and, Bool.not_false, Bool.and_true,
      Bool.or_eq_false_iff] at hs
    exact hs.1.2
  refine ⟨?_, ?_, ?_, ?_⟩
  · rw [hbus]
    exact (handshake_or_pending hreq).resolve_right (by simp [hpend])
  · obtain ⟨hc, hs⟩ := Bool.and_eq_true_iff.mp hreq
    simpa [LoadStore.fault, hc, hs] using hf
  · rw [hbus, LoadStore.bus_adr, WordAlign.addrAligned_of_word rfl hm, h.token]
    rfl
  · rw [h.token, (Fetch.token_of_not_trap ht).1]

/-- A token that decode receives as a trap retires as one. -/
theorem MemoryAccess.token_of_trap {i : FD} (h : i.state = .trap) (v₁ v₂ : Word) (p : Response) :
    (token cfg (executed i v₁ v₂) p).state = .trap := by
  have hd : (Decode.token i).state = .trap := Stage.passed_trap (by exact h)
  have hx : (executed i v₁ v₂).state = .trap := hd
  exact Stage.passed_trap hx

/-- What fetch accepts retires as it was fetched. -/
theorem Accepted.fetchedIn {c : ℕ} {i : FD} (ha : Accepted cfg bus c i) {v₁ v₂ : Word}
    {p : Response} {m : MW} (hm : m = MemoryAccess.token cfg (executed i v₁ v₂) p) :
    FetchedIn cfg bus c m := by
  have hpc : i.pcRdata = (stateAt cfg bus c).pf.pcRdata := by rw [ha.token]; rfl
  have hmpc : m.pcRdata = i.pcRdata := by rw [hm]; rfl
  have hinsn : m.insn = i.insn := by rw [hm]; rfl
  refine ⟨?_, ha.moves, ha.straight, ?_, ?_⟩
  · rw [hmpc, hpc, ← ha.valid]
  · intro ht
    rw [ha.trap] at ht
    rw [hmpc, hinsn]
    exact ha.word ht
  · intro ht
    rw [ha.trap] at ht
    obtain ⟨h0, -, hs⟩ := Fetch.token_of_trap ha.valid ht
    rw [← ha.token] at h0 hs
    exact ⟨by rw [hinsn, h0], by rw [hm]; exact MemoryAccess.token_of_trap hs _ _ _⟩

theorem fetchedIn {t : ℕ} (hb : (stateAt cfg bus t).mw.state ≠ .bubble) :
    FetchedIn cfg bus (tagsAt cfg bus t).mw (stateAt cfg bus t).mw := by
  obtain ⟨i, v₁, v₂, p, ha, hm⟩ := (traced cfg bus t).mw hb
  exact ha.fetchedIn hm

/-- The tokens that retire, which are the cycles with a valid RVFI record, form a
gapless chain: the first is the one at the reset vector and each other one the
successor of the one before it, with the next order number; each was fetched by a
request of its own, the later the later. -/
theorem retired_gapless (cfg : Config) (bus : ℕ → CpuIn) (t : ℕ) :
    records cfg bus t = (retired cfg bus t).map Retirement.rvfi ∧
    (∀ r ∈ retired cfg bus t, r.token.state ≠ .bubble ∧ r.rvfi.pcRdata = r.token.pcRdata ∧
      r.rvfi.pcWdata = r.token.pcWdata ∧ r.rvfi.insn = r.token.insn ∧
      r.rvfi.trap = (r.token.state == .trap)) ∧
    (∀ r, (retired cfg bus t).head? = some r → r.token.pcRdata = cfg.resetVector) ∧
    (retired cfg bus t).IsChain (fun a b =>
      b.token.pcRdata = a.token.pcWdata ∧ b.rvfi.order = a.rvfi.order + 1) ∧
    ∃ fetches : List ℕ, fetches.Pairwise (· < ·) ∧
      List.Forall₂ (fun r c => FetchedIn cfg bus c r.token) (retired cfg bus t) fetches := by
  refine ⟨records_eq t, ?_, ?_, ?_, ?_⟩
  · intro r hr
    obtain ⟨u, -, hu⟩ := Clocked.mem_log.mp hr
    obtain ⟨hb, ht, hv⟩ := retirement_eq_some.mp hu
    rw [hv, ht]
    exact ⟨hb, rfl, rfl, rfl, rfl⟩
  · intro r hr
    obtain ⟨u, -, hu, hnone⟩ := Clocked.log_head? hr
    have hconst := Clocked.constant_of_none (f := fun v => (stateAt cfg bus v).pcW)
      (fun _ => pcW_succ_of_none) (Nat.zero_le u) fun w _ hw => hnone w hw
    rw [pcW_of_retirement hu, hconst, pcW_reset]
  · exact Clocked.log_isChain (fun u v a b huv ha hb hnone =>
      ⟨next_retirement huv ha hb hnone, next_order huv ha hb hnone⟩) t
  · refine ⟨Clocked.log (fun u => (retirement cfg bus u).map fun _ => (tagsAt cfg bus u).mw) t,
      Clocked.log_pairwise (fun u v a b huv ha hb => ?_) t, Clocked.log_forall₂ (fun u => ?_) t⟩
    · obtain ⟨ra, hra, rfl⟩ := Option.map_eq_some_iff.mp ha
      obtain ⟨rb, hrb, rfl⟩ := Option.map_eq_some_iff.mp hb
      exact tags_mw_lt huv (retirement_eq_some.mp hra).1 (retirement_eq_some.mp hrb).1
    · cases hr : retirement cfg bus u with
      | none => exact Option.Rel.none
      | some r =>
        obtain ⟨hb, ht, -⟩ := retirement_eq_some.mp hr
        exact Option.Rel.some (by rw [ht]; exact fetchedIn hb)

end Run
end Icicle
