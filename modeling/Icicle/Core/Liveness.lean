import Icicle.Library.Response
import Icicle.Core.Progress
import Icicle.Core.HartRefinement

/-! Instructions retire again and again, if the buses answer: the fairness assumption of the
formal testbench bounds the time between two of them. -/
namespace Icicle
open Wishbone Clocked

/-- The registers of `rvfi_wrapper`. -/
structure FairnessMonitor where
  ibusWait : BitVec 8 := 0
  dbusWait : BitVec 8 := 0

namespace FairnessMonitor

/-- `{wait, cyc && stb && ~ack}`, cut to the width of the register. -/
def shift (wait : BitVec 8) {aw : ℕ} (r : Request aw) (p : Response) : BitVec 8 :=
  (wait ++ BitVec.ofBool (r.cyc && r.stb && !p.ack)).setWidth 8

def step (f : FairnessMonitor) (ibus dbus : Request 30) (p : CpuIn) : FairnessMonitor where
  ibusWait := shift f.ibusWait ibus p.ibus
  dbusWait := shift f.dbusWait dbus p.dbus

/-- `~&ibus_wait && ~&dbus_wait`. -/
def fair (f : FairnessMonitor) : Bool :=
  f.ibusWait != BitVec.allOnes 8 && f.dbusWait != BitVec.allOnes 8

end FairnessMonitor

section Run
variable (cfg : Config) (bus : ℕ → CpuIn)

/-- The registers of the testbench at the start of cycle `t`. -/
def monitorAt : ℕ → FairnessMonitor
  | 0 => {}
  | t + 1 => (monitorAt t).step (ibusAt cfg bus t) (dbusAt cfg bus t) (bus t)

/-- What the testbench assumes. -/
def Fair : Prop := ∀ t, (monitorAt cfg bus t).fair = true

/-- A register of the testbench holds what was shifted in. -/
theorem shifted {aw : ℕ} {wait : ℕ → BitVec 8} {req : ℕ → Request aw} {resp : ℕ → Response}
    (hstep : ∀ t, wait (t + 1) = FairnessMonitor.shift (wait t) (req t) (resp t)) (t : ℕ)
    {k i : ℕ} (hk : k ≤ 8) (hi : i < k) : (wait (t + k)).getLsbD i =
      ((req (t + (k - 1 - i))).cyc && (req (t + (k - 1 - i))).stb &&
        !(resp (t + (k - 1 - i))).ack) := by
  induction k generalizing i with
  | zero => omega
  | succ k ih =>
    rw [← Nat.add_assoc, hstep, FairnessMonitor.shift, BitVec.getLsbD_setWidth,
      BitVec.getLsbD_append, decide_eq_true (show i < 8 by omega), Bool.true_and]
    rcases i with _ | i
    · simp
    · rw [if_neg (by omega), show i + 1 - 1 = i by omega, ih (by omega) (by omega)]
      rw [show k + 1 - 1 - (i + 1) = k - 1 - i by omega]

/-- No request waits for eight cycles. -/
theorem not_pending_of_wait {aw : ℕ} (wait : ℕ → BitVec 8) {req : ℕ → Request aw}
    {resp : ℕ → Response}
    (hstep : ∀ t, wait (t + 1) = FairnessMonitor.shift (wait t) (req t) (resp t))
    (hfair : ∀ t, wait t ≠ BitVec.allOnes 8) :
    LeadsTo (fun _ => False) (fun _ => True) (fun t => ¬ pending (req t) (resp t) = true) 7 := by
  intro t _
  by_contra hnone
  apply hfair (t + 8)
  apply BitVec.eq_of_getLsbD_eq
  intro i hi
  rw [shifted hstep t le_rfl hi, BitVec.getLsbD_allOnes, decide_eq_true hi]
  have hpend : pending (req (t + (8 - 1 - i))) (resp (t + (8 - 1 - i))) = true :=
    by_contra fun hp => hnone ⟨_, Nat.le_add_right t _, by omega, .inl hp⟩
  have hans := pending_not_answers hpend
  have hreq := pending_requesting hpend
  unfold Request.requesting at hreq
  unfold Response.answers at hans
  rw [hreq, (Bool.or_eq_false_iff.mp hans).1]
  rfl

variable {cfg bus}

theorem Fair.ibus (h : Fair cfg bus) : LeadsTo (fun _ => False) (fun _ => True)
    (fun t => ¬ pending (ibusAt cfg bus t) (bus t).ibus = true) 7 :=
  not_pending_of_wait (fun t => (monitorAt cfg bus t).ibusWait) (fun _ => rfl)
    fun t => bne_iff_ne.mp (Bool.and_eq_true_iff.mp (h t)).1

theorem Fair.dbus (h : Fair cfg bus) : LeadsTo (fun _ => False) (fun _ => True)
    (fun t => ¬ pending (dbusAt cfg bus t) (bus t).dbus = true) 7 :=
  not_pending_of_wait (fun t => (monitorAt cfg bus t).dbusWait) (fun _ => rfl)
    fun t => bne_iff_ne.mp (Bool.and_eq_true_iff.mp (h t)).2

end Run

namespace Cpu
variable {cfg : Config} {s s' : Cpu} {p : CpuIn}

theorem oldest_of_xm (hw : s.mw.state = .bubble) (hm : s.xm.state ≠ .bubble) :
    s.oldest = some .mem := by simp [oldest, hw, hm]

/-- The state of the token at a position. -/
def stateIn (s : Cpu) : Position → State
  | .writeback => s.mw.state
  | .mem => s.xm.state
  | .execute => s.dx.state
  | .decode => s.fd.state
  | .fetch => s.pf.state

theorem stateIn_of_oldest {k : Position} (h : s.oldest = some k) : s.stateIn k ≠ .bubble := by
  unfold oldest at h
  split_ifs at h <;> cases h <;> assumption

/-- A token in memory access waits for the bus. -/
theorem mem_waits (cfg : Config) (h : s.oldest = some .mem)
    (hp : pending s.dbus p.dbus = true) : (s.step cfg p).oldest = some .mem := by
  have hmw : (s.step cfg p).mw.state = .bubble := nextMW_waits hp
  refine oldest_of_xm hmw ?_
  rw [xm_of_dbus_pending cfg hp]
  exact stateIn_of_oldest h

theorem mem_leaves (cfg : Config) (h : s.oldest = some .mem)
    (hp : pending s.dbus p.dbus = false) : (s.step cfg p).oldest = some .writeback := by
  have hmw : (s.step cfg p).mw = MemoryAccess.token cfg s.xm p.dbus := nextMW_moves hp
  have hb : (s.step cfg p).mw.state ≠ .bubble := by
    rw [hmw, Ne, MemoryAccess.token_bubble_iff]
    exact stateIn_of_oldest h
  simp [oldest, hb]

/-- Behind an empty memory access nothing stops execute. -/
theorem execute_leaves (cfg : Config) (h : s.oldest = some .execute) :
    (s.step cfg p).oldest = some .mem := by
  obtain ⟨hw, hm, -, -⟩ := oldest_eq_some h
  have hxm := hm (by simp) (by simp)
  have hp : pending s.dbus p.dbus = false := not_pending_of_bubble hxm
  have hmw : (s.step cfg p).mw = MemoryAccess.token cfg s.xm p.dbus := nextMW_moves hp
  have hx : (s.step cfg p).xm = Execute.token s.dx := nextXM_moves hp (redirect_of_bubble hxm)
  refine oldest_of_xm (by rw [hmw]; simpa using hxm) ?_
  rw [hx]
  exact stateIn_of_oldest h

theorem decode_leaves (cfg : Config) (h : s.oldest = some .decode) :
    (s.step cfg p).oldest = some .execute := by
  obtain ⟨hw, hm, hx, -⟩ := oldest_eq_some h
  have hmw := hw (by simp)
  have hxm := hm (by simp) (by simp)
  have hdx := hx (by simp) (by simp) (by simp)
  have hp : pending s.dbus p.dbus = false := not_pending_of_bubble hxm
  have hr : s.redirect p = false := redirect_of_bubble hxm
  have hmw' : (s.step cfg p).mw = MemoryAccess.token cfg s.xm p.dbus := nextMW_moves hp
  have hxm' : (s.step cfg p).xm = Execute.token s.dx := nextXM_moves hp hr
  have hdx' : (s.step cfg p).decodeRegs = Decode.token s.fd :=
    nextDecodeRegs_moves (decodeStage_stall_of_bubbles hmw hxm hdx) hr
  have hb1 : (s.step cfg p).mw.state = .bubble := by rw [hmw']; simpa using hxm
  have hb2 : (s.step cfg p).xm.state = .bubble := by rw [hxm']; exact hdx
  have hb3 : (s.step cfg p).dx.state ≠ .bubble := by
    rw [show (s.step cfg p).dx.state = (s.step cfg p).decodeRegs.state from rfl, hdx', Ne,
      Decode.token_bubble_iff]
    exact stateIn_of_oldest h
  simp [oldest, hb1, hb2, hb3]

/-- The stages behind an empty decode stay empty. -/
theorem step_bubbles (cfg : Config) (hm : s.xm.state = .bubble) (hx : s.dx.state = .bubble)
    (hd : s.fd.state = .bubble) (hw : s.mw.state = .bubble) :
    (s.step cfg p).mw.state = .bubble ∧ (s.step cfg p).xm.state = .bubble ∧
      (s.step cfg p).dx.state = .bubble := by
  have hp : pending s.dbus p.dbus = false := not_pending_of_bubble hm
  have hr : s.redirect p = false := redirect_of_bubble hm
  have hmw' : (s.step cfg p).mw = MemoryAccess.token cfg s.xm p.dbus := nextMW_moves hp
  have hxm' : (s.step cfg p).xm = Execute.token s.dx := nextXM_moves hp hr
  have hdx' : (s.step cfg p).decodeRegs = Decode.token s.fd :=
    nextDecodeRegs_moves (decodeStage_stall_of_bubbles hw hm hx) hr
  refine ⟨by rw [hmw']; simpa using hm, by rw [hxm']; exact hx, ?_⟩
  rw [show (s.step cfg p).dx.state = (s.step cfg p).decodeRegs.state from rfl, hdx']
  simpa using hd

/-- A fetch that is the oldest token waits for its answer. -/
theorem fetch_waits (cfg : Config) (h : s.oldest = some .fetch) (hv : s.pf.state = .valid)
    (hp : pending (s.ibus p) p.ibus = true) : (s.step cfg p).oldest = some .fetch := by
  obtain ⟨hw, hm, hx, hd⟩ := oldest_eq_some h
  obtain ⟨hb1, hb2, hb3⟩ := step_bubbles (p := p) cfg (hm (by simp) (by simp))
    (hx (by simp) (by simp) (by simp)) (hd rfl).1 (hw (by simp))
  obtain ⟨-, hfd, hpf⟩ := starves_of_ibus_pending cfg hp
  simp [oldest, hb1, hb2, hb3, hfd, hpf, hv]

theorem fetch_leaves (cfg : Config) (h : s.oldest = some .fetch) (hv : s.pf.state = .valid)
    (hp : pending (s.ibus p) p.ibus = false) : (s.step cfg p).oldest = some .decode := by
  obtain ⟨hw, hm, hx, hd⟩ := oldest_eq_some h
  have hmw := hw (by simp)
  have hxm := hm (by simp) (by simp)
  have hdx := hx (by simp) (by simp) (by simp)
  obtain ⟨hb1, hb2, hb3⟩ := step_bubbles (p := p) cfg hxm hdx (hd rfl).1 hmw
  have hstall : (s.fetchStage p).stall = false := by
    rw [fetchStage_stall_of_bubbles hmw hxm hdx (hd rfl).1, hp, Bool.and_false]
  have hfd : (s.step cfg p).fd = Fetch.token s.pf p.ibus := nextFD_moves hstall
    (decodeStage_stall_of_bubbles hmw hxm hdx) (redirect_of_bubble hxm)
  have hb4 : (s.step cfg p).fd.state ≠ .bubble := by
    rw [hfd, Ne, Fetch.token_bubble_iff, hv]
    simp
  simp [oldest, hb1, hb2, hb3, hb4]

/-- An empty pipeline issues a fetch. -/
theorem empty_issues (cfg : Config) (h : s.oldest = none) :
    (s.step cfg p).oldest = some .fetch := by
  obtain ⟨hw, hm, hx, hd, hf⟩ := oldest_eq_none h
  obtain ⟨hb1, hb2, hb3⟩ := step_bubbles (p := p) cfg hm hx hd hw
  have hpf := issues_of_empty (p := p) cfg h
  have hstall : (s.fetchStage p).stall = false := by
    rw [fetchStage_stall_of_bubbles hw hm hx hd, hf]
    rfl
  have hfd : (s.step cfg p).fd = Fetch.token s.pf p.ibus := nextFD_moves hstall
    (decodeStage_stall_of_bubbles hw hm hx) (redirect_of_bubble hm)
  have hb4 : (s.step cfg p).fd.state = .bubble := by
    rw [hfd, Fetch.token_bubble_iff]
    exact hf
  simp [oldest, hb1, hb2, hb3, hb4, hpf]

end Cpu

section Run
variable {cfg : Config} {bus : ℕ → CpuIn}

/-- The token that is the oldest in cycle `t`. -/
def OldestIn (cfg : Config) (bus : ℕ → CpuIn) (k : Option Position) (t : ℕ) : Prop :=
  (stateAt cfg bus t).oldest = k

/-- From each position to a retirement, if no request waits for more than `n` cycles. -/
theorem leadsTo_retirement {E : ℕ → Prop} {n : ℕ}
    (hibus : LeadsTo E (fun _ => True)
      (fun t => ¬ pending (ibusAt cfg bus t) (bus t).ibus = true) n)
    (hdbus : LeadsTo E (fun _ => True)
      (fun t => ¬ pending (dbusAt cfg bus t) (bus t).dbus = true) n) :
    LeadsTo E (fun _ => True) (fun t => recordAt cfg bus t ≠ none) (2 * n + 5) := by
  have hvalid : ∀ t, OldestIn cfg bus (some .fetch) t → (stateAt cfg bus t).pf.state = .valid := by
    intro t ht
    have htrap := (core_wellFormed cfg bus t).pf
    have hb := ((Cpu.oldest_eq_some ht).2.2.2 rfl).2
    cases hs : (stateAt cfg bus t).pf.state with
    | bubble => exact absurd hs hb
    | valid => rfl
    | trap => exact absurd hs htrap
  have hmem : LeadsTo E (OldestIn cfg bus (some .mem)) (OldestIn cfg bus (some .writeback))
      (n + 1) :=
    LeadsTo.of_wait hdbus (fun t ht hp => Cpu.mem_waits cfg ht hp)
      fun t ht hp => Cpu.mem_leaves cfg ht (eq_false_of_ne_true hp)
  have hexecute : LeadsTo E (OldestIn cfg bus (some .execute)) (OldestIn cfg bus (some .mem)) 1 :=
    LeadsTo.of_step fun t ht => Cpu.execute_leaves cfg ht
  have hdecode : LeadsTo E (OldestIn cfg bus (some .decode)) (OldestIn cfg bus (some .execute)) 1 :=
    LeadsTo.of_step fun t ht => Cpu.decode_leaves cfg ht
  have hfetch : LeadsTo E (OldestIn cfg bus (some .fetch)) (OldestIn cfg bus (some .decode))
      (n + 1) :=
    LeadsTo.of_wait hibus (fun t ht hp => Cpu.fetch_waits cfg ht (hvalid t ht) hp)
      fun t ht hp => Cpu.fetch_leaves cfg ht (hvalid t ht) (eq_false_of_ne_true hp)
  have hempty : LeadsTo E (OldestIn cfg bus none) (OldestIn cfg bus (some .fetch)) 1 :=
    LeadsTo.of_step fun t ht => Cpu.empty_issues cfg ht
  have hretire : ∀ t, OldestIn cfg bus (some .writeback) t → recordAt cfg bus t ≠ none := by
    intro t ht hn
    rw [recordAt_eq, Option.map_eq_none_iff] at hn
    exact Cpu.stateIn_of_oldest ht (retirement_eq_none.mp hn)
  -- each position is followed by those behind it
  have hall : ∀ k, LeadsTo E (OldestIn cfg bus k) (OldestIn cfg bus (some .writeback))
      (2 * n + 5) := by
    have h1 := hexecute.trans hmem
    have h2 := hdecode.trans h1
    have h3 := hfetch.trans h2
    have h4 := hempty.trans h3
    intro k
    cases k with
    | none => exact h4.mono (by omega)
    | some k =>
      cases k with
      | writeback => exact (LeadsTo.refl _).mono (Nat.zero_le _)
      | mem => exact hmem.mono (by omega)
      | execute => exact h1.mono (by omega)
      | decode => exact h2.mono (by omega)
      | fetch => exact h3.mono (by omega)
  intro t _
  obtain ⟨u, htu, hun, hu⟩ := hall _ t rfl
  exact ⟨u, htu, hun, hu.imp_left (hretire u)⟩

theorem Fair.leadsTo_record (h : Fair cfg bus) :
    LeadsTo (fun _ => False) (fun _ => True) (fun t => recordAt cfg bus t ≠ none) 19 :=
  leadsTo_retirement h.ibus h.dbus

theorem valid_of_record {t : ℕ} (h : recordAt cfg bus t ≠ none) :
    (stateAt cfg bus (t + 1)).rvfi.valid = true := by
  unfold recordAt at h
  by_contra hv
  simp [hv] at h

/-- A register of the testbench never fills up if one of any two cycles has an acknowledgement. -/
theorem wait_ne_allOnes {aw : ℕ} (wait : ℕ → BitVec 8) {req : ℕ → Request aw}
    {resp : ℕ → Response} (h0 : wait 0 = 0)
    (hstep : ∀ t, wait (t + 1) = FairnessMonitor.shift (wait t) (req t) (resp t))
    (hack : ∀ t, (resp t).ack = true ∨ (resp (t + 1)).ack = true) (t : ℕ) :
    wait t ≠ BitVec.allOnes 8 := by
  intro hfull
  rcases t with _ | _ | t
  · rw [h0] at hfull
    exact absurd hfull (by decide)
  · rw [hstep, h0, FairnessMonitor.shift] at hfull
    revert hfull
    generalize ((req 0).cyc && (req 0).stb && !(resp 0).ack) = b
    revert b
    decide
  · have hbit : ∀ i < 2, (wait (t + 2)).getLsbD i = true := by
      intro i hi
      rw [hfull, BitVec.getLsbD_allOnes]
      exact decide_eq_true (by omega)
    rcases hack t with hack | hack
    · have h1 := hbit 1 (by omega)
      rw [shifted hstep t (by omega) (by omega)] at h1
      simp [hack] at h1
    · have h0 := hbit 0 (by omega)
      rw [shifted hstep t (by omega) (by omega)] at h0
      simp [hack] at h0

/-- Buses on which one of any two cycles has an acknowledgement are fair. -/
theorem fair_of_ack (hibus : ∀ t, (bus t).ibus.ack = true ∨ (bus (t + 1)).ibus.ack = true)
    (hdbus : ∀ t, (bus t).dbus.ack = true ∨ (bus (t + 1)).dbus.ack = true) : Fair cfg bus := by
  intro t
  have hi : (monitorAt cfg bus t).ibusWait ≠ BitVec.allOnes 8 :=
    wait_ne_allOnes (fun t => (monitorAt cfg bus t).ibusWait) rfl (fun _ => rfl) hibus t
  have hd : (monitorAt cfg bus t).dbusWait ≠ BitVec.allOnes 8 :=
    wait_ne_allOnes (fun t => (monitorAt cfg bus t).dbusWait) rfl (fun _ => rfl) hdbus t
  exact Bool.and_eq_true_iff.mpr ⟨bne_iff_ne.mpr hi, bne_iff_ne.mpr hd⟩

/-- The core is live: under the assumption of the testbench an instruction retires in every
window of 20 cycles, in any run. -/
theorem retires_within (h : Fair cfg bus) :
    (∀ t, ∃ u, t ≤ u ∧ u < t + 20 ∧ (stateAt cfg bus (u + 1)).rvfi.valid = true) ∧
      ∀ n, n ≤ (records cfg bus (n * 20)).length := by
  refine ⟨fun t => ?_, fun n => h.leadsTo_record.length_log fun _ _ => id⟩
  obtain ⟨u, htu, hun, hu⟩ := h.leadsTo_record t trivial
  exact ⟨u, htu, by omega, valid_of_record (hu.resolve_right id)⟩

/-- `storeAndLoad` with `addi x0, x0, 0` behind it. -/
def nops : Storage where
  imem adr := some ((storeAndLoad.imem adr).getD 0x00000013)
  faults _ _ _ := false

theorem nops_fair : Fair {} (answersAt {} nops (fun _ => 0) alternate) := by
  have hack : ∀ t, (answersAt {} nops (fun _ => 0) alternate t).ibus.ack = (t % 2 != 0) ∧
      (answersAt {} nops (fun _ => 0) alternate t).dbus.ack = (t % 2 != 1) := by
    intro t
    rw [answersAt_eq]
    exact ⟨rfl, rfl⟩
  refine fair_of_ack (fun t => ?_) fun t => ?_
  · rw [(hack t).1, (hack (t + 1)).1, bne_iff_ne, bne_iff_ne]
    omega
  · rw [(hack t).2, (hack (t + 1)).2, bne_iff_ne, bne_iff_ne]
    omega

theorem nops_retire :
    100 ≤ (records {} (answersAt {} nops (fun _ => 0) alternate) (100 * 20)).length :=
  (retires_within nops_fair).2 100

/-- The first `n` instructions of the hart are executed, in at most 20 cycles each. -/
theorem executes_within {m : Storage} {init : BitVec 30 → Word}
    (henv : Environment cfg bus m init) (h : Fair cfg bus) (n : ℕ) :
    List.Forall₂ (RVFI.Reports cfg.handler) ((records cfg bus (n * 20)).take n)
      (trace (Rv32i.Machine.next m.platform cfg.handler) (hartReset cfg (bytes init)) n) := by
  have hlen : n ≤ (records cfg bus (n * 20)).length :=
    h.leadsTo_record.length_log fun _ _ => id
  have hrun := List.forall₂_take n (executes_run henv (n * 20)).1
  rwa [take_trace _ _ hlen] at hrun

theorem nops_execute : List.Forall₂ (RVFI.Reports (Config.handler {}))
    ((records {} (answersAt {} nops (fun _ => 0) alternate) (5 * 20)).take 5)
    (trace (Rv32i.Machine.next nops.platform (Config.handler {}))
      (hartReset {} (bytes fun _ => 0)) 5) :=
  executes_within (system_environment {} nops (fun _ => 0) alternate) nops_fair 5

end Run
end Icicle
