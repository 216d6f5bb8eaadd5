import Mathlib.Data.List.Basic
import Mathlib.Tactic

/-! Synchronous circuits in one clock domain: runs, invariants, event logs, and
refinement of a deterministic sequential machine up to stuttering. -/

/-- Registers `σ` with a reset value, updated once a cycle from the inputs `ι`. -/
structure Clocked (ι σ : Type*) where
  reset : σ
  step : σ → ι → σ

namespace Clocked

variable {ι σ α A ω : Type*}

/-- The registers at the start of each cycle. -/
def run (m : Clocked ι σ) (inp : ℕ → ι) : ℕ → σ
  | 0 => m.reset
  | t + 1 => m.step (m.run inp t) (inp t)

theorem run_succ (m : Clocked ι σ) (inp : ℕ → ι) (t : ℕ) :
    m.run inp (t + 1) = m.step (m.run inp t) (inp t) := rfl

/-- A property of the reset state that every step preserves holds throughout every run. -/
theorem run_invariant (m : Clocked ι σ) {P : σ → Prop} (h0 : P m.reset)
    (hs : ∀ s i, P s → P (m.step s i)) (inp : ℕ → ι) (t : ℕ) : P (m.run inp t) := by
  induction t with
  | zero => exact h0
  | succ t ih => exact hs _ _ ih

/-- What is written in some cycles, and kept in the others, is what was written last. -/
theorem lastWrite {β : Type*} {v d : ℕ → β} {w : ℕ → Prop} (hw : ∀ t, w t → v (t + 1) = d t)
    (hn : ∀ t, ¬ w t → v (t + 1) = v t) (t : ℕ) :
    (∃ u < t, w u ∧ (∀ x, u < x → x < t → ¬ w x) ∧ v t = d u) ∨ ((∀ u < t, ¬ w u) ∧ v t = v 0) := by
  induction t with
  | zero => exact .inr ⟨fun u hu => absurd hu (Nat.not_lt_zero u), rfl⟩
  | succ t ih =>
    by_cases ht : w t
    · exact .inl ⟨t, Nat.lt_succ_self t, ht, fun x hx hxt => by omega, hw t ht⟩
    · have hlast : ∀ {x}, x < t + 1 → ¬ x < t → ¬ w x := by
        intro x hx hxt
        obtain rfl : x = t := by omega
        exact ht
      rcases ih with ⟨u, hu, hwu, hnone, hv⟩ | ⟨hnone, hv⟩
      · refine .inl ⟨u, Nat.lt_succ_of_lt hu, hwu, fun x hx hxt => ?_, (hn t ht).trans hv⟩
        by_cases hlt : x < t
        · exact hnone x hx hlt
        · exact hlast hxt hlt
      · refine .inr ⟨fun x hx => ?_, (hn t ht).trans hv⟩
        by_cases hlt : x < t
        · exact hnone x hlt
        · exact hlast hx hlt

/-- The events of the cycles before `t`, in order; a cycle has at most one. -/
def log (e : ℕ → Option α) (t : ℕ) : List α := (List.range t).filterMap e

@[simp] theorem log_zero (e : ℕ → Option α) : log e 0 = [] := rfl

theorem log_succ (e : ℕ → Option α) (t : ℕ) : log e (t + 1) = log e t ++ (e t).toList := by
  unfold log
  rw [List.range_succ, List.filterMap_append]
  cases h : e t <;> simp [h]

theorem log_succ_none {e : ℕ → Option α} {t : ℕ} (h : e t = none) : log e (t + 1) = log e t := by
  simp [log_succ, h]

theorem log_succ_some {e : ℕ → Option α} {t : ℕ} {a : α} (h : e t = some a) :
    log e (t + 1) = log e t ++ [a] := by
  simp [log_succ, h]

theorem mem_log {e : ℕ → Option α} {t : ℕ} {a : α} : a ∈ log e t ↔ ∃ u < t, e u = some a := by
  simp [log]

/-- Two logs whose events are related cycle by cycle are related element by element. -/
theorem log_forall₂ {β : Type*} {R : α → β → Prop} {e : ℕ → Option α} {f : ℕ → Option β}
    (h : ∀ t, Option.Rel R (e t) (f t)) (t : ℕ) : List.Forall₂ R (log e t) (log f t) := by
  induction t with
  | zero => exact List.Forall₂.nil
  | succ t ih =>
    rw [log_succ, log_succ]
    refine List.rel_append ih ?_
    have ht := h t
    generalize e t = x, f t = y at ht
    cases ht with
    | none => exact List.Forall₂.nil
    | some hr => exact List.Forall₂.cons hr List.Forall₂.nil

/-- An event stream filtered and mapped event by event has the filtered log. -/
theorem log_bind {β : Type*} (e : ℕ → Option α) (g : α → Option β) (t : ℕ) :
    log (fun u => (e u).bind g) t = (log e t).filterMap g := by
  simp [log, List.filterMap_filterMap]

theorem log_map {β : Type*} (e : ℕ → Option α) (g : α → β) (t : ℕ) :
    log (fun u => (e u).map g) t = (log e t).map g := by
  simp [log, List.map_filterMap]

theorem log_filter (e : ℕ → Option α) (q : α → Bool) (t : ℕ) :
    log (fun u => (e u).filter q) t = (log e t).filter q := by
  simp [log, List.filter_filterMap]

/-- The last entry of a log is the event of some cycle after which there was none. -/
theorem log_getLast? {e : ℕ → Option α} {t : ℕ} {a : α} (h : (log e t).getLast? = some a) :
    ∃ u < t, e u = some a ∧ ∀ w, u < w → w < t → e w = none := by
  induction t with
  | zero => simp at h
  | succ t ih =>
    cases he : e t with
    | some b =>
      rw [log_succ_some he, List.getLast?_concat, Option.some.injEq] at h
      exact ⟨t, Nat.lt_succ_self t, he.trans (congrArg some h), fun w hw hwt => by omega⟩
    | none =>
      rw [log_succ_none he] at h
      obtain ⟨u, hut, hu, hnone⟩ := ih h
      refine ⟨u, Nat.lt_succ_of_lt hut, hu, fun w hw hwt => ?_⟩
      rcases Nat.lt_succ_iff_lt_or_eq.mp hwt with hlt | rfl
      · exact hnone w hw hlt
      · exact he

/-- A relation between every event and the next one chains the log. -/
theorem log_isChain {R : α → α → Prop} {e : ℕ → Option α}
    (h : ∀ u v a b, u < v → e u = some a → e v = some b → (∀ w, u < w → w < v → e w = none) → R a b)
    (t : ℕ) : (log e t).IsChain R := by
  induction t with
  | zero => exact List.isChain_nil
  | succ t ih =>
    cases he : e t with
    | none => rwa [log_succ_none he]
    | some b =>
      rw [log_succ_some he, List.isChain_append]
      refine ⟨ih, List.isChain_singleton b, fun a ha c hc => ?_⟩
      obtain ⟨u, hut, hu, hnone⟩ := log_getLast? ha
      obtain rfl : b = c := by simpa using hc
      exact h u t a b hut hu he hnone

/-- A relation between every event and every later one holds throughout the log. -/
theorem log_pairwise {R : α → α → Prop} {e : ℕ → Option α}
    (h : ∀ u v a b, u < v → e u = some a → e v = some b → R a b) (t : ℕ) :
    (log e t).Pairwise R := by
  induction t with
  | zero => exact List.Pairwise.nil
  | succ t ih =>
    rw [log_succ, List.pairwise_append]
    refine ⟨ih, ?_, ?_⟩
    · cases e t <;> simp
    · intro a ha b hb
      obtain ⟨u, hut, hu⟩ := mem_log.mp ha
      exact h u t a b hut hu (Option.mem_toList.mp hb)

/-- What no cycle without an event changes is the same until the next event. -/
theorem constant_of_none {β : Type*} {e : ℕ → Option α} {f : ℕ → β}
    (h : ∀ t, e t = none → f (t + 1) = f t) {u v : ℕ} (huv : u ≤ v)
    (hnone : ∀ w, u ≤ w → w < v → e w = none) : f v = f u := by
  induction v, huv using Nat.le_induction with
  | base => rfl
  | succ v huv ih =>
    rw [h v (hnone v huv (Nat.lt_succ_self v))]
    exact ih fun w hw hwv => hnone w hw (Nat.lt_succ_of_lt hwv)

/-- The first entry of a log is the event of some cycle before which there was none. -/
theorem log_head? {e : ℕ → Option α} {t : ℕ} {a : α} (h : (log e t).head? = some a) :
    ∃ u < t, e u = some a ∧ ∀ w < u, e w = none := by
  induction t with
  | zero => simp at h
  | succ t ih =>
    cases hl : log e t with
    | cons b bs =>
      rw [log_succ, hl, List.cons_append, List.head?_cons] at h
      obtain ⟨u, hut, hu⟩ := ih (by rw [hl, List.head?_cons, h])
      exact ⟨u, Nat.lt_succ_of_lt hut, hu⟩
    | nil =>
      rw [log_succ, hl, List.nil_append, Option.head?_toList] at h
      refine ⟨t, Nat.lt_succ_self t, h, fun w hw => ?_⟩
      by_contra hne
      obtain ⟨b, hb⟩ := Option.ne_none_iff_exists'.mp hne
      have hmem : b ∈ log e t := mem_log.mpr ⟨w, hw, hb⟩
      simp [hl] at hmem

/-- The event before which there were `k` others. -/
theorem exists_of_lt_length_log {e : ℕ → Option α} {t k : ℕ} (h : k < (log e t).length) :
    ∃ u < t, ∃ x, e u = some x ∧ (log e u).length = k := by
  induction t with
  | zero => exact absurd h (Nat.not_lt_zero k)
  | succ t ih =>
    by_cases hk : k < (log e t).length
    · obtain ⟨u, hu, hx⟩ := ih hk
      exact ⟨u, Nat.lt_succ_of_lt hu, hx⟩
    · cases he : e t with
      | none =>
        rw [log_succ_none he] at h
        exact absurd h hk
      | some x =>
        rw [log_succ_some he, List.length_append, List.length_singleton] at h
        exact ⟨t, Nat.lt_succ_self t, x, he, by omega⟩

/-- A log grows at its end. -/
theorem log_isPrefix_of_le (e : ℕ → Option α) {t u : ℕ} (h : t ≤ u) : log e t <+: log e u := by
  induction u, h using Nat.le_induction with
  | base => exact List.prefix_rfl
  | succ u _ ih =>
    rw [log_succ]
    exact ih.trans (List.prefix_append _ _)

theorem length_log_mono (e : ℕ → Option α) {t u : ℕ} (h : t ≤ u) :
    (log e t).length ≤ (log e u).length := (log_isPrefix_of_le e h).length_le

/-- The state of a sequential machine after `n` steps. -/
def after (next : A → ω × A) (a : A) : ℕ → A
  | 0 => a
  | n + 1 => (next (after next a n)).2

/-- The events of the first `n` steps of a sequential machine. -/
def trace (next : A → ω × A) (a : A) (n : ℕ) : List ω :=
  (List.range n).map fun k => (next (after next a k)).1

theorem trace_succ (next : A → ω × A) (a : A) (n : ℕ) :
    trace next a (n + 1) = trace next a n ++ [(next (after next a n)).1] := by
  simp [trace, List.range_succ]

theorem take_trace (next : A → ω × A) (a : A) {n m : ℕ} (h : n ≤ m) :
    (trace next a m).take n = trace next a n := by
  rw [trace, ← List.map_take, List.take_range, Nat.min_eq_left h, trace]

/-- Stuttering refinement: if each cycle either emits nothing and keeps the abstract state, or
emits the next event of the machine and moves it on, the log of the run is the trace of the
machine, and the relation holds with the state after as many steps as there were events. -/
theorem log_refines {next : A → ω × A} {a : A} {e : ℕ → Option ω} {R : ℕ → A → Prop}
    (h0 : R 0 a) (hstutter : ∀ t b, R t b → e t = none → R (t + 1) b)
    (hstep : ∀ t b w, R t b → e t = some w → w = (next b).1 ∧ R (t + 1) (next b).2) (t : ℕ) :
    log e t = trace next a (log e t).length ∧ R t (after next a (log e t).length) := by
  induction t with
  | zero => exact ⟨rfl, h0⟩
  | succ t ih =>
    obtain ⟨htrace, hR⟩ := ih
    cases he : e t with
    | none =>
      rw [log_succ_none he]
      exact ⟨htrace, hstutter t _ hR he⟩
    | some w =>
      obtain ⟨hw, hR'⟩ := hstep t _ w hR he
      rw [log_succ_some he, List.length_append, List.length_singleton, trace_succ, ← htrace, ← hw]
      exact ⟨rfl, hR'⟩

/-- As `log_refines`, with events that describe the outputs of the machine. -/
theorem log_simulates {β : Type*} {S : β → ω → Prop} (next : A → ω × A) {a : A}
    {e : ℕ → Option β} {R : ℕ → A → Prop} (h0 : R 0 a)
    (hstutter : ∀ t b, R t b → e t = none → R (t + 1) b)
    (hstep : ∀ t b w, R t b → e t = some w → S w (next b).1 ∧ R (t + 1) (next b).2) (t : ℕ) :
    List.Forall₂ S (log e t) (trace next a (log e t).length) ∧
      R t (after next a (log e t).length) := by
  induction t with
  | zero => exact ⟨List.Forall₂.nil, h0⟩
  | succ t ih =>
    obtain ⟨htrace, hR⟩ := ih
    cases he : e t with
    | none =>
      rw [log_succ_none he]
      exact ⟨htrace, hstutter t _ hR he⟩
    | some w =>
      obtain ⟨hw, hR'⟩ := hstep t _ w hR he
      rw [log_succ_some he, List.length_append, List.length_singleton, trace_succ]
      exact ⟨List.rel_append htrace (List.Forall₂.cons hw List.Forall₂.nil), hR'⟩

/-- The outputs of a machine for a list of inputs, and the state behind them. -/
def play (next : A → α → ω × A) : A → List α → List ω × A
  | a, [] => ([], a)
  | a, i :: is => ((next a i).1 :: (play next (next a i).2 is).1, (play next (next a i).2 is).2)

theorem play_append (next : A → α → ω × A) (a : A) (is js : List α) :
    play next a (is ++ js) = ((play next a is).1 ++ (play next (play next a is).2 js).1,
      (play next (play next a is).2 js).2) := by
  induction is generalizing a with
  | nil => rfl
  | cons i is ih => simp only [List.cons_append, play, ih]

theorem play_concat (next : A → α → ω × A) (a : A) (is : List α) (i : α) :
    play next a (is ++ [i]) = ((play next a is).1 ++ [(next (play next a is).2 i).1],
      (next (play next a is).2 i).2) := play_append next a is [i]

/-- A run whose events come with the inputs of a machine, and describe its outputs. -/
theorem log_plays {β : Type*} {S : β → ω → Prop} (next : A → α → ω × A) {a : A}
    {e : ℕ → Option (β × α)} {R : ℕ → A → Prop} (h0 : R 0 a)
    (hstutter : ∀ t b, R t b → e t = none → R (t + 1) b)
    (hstep : ∀ t b w i, R t b → e t = some (w, i) → S w (next b i).1 ∧ R (t + 1) (next b i).2)
    (t : ℕ) :
    List.Forall₂ S ((log e t).map Prod.fst) (play next a ((log e t).map Prod.snd)).1 ∧
      R t (play next a ((log e t).map Prod.snd)).2 := by
  induction t with
  | zero => exact ⟨List.Forall₂.nil, h0⟩
  | succ t ih =>
    obtain ⟨hplay, hR⟩ := ih
    cases he : e t with
    | none =>
      rw [log_succ_none he]
      exact ⟨hplay, hstutter t _ hR he⟩
    | some w =>
      obtain ⟨w, i⟩ := w
      obtain ⟨hw, hR'⟩ := hstep t _ w i hR he
      rw [log_succ_some he, List.map_append, List.map_append, List.map_singleton,
        List.map_singleton, play_concat]
      exact ⟨List.rel_append hplay (List.Forall₂.cons hw List.Forall₂.nil), hR'⟩

end Clocked
