import Icicle.Library.Clocked

/-! Bounded response: what holds in some cycle is followed by something else within a number
of cycles, unless something exceptional happens. -/
namespace Clocked

/-- Whenever `P` holds, `Q` or the exception `E` holds at most `n` cycles later. -/
def LeadsTo (E P Q : ℕ → Prop) (n : ℕ) : Prop :=
  ∀ t, P t → ∃ u, t ≤ u ∧ u ≤ t + n ∧ (Q u ∨ E u)

namespace LeadsTo
variable {E P Q R : ℕ → Prop} {n m : ℕ}

theorem refl (P : ℕ → Prop) : LeadsTo E P P 0 := fun t h => ⟨t, le_rfl, le_rfl, .inl h⟩

theorem trans (hpq : LeadsTo E P Q n) (hqr : LeadsTo E Q R m) : LeadsTo E P R (n + m) := by
  intro t ht
  obtain ⟨u, htu, hun, hu | hu⟩ := hpq t ht
  · obtain ⟨v, huv, hvm, hv⟩ := hqr u hu
    exact ⟨v, htu.trans huv, by omega, hv⟩
  · exact ⟨u, htu, by omega, .inr hu⟩

theorem mono (h : LeadsTo E P Q n) (hnm : n ≤ m) : LeadsTo E P Q m := by
  intro t ht
  obtain ⟨u, htu, hun, hu⟩ := h t ht
  exact ⟨u, htu, by omega, hu⟩

theorem of_step (h : ∀ t, P t → Q (t + 1)) : LeadsTo E P Q 1 :=
  fun t ht => ⟨t + 1, Nat.le_succ t, le_rfl, .inl (h t ht)⟩

/-- What waits for an end of `blocked`, which comes within `n` cycles. -/
theorem of_wait {blocked : ℕ → Prop} (hend : LeadsTo E (fun _ => True) (fun t => ¬ blocked t) n)
    (hstay : ∀ t, P t → blocked t → P (t + 1)) (hgo : ∀ t, P t → ¬ blocked t → Q (t + 1)) :
    LeadsTo E P Q (n + 1) := by
  intro t ht
  obtain ⟨v, htv, hvn, hv⟩ := hend t trivial
  by_contra hnone
  have hwait : ∀ w, t ≤ w → w ≤ v → P w := by
    intro w htw hwv
    induction w, htw using Nat.le_induction with
    | base => exact ht
    | succ w htw ih =>
      have hw := ih (by omega)
      refine hstay w hw (by_contra fun hb => hnone ?_)
      exact ⟨w + 1, by omega, by omega, .inl (hgo w hw hb)⟩
  rcases hv with hv | hv
  · exact hnone ⟨v + 1, by omega, by omega, .inl (hgo v (hwait v htv le_rfl) hv)⟩
  · exact hnone ⟨v, htv, by omega, .inr hv⟩

/-- A measure that falls until `Q` holds bounds the time that this takes. -/
theorem of_measure (f : ℕ → ℕ) (hstep : ∀ t, P t → Q t ∨ E t ∨ P (t + 1) ∧ f (t + 1) < f t)
    (hbound : ∀ t, f t ≤ n) : LeadsTo E P Q n := by
  have hall : ∀ k t, f t ≤ k → P t → ∃ u, t ≤ u ∧ u ≤ t + k ∧ (Q u ∨ E u) := by
    intro k
    induction k with
    | zero =>
      intro t hk ht
      rcases hstep t ht with hq | he | ⟨-, hlt⟩
      · exact ⟨t, le_rfl, le_rfl, .inl hq⟩
      · exact ⟨t, le_rfl, le_rfl, .inr he⟩
      · omega
    | succ k ih =>
      intro t hk ht
      rcases hstep t ht with hq | he | ⟨ht', hlt⟩
      · exact ⟨t, le_rfl, by omega, .inl hq⟩
      · exact ⟨t, le_rfl, by omega, .inr he⟩
      · obtain ⟨u, htu, huk, hu⟩ := ih (t + 1) (by omega) ht'
        exact ⟨u, by omega, by omega, hu⟩
  exact fun t ht => hall n t (hbound t) ht

/-- Events that follow each other within `n` cycles are as many as there is time for. -/
theorem length_log_add {α : Type*} {e : ℕ → Option α}
    (h : LeadsTo E (fun _ => True) (fun t => e t ≠ none) n) (t : ℕ) {k : ℕ}
    (hE : ∀ u, t ≤ u → u < t + k * (n + 1) → ¬ E u) :
    (log e t).length + k ≤ (log e (t + k * (n + 1))).length := by
  induction k with
  | zero => rw [Nat.zero_mul]; exact le_rfl
  | succ k ih =>
    have hsucc : (k + 1) * (n + 1) = k * (n + 1) + (n + 1) := Nat.succ_mul _ _
    obtain ⟨u, hku, hun, hu⟩ := h (t + k * (n + 1)) trivial
    have hu' : e u ≠ none := hu.resolve_right (hE u (by omega) (by omega))
    obtain ⟨a, ha⟩ := Option.ne_none_iff_exists'.mp hu'
    have hlast : (log e (u + 1)).length ≤ _ :=
      length_log_mono e (u := t + (k + 1) * (n + 1)) (by omega)
    rw [log_succ_some ha, List.length_append, List.length_singleton] at hlast
    have hbefore := length_log_mono e hku
    have hk := ih fun u htu hu => hE u htu (by omega)
    omega

theorem length_log {α : Type*} {e : ℕ → Option α}
    (h : LeadsTo E (fun _ => True) (fun t => e t ≠ none) n) {k : ℕ}
    (hE : ∀ t, t < k * (n + 1) → ¬ E t) : k ≤ (log e (k * (n + 1))).length := by
  have hlog := h.length_log_add 0 (k := k) fun u _ hu => hE u (by omega)
  rwa [Nat.zero_add, log_zero, List.length_nil, Nat.zero_add] at hlog

end LeadsTo
end Clocked
