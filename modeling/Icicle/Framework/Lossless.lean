import Icicle.Library.Clocked
import Icicle.Framework.Pipeline

/-! Runs of a pipeline. The last stage accepts the tokens that the first one issued,
in the same order, without those that were flushed. -/
namespace Icicle
namespace Pipeline

variable {α : Type*}

/-- In this cycle no stage is flushed, or exactly those behind the first one and before
stage `k`, which is not stalled. -/
def FlushesFront (c : ℕ → Sources) (os : List (Token α)) : Prop :=
  (∀ j ≤ os.length, reduceOr (c j).flushSources = false) ∨
    ∃ k ≤ os.length, (∀ j ≤ os.length, reduceOr (c j).flushSources = decide (1 ≤ j ∧ j < k)) ∧
      (stage c .valid os k).stall = false

theorem stage_zero (c : ℕ → Sources) (i : State) (os : List (Token α)) :
    stage c i os 0 = head c i os := by cases os <;> rfl

theorem stage_flush {c : ℕ → Sources} {i : State} {os : List (Token α)} {j : ℕ}
    (hj : j ≤ os.length) : (stage c i os j).flush = reduceOr (c j).flushSources := by
  induction j generalizing c i os with
  | zero => rw [stage_zero, Stage.flush, head_toSources]
  | succ j ih =>
    cases os with
    | nil => simp at hj
    | cons o os => exact ih (Nat.le_of_succ_le_succ hj)

theorem releases_of_stages {c : ℕ → Sources} {i : State} {os : List (Token α)}
    (h : ∀ j < os.length, (stage c i os j).flush = true → (stage c i os (j + 1)).stall = false)
    (hlast : (stage c i os os.length).flush = false) : Releases c i os := by
  induction os generalizing c i with
  | nil => exact hlast
  | cons o os ih =>
    refine ⟨fun hf => ?_, ih (fun j hj => h (j + 1) (Nat.succ_lt_succ hj)) hlast⟩
    rw [← stage_zero]
    exact h 0 (Nat.succ_pos _) hf

/-- Flushes from the front release every flushed stage, and never hit the first one. -/
theorem FlushesFront.releases {c : ℕ → Sources} {os : List (Token α)} (h : FlushesFront c os) :
    Releases c .valid os ∧ (head c .valid os).flush = false := by
  rw [← stage_zero, stage_flush (Nat.zero_le _)]
  rcases h with h | ⟨k, hk, hf, hstall⟩
  · refine ⟨releases_of_stages (fun j hj hfj => ?_) ?_, h 0 (Nat.zero_le _)⟩
    · rw [stage_flush hj.le, h j hj.le] at hfj
      cases hfj
    · rw [stage_flush le_rfl, h _ le_rfl]
  · refine ⟨releases_of_stages (fun j hj hfj => ?_) ?_, by simp [hf 0 (Nat.zero_le _)]⟩
    · rw [stage_flush hj.le, hf j hj.le, decide_eq_true_iff] at hfj
      rcases Nat.lt_or_ge (j + 1) k with hlt | hge
      · apply Stage.stall_of_flush
        rw [stage_flush hj, hf _ hj, decide_eq_true_iff]
        omega
      · obtain rfl : j + 1 = k := by omega
        exact hstall
    · rw [stage_flush le_rfl, hf _ le_rfl, decide_eq_false_iff_not]
      omega

/-- A pipeline with `n` registers; in every cycle it reads the sources of its stages
and the tag that the first stage fills in. -/
def circuit (n : ℕ) (a : α) : Clocked ((ℕ → Sources) × α) (List (Token α)) where
  reset := List.replicate n ⟨.bubble, a⟩
  step os x := step x.1 ⟨.valid, x.2⟩ os

section Run
variable (n : ℕ) (src : ℕ → ℕ → Sources) (fill : ℕ → α) (a : α)

/-- The registers at the start of cycle `t`. -/
def regsAt (t : ℕ) : List (Token α) := (circuit n a).run (fun u => (src u, fill u)) t

/-- The tokens that the last stage accepts before cycle `t`. -/
def deliveredBefore (t : ℕ) : List (Token α) :=
  (List.range t).flatMap fun u => delivered (src u) ⟨.valid, fill u⟩ (regsAt n src fill a u)

/-- A token is known by the cycle in which it was issued: this is the tag when the
first stage fills in the number of the cycle. -/
abbrev idsAt (t : ℕ) : List (Token ℕ) := regsAt n src id 0 t

/-- The cycles before `t` in which the first stage issues a token. -/
def issuedBefore (t : ℕ) : List ℕ :=
  (List.range t).filter fun u => !(head (src u) .valid (idsAt n src u)).stall

/-- The tokens at the input of a flushed stage in a cycle before `t`. -/
def squashedBefore (t : ℕ) : List ℕ :=
  (List.range t).flatMap fun u => squashed (src u) (idsAt n src u)

/-- The tokens that a stage before the last one issued or accepted, in a cycle before
`t`, while a trap source of that stage was set. -/
def trapHitsBefore (t : ℕ) : List ℕ :=
  (List.range t).flatMap fun u => trapHits (src u) ⟨.valid, u⟩ (idsAt n src u)

/-- The tokens in the registers at the start of cycle `t`. -/
def inFlight (t : ℕ) : List ℕ := tags (tokens (idsAt n src t))

variable {n src fill a}

theorem deliveredBefore_succ (t : ℕ) : deliveredBefore n src fill a (t + 1) =
    deliveredBefore n src fill a t ++
      delivered (src t) ⟨.valid, fill t⟩ (regsAt n src fill a t) := by
  simp [deliveredBefore, List.range_succ]

theorem issuedBefore_succ (t : ℕ) : issuedBefore n src (t + 1) = issuedBefore n src t ++
    if (head (src t) .valid (idsAt n src t)).stall then [] else [t] := by
  simp only [issuedBefore, List.range_succ, List.filter_append]
  cases h : (head (src t) .valid (idsAt n src t)).stall <;> simp [h]

theorem squashedBefore_succ (t : ℕ) : squashedBefore n src (t + 1) =
    squashedBefore n src t ++ squashed (src t) (idsAt n src t) := by
  simp [squashedBefore, List.range_succ]

theorem trapHitsBefore_succ (t : ℕ) : trapHitsBefore n src (t + 1) =
    trapHitsBefore n src t ++ trapHits (src t) ⟨.valid, t⟩ (idsAt n src t) := by
  simp [trapHitsBefore, List.range_succ]

theorem issuedBefore_nodup (t : ℕ) : (issuedBefore n src t).Nodup :=
  List.nodup_range.filter _

theorem lt_of_mem_issuedBefore {t x : ℕ} (h : x ∈ issuedBefore n src t) : x < t :=
  List.mem_range.mp (List.mem_filter.mp h).1

theorem inFlight_zero : inFlight n src 0 = [] := by
  have h : ∀ m : ℕ, tokens (List.replicate m (⟨.bubble, 0⟩ : Token ℕ)) = [] := by
    intro m
    induction m with
    | zero => rfl
    | succ m ih => simp [List.replicate_succ, tokens, ih]
  unfold inFlight idsAt
  rw [show regsAt n src id 0 0 = List.replicate n ⟨.bubble, 0⟩ from rfl, h]
  rfl

/-- The tokens that were delivered or are in flight are those that were issued and not flushed. -/
theorem delivered_append_inFlight (h : ∀ t, FlushesFront (src t) (idsAt n src t)) (t : ℕ) :
    tags (deliveredBefore n src id 0 t) ++ inFlight n src t =
      (issuedBefore n src t).filter (fun x => x ∉ squashedBefore n src t) ∧
    ∀ x ∈ squashedBefore n src t, x < t := by
  induction t with
  | zero => exact ⟨by rw [inFlight_zero]; rfl, fun x hx => absurd hx List.not_mem_nil⟩
  | succ t ih =>
    obtain ⟨ih, hlt⟩ := ih
    obtain ⟨hrel, hf⟩ := (h t).releases
    have hall : ∀ x ∈ tags (deliveredBefore n src id 0 t) ++ inFlight n src t, x < t := by
      intro x hx
      rw [ih] at hx
      exact lt_of_mem_issuedBefore (List.mem_filter.mp hx).1
    have hnodup : (tags (deliveredBefore n src id 0 t) ++ inFlight n src t).Nodup := by
      rw [ih]
      exact (issuedBefore_nodup t).filter _
    have hsq : ∀ x ∈ squashed (src t) (idsAt n src t), x ∈ inFlight n src t := fun x hx =>
      squashed_subset hx
    have hsqlt : ∀ x ∈ squashedBefore n src (t + 1), x < t := by
      intro x hx
      rw [squashedBefore_succ] at hx
      rcases List.mem_append.mp hx with hx | hx
      · exact hlt x hx
      · exact hall x (List.mem_append_right _ (hsq x hx))
    refine ⟨?_, fun x hx => Nat.lt_succ_of_lt (hsqlt x hx)⟩
    have hcycle := delivered_append_tokens (i := ⟨.valid, t⟩) hrel
    have henter : entering (src t) (⟨.valid, t⟩ : Token ℕ) (idsAt n src t) =
        if (head (src t) .valid (idsAt n src t)).stall then [] else [t] := by
      simp [entering, hf, slot]
    obtain ⟨-, hflight, hdis⟩ := List.nodup_append.mp hnodup
    rw [kept_eq_filter hflight, henter] at hcycle
    have hold : tags (deliveredBefore n src id 0 t) ++ (inFlight n src t).filter
        (fun x => x ∉ squashed (src t) (idsAt n src t)) =
        ((issuedBefore n src t).filter fun x => x ∉ squashedBefore n src t).filter
          fun x => x ∉ squashed (src t) (idsAt n src t) := by
      rw [← ih, List.filter_append]
      congr 1
      refine (List.filter_eq_self.mpr fun x hx => ?_).symm
      simpa using fun hs => hdis x hx x (hsq x hs) rfl
    calc tags (deliveredBefore n src id 0 (t + 1)) ++ inFlight n src (t + 1)
        = tags (deliveredBefore n src id 0 t) ++
            (tags (delivered (src t) ⟨.valid, t⟩ (idsAt n src t)) ++
              tags (tokens (step (src t) ⟨.valid, t⟩ (idsAt n src t)))) := by
          rw [deliveredBefore_succ, tags, List.map_append, List.append_assoc]
          rfl
      _ = ((issuedBefore n src t).filter fun x => x ∉ squashedBefore n src t).filter
            (fun x => x ∉ squashed (src t) (idsAt n src t)) ++
            if (head (src t) .valid (idsAt n src t)).stall then [] else [t] := by
          rw [hcycle, ← List.append_assoc, ← hold]
          rfl
      _ = (issuedBefore n src (t + 1)).filter fun x => x ∉ squashedBefore n src (t + 1) := by
          rw [issuedBefore_succ, List.filter_append, List.filter_filter]
          congr 1
          · refine List.filter_congr fun x _ => ?_
            simp only [squashedBefore_succ, List.mem_append, not_or, Bool.decide_and]
            rw [Bool.and_comm]
          · refine (List.filter_eq_self.mpr fun x hx => ?_).symm
            split at hx
            · cases hx
            · rw [List.mem_singleton] at hx
              simpa using fun hs => absurd (hsqlt x hs) (by omega)

/-- The consequences for one cycle: the tokens before it and the issued one are distinct. -/
theorem ids_nodup (h : ∀ t, FlushesFront (src t) (idsAt n src t)) (t : ℕ) :
    (tags (deliveredBefore n src id 0 t) ++ inFlight n src t).Nodup ∧
    (∀ x ∈ tags (deliveredBefore n src id 0 t) ++ inFlight n src t, x < t) ∧
    (tags (tokens ((⟨.valid, t⟩ : Token ℕ) :: idsAt n src t))).Nodup := by
  obtain ⟨heq, -⟩ := delivered_append_inFlight h t
  have hnodup : (tags (deliveredBefore n src id 0 t) ++ inFlight n src t).Nodup := by
    rw [heq]
    exact (issuedBefore_nodup t).filter _
  have hlt : ∀ x ∈ tags (deliveredBefore n src id 0 t) ++ inFlight n src t, x < t := by
    intro x hx
    rw [heq] at hx
    exact lt_of_mem_issuedBefore (List.mem_filter.mp hx).1
  refine ⟨hnodup, hlt, ?_⟩
  rw [tags_tokens_cons, List.nodup_append]
  refine ⟨(List.nodup_append.mp hnodup).2.1, by simp [slot], fun x hx y hy => ?_⟩
  have hxt := hlt x (List.mem_append_right _ hx)
  have hyt := (mem_slot.mp hy).2
  dsimp only at hyt
  omega

theorem trapHitsBefore_lt (h : ∀ t, FlushesFront (src t) (idsAt n src t)) {t x : ℕ}
    (hx : x ∈ trapHitsBefore n src t) : x < t := by
  obtain ⟨u, hu, hmem⟩ := List.mem_flatMap.mp hx
  have hut := List.mem_range.mp hu
  have hin := trapHits_subset hmem
  rw [tags_tokens_cons] at hin
  rcases List.mem_append.mp hin with hin | hin
  · have := (ids_nodup h u).2.1 x (List.mem_append_right _ hin)
    omega
  · have := (mem_slot.mp hin).2
    dsimp only at this
    omega

/-- What is in the registers, or issued in the cycle, is a trap exactly if it met a
trap source before. -/
theorem tokens_trap_iff (h : ∀ t, FlushesFront (src t) (idsAt n src t)) (t : ℕ) :
    ∀ y ∈ tokens ((⟨.valid, t⟩ : Token ℕ) :: idsAt n src t),
      (y.state = .trap ↔ y.tag ∈ trapHitsBefore n src t) := by
  have hissued : ∀ (t : ℕ) (y : Token ℕ), y = ⟨.valid, t⟩ →
      (y.state = .trap ↔ y.tag ∈ trapHitsBefore n src t) := by
    rintro t y rfl
    simpa using fun hx => lt_irrefl _ (trapHitsBefore_lt h hx)
  have hregs : ∀ t, ∀ y ∈ tokens (idsAt n src t),
      (y.state = .trap ↔ y.tag ∈ trapHitsBefore n src t) := by
    intro t
    induction t with
    | zero =>
      intro y hy
      have hnil := @inFlight_zero n src
      unfold inFlight at hnil
      rw [tags, List.map_eq_nil_iff] at hnil
      rw [hnil] at hy
      cases hy
    | succ t ih =>
      intro y hy
      obtain ⟨y₀, hy₀, htag, hiff⟩ := trap_step (ids_nodup h t).2.2 hy
      rw [hiff, trapHitsBefore_succ, List.mem_append, ← htag]
      unfold tokens at hy₀
      rcases List.mem_append.mp hy₀ with hy₀ | hy₀
      · rw [ih y₀ hy₀]
      · rw [hissued t y₀ (by simpa using hy₀)]
  intro y hy
  unfold tokens at hy
  rcases List.mem_append.mp hy with hy | hy
  · exact hregs t y hy
  · exact hissued t y (by simpa using hy)

/-- A delivered token is a trap exactly if it met a trap source at all. -/
theorem delivered_trap_iff (h : ∀ t, FlushesFront (src t) (idsAt n src t)) (t : ℕ) :
    ∀ y ∈ deliveredBefore n src id 0 t, y.state ≠ .bubble ∧
      (y.state = .trap ↔ y.tag ∈ trapHitsBefore n src t) := by
  induction t with
  | zero => intro y hy; cases hy
  | succ t ih =>
    obtain ⟨hnodup, hlt, hcycle⟩ := ids_nodup h t
    intro y hy
    rw [deliveredBefore_succ] at hy
    rcases List.mem_append.mp hy with hy | hy
    · obtain ⟨hb, hiff⟩ := ih y hy
      refine ⟨hb, ?_⟩
      have hmem : y.tag ∈ tags (deliveredBefore n src id 0 t) := List.mem_map_of_mem hy
      have hnot : y.tag ∉ trapHits (src t) ⟨.valid, t⟩ (idsAt n src t) := by
        intro hx
        have hin := trapHits_subset hx
        rw [tags_tokens_cons] at hin
        rcases List.mem_append.mp hin with hin | hin
        · exact (List.nodup_append.mp hnodup).2.2 _ hmem _ hin rfl
        · have hyt := hlt _ (List.mem_append_left _ hmem)
          have := (mem_slot.mp hin).2
          dsimp only at this
          omega
      rw [hiff, trapHitsBefore_succ, List.mem_append, or_iff_left hnot]
    · have hin := delivered_subset hy
      have hnot := delivered_not_trapHits hcycle hy
      refine ⟨(mem_tokens.mp hin).2, ?_⟩
      rw [tokens_trap_iff h t y hin, trapHitsBefore_succ, List.mem_append, or_iff_left hnot]

/-- The same token under another tag; the tag of a bubble has no meaning. -/
def Follows (fill : ℕ → α) (r : Token α) (d : Token ℕ) : Prop :=
  r.state = d.state ∧ (d.state ≠ .bubble → r.tag = fill d.tag)

theorem head_follows {c : ℕ → Sources} {i : State} {rs : List (Token α)} {ds : List (Token ℕ)}
    (h : List.Forall₂ (Follows fill) rs ds) : head c i rs = head c i ds := by
  induction h generalizing c i with
  | nil => rfl
  | cons hrd _ ih => rw [head, head, hrd.1, ih]

/-- The tags have no influence on the states. -/
theorem step_follows {c : ℕ → Sources} {r : Token α} {d : Token ℕ} {rs : List (Token α)}
    {ds : List (Token ℕ)} (hi : Follows fill r d) (h : List.Forall₂ (Follows fill) rs ds) :
    List.Forall₂ (Follows fill) (step c r rs) (step c d ds) ∧
      List.Forall₂ (Follows fill) (delivered c r rs) (delivered c d ds) := by
  induction h generalizing c r d with
  | nil =>
    refine ⟨List.Forall₂.nil, ?_⟩
    have hh : head c r.state ([] : List (Token α)) = head c d.state ([] : List (Token ℕ)) := by
      rw [hi.1]; rfl
    rw [delivered, delivered, hh, hi.1]
    split
    · exact List.Forall₂.nil
    · exact List.Forall₂.cons hi List.Forall₂.nil
  | @cons ro o ros os ho htail ih =>
    obtain ⟨hstep, hdel⟩ := ih (c := later c) ho
    have hh : head c r.state (ro :: ros) = head c d.state (o :: os) := by
      rw [hi.1]
      exact head_follows (List.Forall₂.cons ho htail)
    refine ⟨?_, hdel⟩
    rw [step, step, hh]
    refine List.Forall₂.cons ⟨by rw [ho.1], fun hb => ?_⟩ hstep
    dsimp only at hb ⊢
    set s := head c d.state (o :: os) with hs
    cases hst : s.stall with
    | true =>
      have hns : s.nextStall = true := by
        by_contra hn
        exact hb (Stage.oState_drains _ hst (eq_false_of_ne_true hn))
      rw [Stage.oState_holds _ hst hns] at hb
      simpa using ho.2 hb
    | false =>
      have hf : s.flush = false := by
        by_contra hf
        exact hb (Stage.oState_flush _ (eq_true_of_ne_false hf))
      rw [Stage.oState_moves _ hst hf, Ne, Stage.passed_eq_bubble_iff, hs, head_iState] at hb
      simpa using hi.2 hb

theorem run_follows (t : ℕ) :
    List.Forall₂ (Follows fill) (regsAt n src fill a t) (idsAt n src t) ∧
      List.Forall₂ (Follows fill) (deliveredBefore n src fill a t)
        (deliveredBefore n src id 0 t) := by
  induction t with
  | zero =>
    refine ⟨?_, List.Forall₂.nil⟩
    have h : ∀ m, List.Forall₂ (Follows fill) (List.replicate m ⟨.bubble, a⟩)
        (List.replicate m ⟨.bubble, 0⟩) := by
      intro m
      induction m with
      | zero => exact List.Forall₂.nil
      | succ m ih => exact List.Forall₂.cons ⟨rfl, fun hb => absurd rfl hb⟩ ih
    exact h n
  | succ t ih =>
    have hi : Follows fill (⟨.valid, fill t⟩ : Token α) ⟨.valid, t⟩ := ⟨rfl, fun _ => rfl⟩
    obtain ⟨hstep, hdel⟩ := step_follows (c := src t) hi ih.1
    rw [deliveredBefore_succ, deliveredBefore_succ]
    exact ⟨hstep, List.rel_append ih.2 hdel⟩

theorem stage_follows {c : ℕ → Sources} {i : State} {rs : List (Token α)} {ds : List (Token ℕ)}
    (h : List.Forall₂ (Follows fill) rs ds) (k : ℕ) : stage c i rs k = stage c i ds k := by
  induction h generalizing c i k with
  | nil => rfl
  | @cons r d rs ds hrd htail ih =>
    cases k with
    | zero => exact head_follows (List.Forall₂.cons hrd htail)
    | succ k => rw [stage, stage, hrd.1, ih]

theorem FlushesFront.follows {c : ℕ → Sources} {rs : List (Token α)} {ds : List (Token ℕ)}
    (h : FlushesFront c rs) (hf : List.Forall₂ (Follows fill) rs ds) : FlushesFront c ds := by
  unfold FlushesFront
  rw [← hf.length_eq]
  refine h.imp_right fun ⟨k, hk, hflush, hstall⟩ => ⟨k, hk, hflush, ?_⟩
  rwa [← stage_follows hf]

/-- A pipeline is lossless: the last stage accepts exactly the issued tokens that were
neither flushed nor are still in flight, in the order and with the tags with which
they were issued, and each as a trap if and only if some stage before the last had a
trap source set when it issued or accepted the token. -/
theorem lossless (n : ℕ) (src : ℕ → ℕ → Sources) (fill : ℕ → α) (a : α)
    (hflush : ∀ t, FlushesFront (src t) (regsAt n src fill a t)) (t : ℕ) :
    deliveredBefore n src fill a t =
      ((issuedBefore n src t).filter fun x =>
        x ∉ squashedBefore n src t ∧ x ∉ inFlight n src t).map fun x =>
          ⟨if x ∈ trapHitsBefore n src t then .trap else .valid, fill x⟩ := by
  have h : ∀ t, FlushesFront (src t) (idsAt n src t) := fun t =>
    (hflush t).follows (run_follows t).1
  obtain ⟨heq, -⟩ := delivered_append_inFlight h t
  have hnodup := (ids_nodup h t).1
  have htags : tags (deliveredBefore n src id 0 t) = (issuedBefore n src t).filter fun x =>
      x ∉ squashedBefore n src t ∧ x ∉ inFlight n src t := by
    have hfilter := congrArg (List.filter fun x => x ∉ inFlight n src t) heq
    rw [List.filter_append, List.filter_filter] at hfilter
    have hself : (tags (deliveredBefore n src id 0 t)).filter (fun x => x ∉ inFlight n src t) =
        tags (deliveredBefore n src id 0 t) := by
      refine List.filter_eq_self.mpr fun x hx => ?_
      simpa using fun hs => (List.nodup_append.mp hnodup).2.2 x hx x hs rfl
    have hnone : (inFlight n src t).filter (fun x => x ∉ inFlight n src t) = [] := by
      refine List.filter_eq_nil_iff.mpr fun x hx => ?_
      simpa using hx
    rw [hself, hnone, List.append_nil] at hfilter
    rw [hfilter]
    refine List.filter_congr fun x _ => ?_
    rw [Bool.decide_and, Bool.and_comm]
  rw [← htags, tags, List.map_map]
  have hrel := (@run_follows α n src fill a t).2
  have htrap := delivered_trap_iff h t
  revert htrap
  generalize deliveredBefore n src id 0 t = ds at hrel
  generalize deliveredBefore n src fill a t = rs at hrel
  intro htrap
  induction hrel with
  | nil => rfl
  | @cons r d rs ds hrd _ ih =>
    rw [List.map_cons, ← ih fun y hy => htrap y (List.mem_cons_of_mem _ hy)]
    obtain ⟨hb, hiff⟩ := htrap d List.mem_cons_self
    obtain ⟨hstate, htag⟩ := hrd
    have hr : r = ⟨if d.tag ∈ trapHitsBefore n src t then .trap else .valid, fill d.tag⟩ := by
      rw [← htag hb]
      split
      next hx => rw [← hiff.mpr hx, ← hstate]
      next hx =>
        have hv : d.state = .valid := by
          cases hs : d.state with
          | bubble => exact absurd hs hb
          | valid => rfl
          | trap => exact absurd (hiff.mp hs) hx
        rw [← hv, ← hstate]
    rw [hr]
    rfl

/-- Three stages; the middle one is flushed in cycle 2, the first one traps in cycle 4. -/
def flushAndTrap (t j : ℕ) : Sources where
  flushSources := [t == 2 && j == 1]
  trapSources := [t == 4 && j == 0]

theorem flushAndTrap_lossless :
    deliveredBefore 2 flushAndTrap (10 * ·) 0 7 =
      [⟨.valid, 0⟩, ⟨.valid, 20⟩, ⟨.valid, 30⟩, ⟨.trap, 40⟩] := by
  have hflush : ∀ t, FlushesFront (flushAndTrap t) (regsAt 2 flushAndTrap (10 * ·) 0 t) := by
    intro t
    by_cases ht : t = 2
    · subst ht
      exact .inr ⟨2, by decide, by decide, by decide⟩
    · exact .inl fun j _ => by simp [flushAndTrap, ht]
  rw [lossless 2 flushAndTrap (10 * ·) 0 hflush 7]
  decide

end Run
end Pipeline
end Icicle
