import Icicle.Framework.Stage

/-! A pipeline of any number of stages, as `Pipeline.elaborate` connects them, and
what one clock cycle does to the tokens in it. -/
namespace Icicle

/-- The state of a pipeline register and one field that all its layouts share. -/
structure Token (α : Type*) where
  state : State
  tag : α
  deriving DecidableEq

variable {α : Type*}

/-- The tag of a register, if it holds a token. -/
def slot (state : State) (tag : α) : List α := if state = .bubble then [] else [tag]

@[simp] theorem slot_bubble (tag : α) : slot .bubble tag = [] := rfl

theorem slot_congr {st st' : State} (h : st = .bubble ↔ st' = .bubble) (tag : α) :
    slot st tag = slot st' tag := by
  simp only [slot, h]

theorem mem_slot {st : State} {tag x : α} : x ∈ slot st tag ↔ st ≠ .bubble ∧ x = tag := by
  unfold slot
  split <;> simp_all

/-- The sources of the stages behind the first one. -/
def later (c : ℕ → Sources) : ℕ → Sources := fun j => c (j + 1)

namespace Pipeline

/-- The first stage: `next_stall` is the `stall` of the stage behind it. A pipeline whose first
stage sees the state `i` has one output register for each stage but the last; `c` gives the
sources of the stages in the cycle, the first stage being number 0. -/
def head (c : ℕ → Sources) (i : State) : List (Token α) → Stage
  | [] => { c 0 with iState := i }
  | o :: os => { c 0 with iState := i, nextStall := (head (later c) o.state os).stall }

/-- The stage with the given number. -/
def stage (c : ℕ → Sources) (i : State) : List (Token α) → ℕ → Stage
  | o :: os, j + 1 => stage (later c) o.state os j
  | os, _ => head c i os

/-- The output registers after the cycle; common fields are copied from the input. -/
def step (c : ℕ → Sources) (i : Token α) : List (Token α) → List (Token α)
  | [] => []
  | o :: os =>
    let s := head c i.state (o :: os)
    { state := s.oState o.state, tag := if !s.stall then i.tag else o.tag } ::
      step (later c) o os

/-- The tokens in the registers, oldest first. -/
def tokens : List (Token α) → List (Token α)
  | [] => []
  | o :: os => tokens os ++ if o.state = .bubble then [] else [o]

/-- What the last stage accepts: its input while it is not stalled. -/
def delivered (c : ℕ → Sources) (i : Token α) : List (Token α) → List (Token α)
  | [] => if (head c i.state ([] : List (Token α))).stall || i.state == .bubble then [] else [i]
  | o :: os => delivered (later c) o os

/-- The tags at the inputs of flushed stages, the first stage left out. -/
def squashed (c : ℕ → Sources) : List (Token α) → List α
  | [] => []
  | o :: os =>
    squashed (later c) os ++
      if (head (later c) o.state os).flush then slot o.state o.tag else []

/-- The tags of the tokens that some stage before the last one accepts, or issues,
in a cycle in which a trap source of that stage is set. -/
def trapHits (c : ℕ → Sources) (i : Token α) : List (Token α) → List α
  | [] => []
  | o :: os =>
    trapHits (later c) o os ++
      let s := head c i.state (o :: os)
      if !s.stall && !s.flush && reduceOr (c 0).trapSources then slot i.state i.tag else []

def tags (ts : List (Token α)) : List α := ts.map Token.tag

/-- The tag of the input of the first stage, if that stage takes it over. -/
def entering (c : ℕ → Sources) (i : Token α) (os : List (Token α)) : List α :=
  let s := head c i.state os
  if s.stall || s.flush then [] else slot i.state i.tag

/-- The tags in the registers that are not at the input of a flushed stage. -/
def kept (c : ℕ → Sources) : List (Token α) → List α
  | [] => []
  | o :: os =>
    kept (later c) os ++ if (head (later c) o.state os).flush then [] else slot o.state o.tag

/-- A flushed stage has a successor, which is not stalled. -/
def Releases (c : ℕ → Sources) (i : State) : List (Token α) → Prop
  | [] => (head c i ([] : List (Token α))).flush = false
  | o :: os =>
    ((head c i (o :: os)).flush = true → (head (later c) o.state os).stall = false) ∧
      Releases (later c) o.state os

@[simp] theorem head_iState (c : ℕ → Sources) (i : State) (os : List (Token α)) :
    (head c i os).iState = i := by cases os <;> rfl

@[simp] theorem head_toSources (c : ℕ → Sources) (i : State) (os : List (Token α)) :
    (head c i os).toSources = c 0 := by cases os <;> rfl

theorem tags_tokens_cons (o : Token α) (os : List (Token α)) :
    tags (tokens (o :: os)) = tags (tokens os) ++ slot o.state o.tag := by
  simp only [tags, tokens, List.map_append, slot]
  split <;> rfl

theorem mem_tokens {o : Token α} {os : List (Token α)} :
    o ∈ tokens os ↔ o ∈ os ∧ o.state ≠ .bubble := by
  induction os with
  | nil => simp [tokens]
  | cons p os ih =>
    unfold tokens
    rw [List.mem_append, ih, List.mem_cons]
    split
    next hb => aesop
    next hb => aesop

/-- A cycle loses no token: what the last stage accepts and the registers hold after
it are the tokens that were not flushed and the one that entered, in this order. -/
theorem delivered_append_tokens {c : ℕ → Sources} {i : Token α} {os : List (Token α)}
    (h : Releases c i.state os) :
    tags (delivered c i os) ++ tags (tokens (step c i os)) = kept c os ++ entering c i os := by
  induction os generalizing c i with
  | nil =>
    have hf : (head c i.state ([] : List (Token α))).flush = false := h
    simp only [delivered, tokens, step, kept, entering, hf, Bool.or_false, tags, slot]
    cases hs : (head c i.state ([] : List (Token α))).stall <;> cases hi : i.state <;> simp
  | cons o os ih =>
    obtain ⟨hrel, htail⟩ := h
    set s := head c i.state (o :: os) with hsdef
    set s' := head (later c) o.state os with hs'def
    have hnext : s.nextStall = s'.stall := rfl
    have hstep : tags (tokens (step c i (o :: os))) = tags (tokens (step (later c) o os)) ++
        slot (s.oState o.state) (if !s.stall then i.tag else o.tag) := tags_tokens_cons _ _
    have hent : entering (later c) o os =
        if s'.stall || s'.flush then [] else slot o.state o.tag := rfl
    -- the token that entered the tail and the new register hold what they should
    have hlocal : entering (later c) o os ++
        slot (s.oState o.state) (if !s.stall then i.tag else o.tag) =
        (if s'.flush then [] else slot o.state o.tag) ++ entering c i (o :: os) := by
      have hself : entering c i (o :: os) =
        if s.stall || s.flush then [] else slot i.state i.tag := rfl
      rw [hent, hself]
      cases hf : s.flush with
      | true =>
        have hst : s'.stall = false := hrel hf
        rw [Stage.oState_flush _ hf, hst]
        cases s'.flush <;> simp
      | false =>
        cases hst : s.stall with
        | true =>
          cases hst' : s'.stall with
          | true =>
            have hf' : s'.flush = false := Stage.flush_of_stall hst'
            rw [Stage.oState_holds _ hst (hnext.trans hst'), hf']
            simp
          | false =>
            rw [Stage.oState_drains _ hst (hnext.trans hst')]
            cases s'.flush <;> simp
        | false =>
          have hst' : s'.stall = false := by
            rw [← hnext]
            exact Stage.nextStall_of_not_stall hst hf
          have hp : s.passed = .bubble ↔ i.state = .bubble := by
            rw [Stage.passed_eq_bubble_iff, hsdef, head_iState]
          rw [Stage.oState_moves _ hst hf, hst', slot_congr hp]
          cases s'.flush <;> simp
    rw [delivered, hstep, ← List.append_assoc, ih htail, List.append_assoc, hlocal, kept,
      List.append_assoc]

theorem squashed_subset {c : ℕ → Sources} {os : List (Token α)} {x : α}
    (h : x ∈ squashed c os) : x ∈ tags (tokens os) := by
  induction os generalizing c with
  | nil => cases h
  | cons o os ih =>
    rw [tags_tokens_cons]
    rcases List.mem_append.mp h with hx | hx
    · exact List.mem_append_left _ (ih hx)
    · split at hx
      · exact List.mem_append_right _ hx
      · cases hx

/-- Tokens whose tags are distinct are kept exactly if they are not flushed. -/
theorem kept_eq_filter [DecidableEq α] {c : ℕ → Sources} {os : List (Token α)}
    (h : (tags (tokens os)).Nodup) :
    kept c os = (tags (tokens os)).filter fun x => x ∉ squashed c os := by
  induction os generalizing c with
  | nil => rfl
  | cons o os ih =>
    rw [tags_tokens_cons, List.nodup_append] at h
    obtain ⟨htail, -, hdis⟩ := h
    unfold kept
    rw [ih htail, tags_tokens_cons, List.filter_append, squashed]
    congr 1
    · refine List.filter_congr fun x hx => ?_
      have hne : x ∉ slot o.state o.tag := fun hs => hdis x hx x hs rfl
      split <;> simp [hne]
    · by_cases hb : o.state = .bubble
      · simp [hb]
      · have hslot : slot o.state o.tag = [o.tag] := if_neg hb
        rw [hslot] at hdis ⊢
        have hnot : o.tag ∉ squashed (later c) os := fun hs =>
          hdis o.tag (squashed_subset hs) o.tag (List.mem_singleton_self _) rfl
        cases (head (later c) o.state os).flush <;> simp [hnot]

theorem trapHits_subset {c : ℕ → Sources} {i : Token α} {os : List (Token α)} {x : α}
    (h : x ∈ trapHits c i os) : x ∈ tags (tokens (i :: os)) := by
  induction os generalizing c i with
  | nil => cases h
  | cons o os ih =>
    rw [tags_tokens_cons]
    rcases List.mem_append.mp h with hx | hx
    · exact List.mem_append_left _ (ih hx)
    · dsimp only at hx
      split at hx
      · exact List.mem_append_right _ hx
      · cases hx

theorem delivered_subset {c : ℕ → Sources} {i : Token α} {os : List (Token α)} {y : Token α}
    (h : y ∈ delivered c i os) : y ∈ tokens (i :: os) := by
  induction os generalizing c i with
  | nil =>
    unfold delivered at h
    split at h
    · cases h
    next hb =>
      have hnb : i.state ≠ .bubble := fun hi => hb (by simp [hi])
      simpa [tokens, hnb] using h
  | cons o os ih => exact List.mem_append_left _ (ih h)

/-- The last stage accepts no token in the cycle in which another stage does. -/
theorem delivered_not_trapHits {c : ℕ → Sources} {i : Token α} {os : List (Token α)} {y : Token α}
    (hnodup : (tags (tokens (i :: os))).Nodup) (h : y ∈ delivered c i os) :
    y.tag ∉ trapHits c i os := by
  induction os generalizing c i with
  | nil => exact List.not_mem_nil
  | cons o os ih =>
    rw [tags_tokens_cons, List.nodup_append] at hnodup
    obtain ⟨htail, -, hdis⟩ := hnodup
    intro hx
    rcases List.mem_append.mp hx with hx | hx
    · exact ih htail h hx
    · dsimp only at hx
      split at hx
      · exact hdis y.tag (List.mem_map_of_mem (delivered_subset h)) y.tag hx rfl
      · cases hx

theorem trapHits_of_stall {c : ℕ → Sources} {i : Token α} {os : List (Token α)} {x : α}
    (hs : (head c i.state os).stall = true) (h : x ∈ trapHits c i os) : x ∈ tags (tokens os) := by
  cases os with
  | nil => cases h
  | cons o os =>
    rcases List.mem_append.mp h with hx | hx
    · exact trapHits_subset hx
    · simp [hs] at hx

/-- A register holds a trap after the cycle exactly if the token was one before it or
was taken over by a stage with a trap source. -/
theorem trap_step {c : ℕ → Sources} {i : Token α} {os : List (Token α)} {y : Token α}
    (hnodup : (tags (tokens (i :: os))).Nodup) (hy : y ∈ tokens (step c i os)) :
    ∃ y₀ ∈ tokens (i :: os), y₀.tag = y.tag ∧
      (y.state = .trap ↔ y₀.state = .trap ∨ y.tag ∈ trapHits c i os) := by
  induction os generalizing c i with
  | nil => cases hy
  | cons o os ih =>
    have hnodup' := hnodup
    rw [tags_tokens_cons, List.nodup_append] at hnodup'
    obtain ⟨htail, -, hdis⟩ := hnodup'
    set s := head c i.state (o :: os) with hsdef
    have hown : trapHits c i (o :: os) = trapHits (later c) o os ++
        if !s.stall && !s.flush && reduceOr (c 0).trapSources then slot i.state i.tag else [] := rfl
    rcases List.mem_append.mp hy with hy | hy
    · -- the token is behind the register
      obtain ⟨y₀, hy₀, htag, hiff⟩ := ih htail hy
      refine ⟨y₀, List.mem_append_left _ hy₀, htag, ?_⟩
      have hne : y.tag ∉ slot i.state i.tag := fun hs =>
        hdis y.tag (htag ▸ List.mem_map_of_mem hy₀) y.tag hs rfl
      rw [hown, List.mem_append, hiff]
      split <;> simp [hne]
    · -- the token is in the register
      have hreg : y = ⟨s.oState o.state, if !s.stall then i.tag else o.tag⟩ ∧
          s.oState o.state ≠ .bubble := by
        dsimp only at hy
        split at hy
        · cases hy
        next hb => exact ⟨List.mem_singleton.mp hy, hb⟩
      obtain ⟨rfl, hnb⟩ := hreg
      cases hst : s.stall with
      | true =>
        have hns : s.nextStall = true := by
          by_contra hn
          exact hnb (Stage.oState_drains _ hst (eq_false_of_ne_true hn))
        rw [Stage.oState_holds _ hst hns] at hnb ⊢
        have hmem : o ∈ tokens (o :: os) := mem_tokens.mpr ⟨List.mem_cons_self, hnb⟩
        refine ⟨o, List.mem_append_left _ hmem, by simp, ?_⟩
        have hnot : o.tag ∉ trapHits (later c) o os := by
          intro hx
          rw [tags_tokens_cons, List.nodup_append] at htail
          exact htail.2.2 o.tag (trapHits_of_stall hns hx) o.tag (mem_slot.mpr ⟨hnb, rfl⟩) rfl
        rw [hown]
        simp [hst, hnot]
      | false =>
        have hf : s.flush = false := by
          by_contra hf
          exact hnb (Stage.oState_flush _ (eq_true_of_ne_false hf))
        rw [Stage.oState_moves _ hst hf] at hnb ⊢
        have hi : i.state ≠ .bubble := by
          rw [Ne, Stage.passed_eq_bubble_iff, hsdef, head_iState] at hnb
          exact hnb
        have hslot : slot i.state i.tag = [i.tag] := if_neg hi
        refine ⟨i, List.mem_append_right _ (by simp [hi]), by simp, ?_⟩
        have hnot : i.tag ∉ trapHits (later c) o os := fun hx =>
          hdis i.tag (trapHits_subset hx) i.tag (by simp [hslot]) rfl
        have hpass := Stage.passed_eq_trap_iff (s := s) (by rwa [hsdef, head_iState])
        rw [hsdef, head_iState, head_toSources, ← hsdef] at hpass
        rw [hown, hst, hf, hpass, hslot]
        cases reduceOr (c 0).trapSources <;> simp [hnot]

end Pipeline
end Icicle
