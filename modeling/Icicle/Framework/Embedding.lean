import Icicle.Framework.Lossless

/-! Circuits with a pipeline in them: whatever else the circuit does, its tokens are
accounted for as those of the pipeline are. -/
namespace Icicle
namespace Pipeline

variable {α ι σ : Type*}

section Follows
variable {fill : ℕ → α} {rs : List (Token α)} {ds : List (Token ℕ)}

theorem Follows.bubble {r : Token α} {d : Token ℕ} (hr : r.state = .bubble)
    (hd : d.state = .bubble) : Follows fill r d :=
  ⟨hr.trans hd.symm, fun hb => absurd hd hb⟩

theorem tokens_follows (h : List.Forall₂ (Follows fill) rs ds) :
    List.Forall₂ (Follows fill) (tokens rs) (tokens ds) := by
  induction h with
  | nil => exact List.Forall₂.nil
  | cons hrd _ ih =>
    rw [tokens, tokens, hrd.1]
    refine List.rel_append ih ?_
    split
    · exact List.Forall₂.nil
    · exact List.Forall₂.cons hrd List.Forall₂.nil

/-- Tokens that follow others are those under their own tags. -/
theorem map_of_follows {hits : List ℕ} (h : List.Forall₂ (Follows fill) rs ds)
    (hd : ∀ d ∈ ds, d.state ≠ .bubble ∧ (d.state = .trap ↔ d.tag ∈ hits)) :
    rs = (tags ds).map fun x => ⟨if x ∈ hits then .trap else .valid, fill x⟩ := by
  induction h with
  | nil => rfl
  | @cons r d rs ds hrd _ ih =>
    obtain ⟨hb, hiff⟩ := hd d List.mem_cons_self
    have hstate : d.state = if d.tag ∈ hits then .trap else .valid := by
      split
      next hx => exact hiff.mpr hx
      next hx =>
        cases hs : d.state with
        | bubble => exact absurd hs hb
        | valid => rfl
        | trap => exact absurd (hiff.mp hs) hx
    have hr : r = ⟨if d.tag ∈ hits then .trap else .valid, fill d.tag⟩ := by
      rw [← hstate, ← hrd.1, ← hrd.2 hb]
    rw [ih fun y hy => hd y (List.mem_cons_of_mem d hy), hr]
    rfl

end Follows

/-- The registers of a circuit that a pipeline connects, with what the rest of the circuit
gives to the pipeline in a cycle. -/
structure Embedding (C : Clocked ι σ) (α : Type*) where
  regs : σ → List (Token α)
  sources : σ → ι → ℕ → Sources
  fill : σ → ι → α
  reset : ∀ o ∈ regs C.reset, o.state = .bubble
  step : ∀ s i, regs (C.step s i) = Pipeline.step (sources s i) ⟨.valid, fill s i⟩ (regs s)
  flushes : ∀ s i, FlushesFront (sources s i) (regs s)

namespace Embedding
variable {C : Clocked ι σ} (e : Embedding C α) (inp : ℕ → ι)

def depth : ℕ := (e.regs C.reset).length

def sourcesAt (t : ℕ) : ℕ → Sources := e.sources (C.run inp t) (inp t)

def fillAt (t : ℕ) : α := e.fill (C.run inp t) (inp t)

def regsAt (t : ℕ) : List (Token α) := e.regs (C.run inp t)

/-- What the last stage accepts in a cycle. -/
def deliveredAt (t : ℕ) : List (Token α) :=
  delivered (e.sourcesAt inp t) ⟨.valid, e.fillAt inp t⟩ (e.regsAt inp t)

/-- The cycles that issued what was not flushed before cycle `t`. -/
def remaining (t : ℕ) : List ℕ :=
  (issuedBefore e.depth (e.sourcesAt inp) t).filter fun x =>
    x ∉ squashedBefore e.depth (e.sourcesAt inp) t

theorem follows (t : ℕ) : List.Forall₂ (Follows (e.fillAt inp)) (e.regsAt inp t)
    (idsAt e.depth (e.sourcesAt inp) t) := by
  induction t with
  | zero =>
    have h : ∀ os : List (Token α), (∀ o ∈ os, o.state = .bubble) →
        List.Forall₂ (Follows (e.fillAt inp)) os (List.replicate os.length ⟨.bubble, 0⟩) := by
      intro os
      induction os with
      | nil => exact fun _ => List.Forall₂.nil
      | cons o os ih =>
        intro ho
        exact List.Forall₂.cons (.bubble (ho o List.mem_cons_self) rfl)
          (ih fun x hx => ho x (List.mem_cons_of_mem o hx))
    exact h _ e.reset
  | succ t ih =>
    have hi : Follows (e.fillAt inp) (⟨.valid, e.fillAt inp t⟩ : Token α) ⟨.valid, t⟩ :=
      ⟨rfl, fun _ => rfl⟩
    have hstep := (step_follows (c := e.sourcesAt inp t) hi ih).1
    rw [regsAt, Clocked.run_succ, e.step]
    exact hstep

theorem flushesFront (t : ℕ) :
    FlushesFront (e.sourcesAt inp t) (idsAt e.depth (e.sourcesAt inp) t) :=
  (e.flushes _ _).follows (e.follows inp t)

theorem delivered_follows (t : ℕ) :
    List.Forall₂ (Follows (e.fillAt inp)) ((List.range t).flatMap (e.deliveredAt inp))
      (deliveredBefore e.depth (e.sourcesAt inp) id 0 t) := by
  induction t with
  | zero => exact List.Forall₂.nil
  | succ t ih =>
    have hi : Follows (e.fillAt inp) (⟨.valid, e.fillAt inp t⟩ : Token α) ⟨.valid, t⟩ :=
      ⟨rfl, fun _ => rfl⟩
    rw [List.range_succ, List.flatMap_append, List.flatMap_singleton, deliveredBefore_succ]
    exact List.rel_append ih (step_follows hi (e.follows inp t)).2

/-- Every token that the circuit has issued was flushed, has been accepted by the last stage
or is in its registers, in the order in which the tokens were issued. It is a trap if and
only if some stage had a trap source set when it issued or accepted it. -/
theorem accounts (t : ℕ) :
    (List.range t).flatMap (e.deliveredAt inp) ++ tokens (e.regsAt inp t) =
      (e.remaining inp t).map fun x =>
        ⟨if x ∈ trapHitsBefore e.depth (e.sourcesAt inp) t then .trap else .valid,
          e.fillAt inp x⟩ := by
  have h := e.flushesFront inp
  have hfollows : List.Forall₂ (Follows (e.fillAt inp))
      ((List.range t).flatMap (e.deliveredAt inp) ++ tokens (e.regsAt inp t))
      (deliveredBefore e.depth (e.sourcesAt inp) id 0 t ++
        tokens (idsAt e.depth (e.sourcesAt inp) t)) :=
    List.rel_append (e.delivered_follows inp t) (tokens_follows (e.follows inp t))
  have htags : tags (deliveredBefore e.depth (e.sourcesAt inp) id 0 t ++
      tokens (idsAt e.depth (e.sourcesAt inp) t)) = e.remaining inp t := by
    rw [tags, List.map_append]
    exact (delivered_append_inFlight h t).1
  rw [← htags]
  refine map_of_follows hfollows fun d hd => ?_
  rcases List.mem_append.mp hd with hd | hd
  · exact delivered_trap_iff h t d hd
  · refine ⟨(mem_tokens.mp hd).2, tokens_trap_iff h t d ?_⟩
    rw [tokens]
    exact List.mem_append_left _ hd

end Embedding
end Pipeline
end Icicle
