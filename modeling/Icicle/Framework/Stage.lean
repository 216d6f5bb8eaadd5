import Mathlib.Tactic

/-! The control signals of a pipeline stage, as `Stage.elaborate` computes them. -/
namespace Icicle

/-- The state of the token in a pipeline register. -/
inductive State where
  | bubble
  | valid
  | trap
  deriving DecidableEq

/-- `reduce(or_, sources, 0)`. -/
def reduceOr (sources : List Bool) : Bool := sources.foldl (· || ·) false

@[simp] theorem reduceOr_nil : reduceOr [] = false := rfl

@[simp] theorem reduceOr_cons (b : Bool) (bs : List Bool) :
    reduceOr (b :: bs) = (b || reduceOr bs) := by
  have h : ∀ (bs : List Bool) (a : Bool), bs.foldl (· || ·) a = (a || bs.foldl (· || ·) false) := by
    intro bs
    induction bs with
    | nil => simp
    | cons c cs ih =>
      intro a
      rw [List.foldl_cons, List.foldl_cons, ih (a || c), ih (false || c)]
      simp [Bool.or_assoc]
  simpa [reduceOr] using h bs b

/-- What `stall_on`, `flush_on` and `trap_on` registered, with its values in one cycle. -/
structure Sources where
  stallSources : List Bool := []
  flushSources : List Bool := []
  trapSources : List Bool := []

/-- A stage in one cycle. The first stage of a pipeline has no input register and
sees the state `valid`. -/
structure Stage extends Sources where
  iState : State
  nextStall : Bool := false

namespace Stage

def flush (s : Stage) : Bool := reduceOr s.flushSources

def stall (s : Stage) : Bool :=
  ((s.iState == .valid && reduceOr s.stallSources) || s.nextStall) && !s.flush

def trap (s : Stage) : Bool :=
  s.iState == .trap || (s.iState == .valid && reduceOr s.trapSources)

/-- The next state of the output register, which now holds `o`. -/
def oState (s : Stage) (o : State) : State :=
  if !s.stall then
    if s.flush then .bubble else if s.trap then .trap else s.iState
  else if !s.nextStall then .bubble
  else o

/-- The state a token leaves the stage with. -/
def passed (s : Stage) : State := if s.trap then .trap else s.iState

theorem passed_trap {s : Stage} (h : s.iState = .trap) : s.passed = .trap := by
  simp [passed, trap, h]

theorem passed_valid {s : Stage} (h : s.iState = .valid) :
    s.passed = if reduceOr s.trapSources then .trap else .valid := by
  simp [passed, trap, h]

theorem passed_eq_bubble_iff {s : Stage} : s.passed = .bubble ↔ s.iState = .bubble := by
  unfold passed trap
  cases h : s.iState <;> cases hr : reduceOr s.trapSources <;> simp

/-- A token leaves a stage as a trap if it was one or the stage has a trap source. -/
theorem passed_eq_trap_iff {s : Stage} (h : s.iState ≠ .bubble) :
    s.passed = .trap ↔ s.iState = .trap ∨ reduceOr s.trapSources = true := by
  unfold passed trap
  cases hi : s.iState with
  | bubble => exact absurd hi h
  | valid => cases reduceOr s.trapSources <;> simp
  | trap => simp

/-- Only a valid token stays valid. -/
theorem iState_of_passed_valid {s : Stage} (h : s.passed = .valid) :
    s.iState = .valid ∧ reduceOr s.trapSources = false := by
  revert h
  unfold passed trap
  cases hi : s.iState <;> cases hr : reduceOr s.trapSources <;> simp

theorem stall_of_flush {s : Stage} (h : s.flush = true) : s.stall = false := by simp [stall, h]

theorem flush_of_stall {s : Stage} (h : s.stall = true) : s.flush = false := by
  by_contra hf
  simp [stall_of_flush (eq_true_of_ne_false hf)] at h

/-- Back pressure stalls every stage that is not flushed. -/
theorem stall_of_nextStall {s : Stage} (hn : s.nextStall = true) (hf : s.flush = false) :
    s.stall = true := by simp [stall, hn, hf]

theorem nextStall_of_not_stall {s : Stage} (hs : s.stall = false) (hf : s.flush = false) :
    s.nextStall = false := by
  by_contra hn
  simp [stall_of_nextStall (eq_true_of_ne_false hn) hf] at hs

/-- A stage that moves passes its input token on, marked if it traps. -/
theorem oState_moves {s : Stage} (o : State) (hs : s.stall = false) (hf : s.flush = false) :
    s.oState o = s.passed := by simp [oState, passed, hs, hf]

theorem oState_flush {s : Stage} (o : State) (hf : s.flush = true) : s.oState o = .bubble := by
  simp [oState, hf, stall_of_flush hf]

/-- A stage that stalls on its own lets its output drain. -/
theorem oState_drains {s : Stage} (o : State) (hs : s.stall = true) (hn : s.nextStall = false) :
    s.oState o = .bubble := by simp [oState, hs, hn]

theorem oState_holds {s : Stage} (o : State) (hs : s.stall = true) (hn : s.nextStall = true) :
    s.oState o = o := by simp [oState, hs, hn]

end Stage
end Icicle
