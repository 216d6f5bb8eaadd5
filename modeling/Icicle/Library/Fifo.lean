import Icicle.Library.Clocked

/-! First-in first-out queues with a write and a read port, as far as their users rely on
them. -/

/-- The inputs of a queue in one cycle. -/
structure FifoIn (α : Type) where
  wEn : Bool
  wData : α
  rEn : Bool

/-- A queue with its documented behaviour. A write is ignored if the queue is not ready for
it, and a read if no element is ready. An element may need some cycles to get ready; what
is ready stays so until the port is used. -/
structure Fifo (α : Type) (depth : ℕ) where
  State : Type
  reset : State
  wRdy : State → Bool
  rRdy : State → Bool
  rData : State → α
  step : State → FifoIn α → State
  contents : State → List α
  empty : contents reset = []
  bounded : ∀ s, (contents s).length ≤ depth
  conserves : ∀ s i, contents s ++ (if i.wEn && wRdy s then [i.wData] else []) =
    (if i.rEn && rRdy s then [rData s] else []) ++ contents (step s i)
  keepsWritable : ∀ s i, wRdy s = true → i.wEn = false → wRdy (step s i) = true
  keepsReadable : ∀ s i, rRdy s = true → i.rEn = false → rRdy (step s i) = true

namespace Fifo
open Clocked

variable {α : Type} {depth : ℕ} (f : Fifo α depth)

def accepted (s : f.State) (i : FifoIn α) : Option α :=
  if i.wEn && f.wRdy s then some i.wData else none

def delivered (s : f.State) (i : FifoIn α) : Option α :=
  if i.rEn && f.rRdy s then some (f.rData s) else none

theorem contents_step (s : f.State) (i : FifoIn α) :
    f.contents s ++ (f.accepted s i).toList =
      (f.delivered s i).toList ++ f.contents (f.step s i) := by
  have h := f.conserves s i
  unfold accepted delivered
  split_ifs at h ⊢ <;> exact h

section Run
variable (state : ℕ → f.State) (inp : ℕ → FifoIn α)

/-- Nothing is lost, repeated or reordered: what was accepted is what was delivered and what
the queue still holds. -/
theorem log_accepted (h0 : state 0 = f.reset)
    (hstep : ∀ t, state (t + 1) = f.step (state t) (inp t)) (t : ℕ) :
    log (fun u => f.accepted (state u) (inp u)) t =
      log (fun u => f.delivered (state u) (inp u)) t ++ f.contents (state t) := by
  induction t with
  | zero => rw [h0, f.empty]; rfl
  | succ t ih =>
    rw [log_succ, log_succ, ih, List.append_assoc, List.append_assoc, hstep,
      contents_step]

end Run

/-- The elements after a cycle. -/
def idealNext (depth : ℕ) (l : List α) (i : FifoIn α) : List α :=
  (if i.rEn then l.tail else l) ++ if i.wEn && decide (l.length < depth) then [i.wData] else []

theorem length_idealNext {l : List α} (i : FifoIn α) (hl : l.length ≤ depth) :
    (idealNext depth l i).length ≤ depth := by
  unfold idealNext
  have htail : (if i.rEn then l.tail else l).length ≤ l.length := by split_ifs <;> simp
  rw [List.length_append]
  split_ifs with hr hw hw
  all_goals simp at *
  all_goals omega

theorem idealNext_conserves [Inhabited α] (l : List α) (i : FifoIn α) :
    l ++ (if i.wEn && decide (l.length < depth) then [i.wData] else []) =
      (if i.rEn && !l.isEmpty then [l.headD default] else []) ++ idealNext depth l i := by
  unfold idealNext
  cases l with
  | nil => cases i.rEn <;> simp
  | cons a l => cases i.rEn <;> simp

theorem length_idealNext_of_read {l : List α} {i : FifoIn α} (hl : l.length < depth)
    (hw : i.wEn = false) : (idealNext depth l i).length < depth := by
  unfold idealNext
  cases i.rEn <;> simp [hw] <;> omega

theorem idealNext_ne_nil {l : List α} {i : FifoIn α} (hl : l ≠ []) (hr : i.rEn = false) :
    idealNext depth l i ≠ [] := by simp [idealNext, hl, hr]

def ideal (α : Type) [Inhabited α] (depth : ℕ) : Fifo α depth where
  State := { l : List α // l.length ≤ depth }
  reset := ⟨[], Nat.zero_le depth⟩
  wRdy l := decide (l.1.length < depth)
  rRdy l := !l.1.isEmpty
  rData l := l.1.headD default
  step l i := ⟨idealNext depth l.1 i, length_idealNext i l.2⟩
  contents l := l.1
  empty := rfl
  bounded l := l.2
  conserves l i := idealNext_conserves l.1 i
  keepsWritable l i h hw :=
    decide_eq_true (length_idealNext_of_read (of_decide_eq_true h) hw)
  keepsReadable l i h hr := by
    have hl : l.1 ≠ [] := by simpa using h
    simpa using idealNext_ne_nil hl hr

end Fifo
