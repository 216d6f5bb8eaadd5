import Icicle.Library.Clocked

/-! What a machine with inputs does in a number of steps, whatever the inputs: rules for
sequences and loops, and what they say about its runs. -/
namespace Clocked

variable {A α ω : Type*}

/-- After `n` steps `Q` holds, and every state on the way there is safe. -/
def Ensures (next : A → α → ω × A) (safe : A → Prop) : ℕ → (A → Prop) → A → Prop
  | 0, Q, a => Q a
  | n + 1, Q, a => safe a ∧ ∀ i, Ensures next safe n Q (next a i).2

namespace Ensures
variable {next : A → α → ω × A} {safe : A → Prop} {P Q : A → Prop} {n m : ℕ} {a b : A}

theorem trans (h : Ensures next safe n P a) (hPQ : ∀ b, P b → Ensures next safe m Q b) :
    Ensures next safe (n + m) Q a := by
  induction n generalizing a with
  | zero =>
    rw [Nat.zero_add]
    exact hPQ a h
  | succ n ih =>
    rw [Nat.succ_add]
    exact ⟨h.1, fun i => ih (h.2 i)⟩

/-- A step that does not depend on the input. -/
theorem step (ha : safe a) (hnext : ∀ i, (next a i).2 = b) (h : Ensures next safe n Q b) :
    Ensures next safe (n + 1) Q a := by
  refine ⟨ha, fun i => ?_⟩
  rw [hnext i]
  exact h

/-- A loop whose body leads from each invariant to the next one. -/
theorem loop (inv : ℕ → A → Prop) {k : ℕ}
    (body : ∀ j < n, ∀ b, inv j b → Ensures next safe k (inv (j + 1)) b) (h0 : inv 0 a) :
    Ensures next safe (n * k) (inv n) a := by
  induction n with
  | zero =>
    rw [Nat.zero_mul]
    exact h0
  | succ n ih =>
    rw [Nat.succ_mul]
    exact (ih fun j hj => body j (Nat.lt_succ_of_lt hj)).trans (body n (Nat.lt_succ_self n))

theorem play_of_length (h : Ensures next safe n Q a) {is : List α} (hn : is.length = n) :
    Q (play next a is).2 := by
  induction is generalizing a n with
  | nil =>
    obtain rfl : n = 0 := hn.symm
    exact h
  | cons i is ih =>
    obtain rfl : n = is.length + 1 := hn.symm
    exact ih (h.2 i) rfl

theorem safe_of_length (h : Ensures next safe n Q a) {is : List α} (hn : is.length < n) :
    safe (play next a is).2 := by
  induction is generalizing a n with
  | nil =>
    obtain ⟨m, rfl⟩ := Nat.exists_eq_succ_of_ne_zero (Nat.ne_of_gt hn)
    exact h.1
  | cons i is ih =>
    obtain ⟨m, rfl⟩ := Nat.exists_eq_succ_of_ne_zero (Nat.ne_of_gt (Nat.zero_lt_of_lt hn))
    exact ih (h.2 i) (Nat.lt_of_succ_lt_succ hn)

/-- What every safe state puts out is all that is put out on the way. -/
theorem outputs (good : ω → Prop) (h : Ensures next safe n Q a)
    (hgood : ∀ b, safe b → ∀ i, good (next b i).1) {is : List α} (hn : is.length ≤ n) :
    ∀ o ∈ (play next a is).1, good o := by
  induction is generalizing a n with
  | nil => exact fun o ho => absurd ho List.not_mem_nil
  | cons i is ih =>
    obtain ⟨m, rfl⟩ := Nat.exists_eq_succ_of_ne_zero (Nat.ne_of_gt (Nat.lt_of_lt_of_le
      (Nat.succ_pos is.length) hn))
    intro o ho
    rcases List.mem_cons.mp ho with rfl | ho
    · exact hgood a h.1 i
    · exact ih (h.2 i) (Nat.le_of_succ_le_succ hn) o ho

end Ensures

end Clocked
