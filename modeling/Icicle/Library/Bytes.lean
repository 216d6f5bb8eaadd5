import Mathlib.Tactic

/-! Bytes of words, and memories that are addressed byte by byte, with the least
significant byte of a value first. -/
namespace Bytes

variable {w aw : ℕ}

def byte (x : BitVec w) (b : ℕ) : BitVec 8 := x.extractLsb' (8 * b) 8

theorem getLsbD_byte (x : BitVec w) (b : ℕ) {i : ℕ} (hi : i < 8) :
    (byte x b).getLsbD i = x.getLsbD (8 * b + i) := by
  simp [byte, hi]

/-- A bit of a word is a bit of one of its bytes. -/
theorem getLsbD_eq_byte (x : BitVec w) (i : ℕ) :
    x.getLsbD i = (byte x (i / 8)).getLsbD (i % 8) := by
  rw [getLsbD_byte x _ (Nat.mod_lt i (by omega)), Nat.div_add_mod]

/-- A word is determined by its bytes. -/
theorem eq_of_byte {n : ℕ} (hw : w ≤ 8 * n) {x y : BitVec w} (h : ∀ b < n, byte x b = byte y b) :
    x = y := by
  apply BitVec.eq_of_getLsbD_eq
  intro i hi
  rw [getLsbD_eq_byte x, getLsbD_eq_byte y, h (i / 8) (by omega)]

theorem byte_append_low {v b : ℕ} (x : BitVec v) (y : BitVec w) (h : 8 * b + 8 ≤ w) :
    byte (x ++ y) b = byte y b := BitVec.extractLsb'_append_eq_of_add_le h

theorem byte_append_high {v n b : ℕ} (x : BitVec v) (y : BitVec w) (hw : w = 8 * n) (h : n ≤ b) :
    byte (x ++ y) b = byte x (b - n) := by
  unfold byte
  rw [BitVec.extractLsb'_append_eq_of_le (by omega), hw, ← Nat.mul_sub]

theorem byte_zero (x : BitVec 8) : byte x 0 = x := BitVec.extractLsb'_eq_self

/-- The bytes of a word that is put together from four of them. -/
theorem byte_append (x : ℕ → BitVec 8) {b : ℕ} (hb : b < 4) :
    byte (x 3 ++ x 2 ++ x 1 ++ x 0) b = x b := by
  have h1 : ∀ {v : ℕ} (y : BitVec v) (z : BitVec 8) (k : ℕ), byte (y ++ z) (k + 1) = byte y k :=
    fun y z k => byte_append_high (n := 1) y z rfl (Nat.succ_pos k)
  have h0 : ∀ {v : ℕ} (y : BitVec v) (z : BitVec 8), byte (y ++ z) 0 = z :=
    fun y z => (byte_append_low y z (by omega)).trans (byte_zero z)
  interval_cases b
  · exact h0 _ _
  · exact (h1 _ _ 0).trans (h0 _ _)
  · exact (h1 _ _ 1).trans ((h1 _ _ 0).trans (h0 _ _))
  · exact (h1 _ _ 2).trans ((h1 _ _ 1).trans ((h1 _ _ 0).trans (byte_zero _)))

theorem byte_ushiftRight (x : BitVec w) {j b s : ℕ} (hs : s = 8 * j) :
    byte (x >>> s) b = byte x (j + b) := by
  apply BitVec.eq_of_getLsbD_eq
  intro i hi
  rw [getLsbD_byte _ _ hi, getLsbD_byte _ _ hi, BitVec.getLsbD_ushiftRight, hs,
    ← Nat.add_assoc, ← Nat.mul_add]

theorem byte_shiftLeft (x : BitVec w) {j b s : ℕ} (hs : s = 8 * j) (hj : j ≤ b)
    (hb : 8 * b + 8 ≤ w) : byte (x <<< s) b = byte x (b - j) := by
  apply BitVec.eq_of_getLsbD_eq
  intro i hi
  rw [getLsbD_byte _ _ hi, getLsbD_byte _ _ hi, BitVec.getLsbD_shiftLeft, hs]
  rw [show 8 * b + i - 8 * j = 8 * (b - j) + i by omega]
  simp [show 8 * b + i < w by omega, show ¬ 8 * b + i < 8 * j by omega]

theorem byte_setWidth (x : BitVec w) {v b : ℕ} (hb : 8 * b + 8 ≤ v) :
    byte (x.setWidth v) b = byte x b := by
  apply BitVec.eq_of_getLsbD_eq
  intro i hi
  rw [getLsbD_byte _ _ hi, getLsbD_byte _ _ hi, BitVec.getLsbD_setWidth]
  simp [show 8 * b + i < v by omega]

theorem getLsbD_signExtend_ofBool (x : Bool) {n i : ℕ} (hi : i < n) :
    ((BitVec.ofBool x).signExtend n).getLsbD i = x := by
  rw [BitVec.getLsbD_signExtend, BitVec.msb_eq_getLsbD_last]
  cases x <;> simp [hi]

/-- The `n` bytes from `a` on as one value. -/
def load (mem : BitVec aw → BitVec 8) (a : BitVec aw) : (n : ℕ) → BitVec (8 * n)
  | 0 => 0#0
  | n + 1 => (mem (a + BitVec.ofNat aw n) ++ load mem a n).cast (by omega)

/-- The `n` bytes from `a` on are replaced by the low bytes of `x`. -/
def store (mem : BitVec aw → BitVec 8) (a : BitVec aw) (n : ℕ) (x : BitVec w) :
    BitVec aw → BitVec 8 :=
  fun c => if (c - a).toNat < n then byte x (c - a).toNat else mem c

theorem byte_load (mem : BitVec aw → BitVec 8) (a : BitVec aw) {n b : ℕ} (hb : b < n) :
    byte (load mem a n) b = mem (a + BitVec.ofNat aw b) := by
  induction n with
  | zero => exact absurd hb (Nat.not_lt_zero b)
  | succ n ih =>
    apply BitVec.eq_of_getLsbD_eq
    intro i hi
    rw [getLsbD_byte _ _ hi, load, BitVec.getLsbD_cast, BitVec.getLsbD_append]
    rcases Nat.lt_succ_iff_lt_or_eq.mp hb with hlt | rfl
    · rw [if_pos (by omega), ← getLsbD_byte _ _ hi, ih hlt]
    · rw [if_neg (by omega), Nat.add_sub_cancel_left]

/-- The bytes behind a value stay as they are. -/
theorem store_of_le {mem : BitVec aw → BitVec 8} {a c : BitVec aw} {n : ℕ} (x : BitVec w)
    (h : n ≤ (c - a).toNat) : store mem a n x c = mem c := if_neg (Nat.not_lt.mpr h)

theorem store_of_lt {mem : BitVec aw → BitVec 8} {a c : BitVec aw} {n : ℕ} (x : BitVec w)
    (h : (c - a).toNat < n) : store mem a n x c = byte x (c - a).toNat := if_pos h

end Bytes
