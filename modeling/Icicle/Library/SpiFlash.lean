import Mathlib.Tactic

/-! A 25-series SPI flash chip that sees one rising clock edge a cycle, and the serial
transfer of words with the most significant bit first. -/
namespace SpiFlash

section Serial
variable {w : ℕ}

/-- The first `k` of `bits` have been shifted into the low end of `x`. -/
def Received (x : BitVec w) (k : ℕ) (bits : ℕ → Bool) : Prop :=
  ∀ j < k, x.getLsbD (k - 1 - j) = bits j

theorem Received.zero (x : BitVec w) (bits : ℕ → Bool) : Received x 0 bits :=
  fun _ hj => absurd hj (Nat.not_lt_zero _)

theorem Received.shiftConcat {x : BitVec w} {k : ℕ} {bits : ℕ → Bool} (h : Received x k bits)
    (hk : k < w) : Received (x.shiftConcat (bits k)) (k + 1) bits := by
  intro j hj
  rw [BitVec.getLsbD_shiftConcat]
  rcases Nat.lt_succ_iff_lt_or_eq.mp hj with hlt | rfl
  · have hidx : k - j - 1 = k - 1 - j := by omega
    simpa [show k - j < w by omega, show k - j ≠ 0 by omega, hidx] using h j hlt
  · simp [show 0 < w by omega]

/-- A word is determined by its bits. -/
theorem Received.eq {x y : BitVec w} {bits : ℕ → Bool} (hx : Received x w bits)
    (hy : Received y w bits) : x = y := by
  apply BitVec.eq_of_getLsbD_eq
  intro i hi
  have hidx : w - 1 - (w - 1 - i) = i := by omega
  have h := (hx (w - 1 - i) (by omega)).trans (hy (w - 1 - i) (by omega)).symm
  rwa [hidx] at h

theorem received_self (x : BitVec w) : Received x w fun j => x.getLsbD (w - 1 - j) :=
  fun _ _ => rfl

/-- What a shift register that started with `x` sends next after `k` bits. -/
theorem getLsbD_last_shiftLeft (x : BitVec (w + 1)) {k : ℕ} (hk : k ≤ w) :
    (x <<< k).getLsbD w = x.getLsbD (w - k) := by
  rw [BitVec.getLsbD_shiftLeft]
  simp [show ¬ w < k by omega]

end Serial

structure Pins where
  cs : Bool
  copi : Bool

/-- The chip is selected in `n` cycles from `a` on, and not in the cycles next to them. -/
structure Frame (pins : ℕ → Pins) (a n : ℕ) : Prop where
  pos : 0 < n
  before : ∀ t, a = t + 1 → (pins t).cs = false
  selected : ∀ k < n, (pins (a + k)).cs = true
  after : (pins (a + n)).cs = false

/-- The rising edges since the chip was selected, and what it received on the first 32. -/
structure Chip where
  edges : ℕ := 0
  received : BitVec 32 := 0

/-- Bit `j` of the data read from `addr` on. -/
def dataBit (contents : BitVec 24 → BitVec 8) (addr : BitVec 24) (j : ℕ) : Bool :=
  (contents (addr + BitVec.ofNat 24 (j / 8))).getLsbD (7 - j % 8)

namespace Chip

/-- What the chip drives at a rising edge: data, from the edge after a read command and
its address on. -/
def drive (contents : BitVec 24 → BitVec 8) (c : Chip) (p : Pins) : Option Bool :=
  if p.cs && decide (32 ≤ c.edges) && c.received.extractLsb' 24 8 == 0x03#8 then
    some (dataBit contents (c.received.extractLsb' 0 24) (c.edges - 32))
  else none

/-- A rising edge. A chip that is not selected starts over. -/
def step (c : Chip) (p : Pins) : Chip :=
  if p.cs then
    { edges := c.edges + 1
      received := if c.edges < 32 then c.received.shiftConcat p.copi else c.received }
  else {}

theorem step_deselected {c : Chip} {p : Pins} (h : p.cs = false) : c.step p = {} := by
  simp [step, h]

/-- The chip has received the first `k` of the given command bits. -/
structure Heard (c : Chip) (k : ℕ) (bits : ℕ → Bool) : Prop where
  edges : c.edges = k
  received : Received c.received k bits

theorem heard_start (bits : ℕ → Bool) : Heard {} 0 bits := ⟨rfl, Received.zero _ _⟩

theorem Heard.step {c : Chip} {k : ℕ} {bits : ℕ → Bool} (h : Heard c k bits) (hk : k < 32)
    {p : Pins} (hcs : p.cs = true) (hcopi : p.copi = bits k) : Heard (c.step p) (k + 1) bits := by
  have hlt : c.edges < 32 := h.edges.symm ▸ hk
  rw [Chip.step, if_pos hcs, if_pos hlt, hcopi]
  exact ⟨congrArg (· + 1) h.edges, h.received.shiftConcat hk⟩

/-- A chip that has received `word` stays with it while it is selected. -/
theorem step_selected {c : Chip} {p : Pins} (hcs : p.cs = true) (h : 32 ≤ c.edges) :
    c.step p = { edges := c.edges + 1, received := c.received } := by
  rw [step, if_pos hcs, if_neg (by omega)]

/-- The answer to a read of `addr`. -/
theorem drive_read (contents : BitVec 24 → BitVec 8) {c : Chip} {p : Pins} {addr : BitVec 24}
    (hcs : p.cs = true) (h : 32 ≤ c.edges) (hr : c.received = 0x03#8 ++ addr) :
    c.drive contents p = some (dataBit contents addr (c.edges - 32)) := by
  have hcmd : c.received.extractLsb' 24 8 = 0x03#8 := by
    rw [hr]
    exact BitVec.extractLsb'_append_eq_left
  have haddr : c.received.extractLsb' 0 24 = addr := by
    rw [hr]
    exact BitVec.extractLsb'_append_eq_right
  unfold drive
  rw [hcs, hcmd, haddr, decide_eq_true h]
  rfl

end Chip
end SpiFlash
