import Icicle.Library.Bytes

/-! The single-port memory block SB_SPRAM256KA, as far as its users rely on it. -/
namespace SbSpram
open Bytes

/-- The inputs of a block in one cycle. `powerOff` is active low. -/
structure Inputs where
  address : BitVec 14
  dataIn : BitVec 16
  maskWrEn : BitVec 4
  wrEn : Bool
  chipSelect : Bool
  standby : Bool
  sleep : Bool
  powerOff : Bool

/-- The block is powered, and neither asleep nor in standby. -/
def Inputs.active (p : Inputs) : Prop := p.standby = false ∧ p.sleep = false ∧ p.powerOff = true

def nibble (x : BitVec 16) (k : ℕ) : BitVec 4 := x.extractLsb' (4 * k) 4

/-- The nibbles that `mask` enables are taken from `new`. -/
def mergeNibbles (mask : BitVec 4) (old new : BitVec 16) : BitVec 16 :=
  let lane (k : ℕ) : BitVec 4 := if mask.getLsbD k then nibble new k else nibble old k
  lane 3 ++ lane 2 ++ lane 1 ++ lane 0

theorem getLsbD_mergeNibbles (mask : BitVec 4) (old new : BitVec 16) {i : ℕ} (hi : i < 16) :
    (mergeNibbles mask old new).getLsbD i =
      if mask.getLsbD (i / 4) then new.getLsbD i else old.getLsbD i := by
  have hlane : ∀ k j, j < 4 →
      (if mask.getLsbD k then nibble new k else nibble old k).getLsbD j =
        if mask.getLsbD k then new.getLsbD (4 * k + j) else old.getLsbD (4 * k + j) := by
    intro k j hj
    split_ifs <;> simp [nibble, hj]
  have hbit : (mergeNibbles mask old new).getLsbD i =
      (if mask.getLsbD (i / 4) then nibble new (i / 4)
        else nibble old (i / 4)).getLsbD (i % 4) := by
    simp only [mergeNibbles, BitVec.getLsbD_append]
    have hk : i / 4 = 0 ∨ i / 4 = 1 ∨ i / 4 = 2 ∨ i / 4 = 3 := by omega
    rcases hk with hk | hk | hk | hk
    · rw [if_pos (by omega), hk, show i % 4 = i by omega]
    · rw [if_neg (by omega), if_pos (by omega), hk, show i % 4 = i - 4 by omega]
    · rw [if_neg (by omega), if_neg (by omega), if_pos (by omega), hk,
        show i % 4 = i - 4 - 4 by omega]
    · rw [if_neg (by omega), if_neg (by omega), if_neg (by omega), hk,
        show i % 4 = i - 4 - 4 - 4 by omega]
  rw [hbit, hlane _ _ (Nat.mod_lt i (by omega)), Nat.div_add_mod]

/-- A mask that enables whole bytes replaces bytes. -/
theorem byte_mergeNibbles {mask : BitVec 4} (old new : BitVec 16) {b : ℕ} (hb : b < 2)
    (hmask : mask.getLsbD (2 * b + 1) = mask.getLsbD (2 * b)) :
    byte (mergeNibbles mask old new) b =
      if mask.getLsbD (2 * b) then byte new b else byte old b := by
  apply BitVec.eq_of_getLsbD_eq
  intro i hi
  have hlane : mask.getLsbD ((8 * b + i) / 4) = mask.getLsbD (2 * b) := by
    have hk : (8 * b + i) / 4 = 2 * b ∨ (8 * b + i) / 4 = 2 * b + 1 := by omega
    rcases hk with hk | hk
    · rw [hk]
    · rw [hk, hmask]
  rw [getLsbD_byte _ _ hi, getLsbD_mergeNibbles _ _ _ (by omega), hlane]
  split_ifs
  · rw [getLsbD_byte _ _ hi]
  · rw [getLsbD_byte _ _ hi]

/-- A block with its documented behaviour: 16384 half-words and an output register. What a
write leaves in the output register is not specified. -/
structure Block where
  State : Type
  step : State → Inputs → State
  dataOut : State → BitVec 16
  contents : State → BitVec 14 → BitVec 16
  write : ∀ s p, p.active → p.chipSelect = true → p.wrEn = true →
    contents (step s p) = Function.update (contents s) p.address
      (mergeNibbles p.maskWrEn (contents s p.address) p.dataIn)
  read : ∀ s p, p.active → p.chipSelect = true → p.wrEn = false →
    contents (step s p) = contents s ∧ dataOut (step s p) = contents s p.address
  hold : ∀ s p, p.active → p.chipSelect = false →
    contents (step s p) = contents s ∧ dataOut (step s p) = dataOut s

/-- A block that holds its output register during a write. -/
def Block.ideal : Block where
  State := (BitVec 14 → BitVec 16) × BitVec 16
  step s p :=
    if !p.chipSelect then s
    else if p.wrEn then
      (Function.update s.1 p.address (mergeNibbles p.maskWrEn (s.1 p.address) p.dataIn), s.2)
    else (s.1, s.1 p.address)
  dataOut := Prod.snd
  contents := Prod.fst
  write s p _ hcs hwr := by simp [hcs, hwr]
  read s p _ hcs hwr := by simp [hcs, hwr]
  hold s p _ hcs := by simp [hcs]

end SbSpram
