import Mathlib.Tactic

/-! The combinational units of the execute, memory and writeback stages. Each
unit is the structure of its inputs; its outputs are functions of it. -/
namespace Icicle

abbrev Word := BitVec 32

inductive ASel where
  | rs1 | pc | zero
  deriving DecidableEq

inductive BSel where
  | rs2 | imm | four
  deriving DecidableEq

structure OperandMux where
  aSel : ASel
  bSel : BSel
  pcRdata : Word
  rs1Rdata : Word
  rs2Rdata : Word
  imm : Word

def OperandMux.a (m : OperandMux) : Word :=
  match m.aSel with
  | .rs1 => m.rs1Rdata
  | .pc => m.pcRdata
  | .zero => 0

def OperandMux.b (m : OperandMux) : Word :=
  match m.bSel with
  | .rs2 => m.rs2Rdata
  | .imm => m.imm
  | .four => 4

structure Adder where
  sub : Bool
  signedCompare : Bool
  a : Word
  b : Word

namespace Adder

/-- The most significant bit is inverted to perform a signed comparison. -/
def invertMsb (signedCompare : Bool) (x : Word) : Word :=
  BitVec.ofBool (signedCompare ^^ x.getLsbD 31) ++ x.extractLsb' 0 31

/-- `Cat(result, carry)`: the sum or the difference, with one bit more than the operands. -/
def resultCarry (m : Adder) : BitVec 33 :=
  let a := invertMsb m.signedCompare m.a
  let b := invertMsb m.signedCompare m.b
  if m.sub then a.setWidth 33 - b.setWidth 33 else a.setWidth 33 + b.setWidth 33

def result (m : Adder) : Word := m.resultCarry.extractLsb' 0 32

def carry (m : Adder) : Bool := m.resultCarry.getLsbD 32

end Adder

inductive LogicOp where
  | xor | or | and
  deriving DecidableEq

/-- The pattern `1` is no operation. -/
def LogicOp.ofBits : BitVec 2 → Option LogicOp
  | 0#2 => some .xor
  | 2#2 => some .or
  | 3#2 => some .and
  | _ => none

structure Logic where
  op : Option LogicOp
  a : Word
  b : Word

def Logic.result (m : Logic) : Word :=
  match m.op with
  | some .xor => m.a ^^^ m.b
  | some .or => m.a ||| m.b
  | some .and => m.a &&& m.b
  | none => 0

structure BarrelShifter where
  right : Bool
  arithmetic : Bool
  a : Word
  shamt : BitVec 5

/-- Left shifts reverse the input and the output of the right shifter. -/
def BarrelShifter.result (m : BarrelShifter) : Word :=
  let aReverse := if m.right then m.a else m.a.reverse
  let aSigned : BitVec 33 := BitVec.ofBool (m.arithmetic && aReverse.getLsbD 31) ++ aReverse
  let resultReverse : Word := (aSigned.sshiftRight m.shamt.toNat).setWidth 32
  if m.right then resultReverse else resultReverse.reverse

inductive ResultSel where
  | adder | slt | logic | shift
  deriving DecidableEq

structure ResultMux where
  sel : ResultSel
  addResult : Word
  addCarry : Bool
  logicResult : Word
  shiftResult : Word

def ResultMux.result (m : ResultMux) : Word :=
  match m.sel with
  | .adder => m.addResult
  | .slt => (BitVec.ofBool m.addCarry).setWidth 32
  | .logic => m.logicResult
  | .shift => m.shiftResult

inductive BranchTargetSel where
  | pc | rs1
  deriving DecidableEq

structure BranchTargetMux where
  sel : BranchTargetSel
  pcRdata : Word
  rs1Rdata : Word
  imm : Word

namespace BranchTargetMux

/-- The target before it is rounded to a word. -/
def unrounded (m : BranchTargetMux) : Word :=
  (if m.sel == .pc then m.pcRdata else m.rs1Rdata) + m.imm

def target (m : BranchTargetMux) : Word := m.unrounded.extractLsb' 2 30 ++ 0#2

def misaligned (m : BranchTargetMux) : Bool := m.unrounded.getLsbD 1

end BranchTargetMux

inductive BranchOp where
  | never | always | eq | ne | lt | ge
  deriving DecidableEq

structure Branch where
  op : BranchOp
  addResult : Word
  addCarry : Bool
  misaligned : Bool

namespace Branch

def taken (m : Branch) : Bool :=
  let zero := m.addResult == 0
  match m.op with
  | .never => false
  | .always => true
  | .eq => zero
  | .ne => !zero
  | .lt => m.addCarry
  | .ge => !m.addCarry

def trap (m : Branch) : Bool := m.taken && m.misaligned

end Branch

inductive WDataSel where
  | aluResult | memRdata
  deriving DecidableEq

structure WDataMux where
  sel : WDataSel
  result : Word
  memRdata : Word

def WDataMux.rdWdata (m : WDataMux) : Word :=
  match m.sel with
  | .aluResult => m.result
  | .memRdata => m.memRdata

namespace Adder

theorem invertMsb_false (x : Word) : invertMsb false x = x := by
  apply BitVec.eq_of_getLsbD_eq
  intro i hi
  simp only [invertMsb, BitVec.getLsbD_append, Bool.false_bne, BitVec.getLsbD_extractLsb',
    BitVec.getLsbD_ofBool]
  by_cases h : i < 31
  · simp [h]
  · obtain rfl : i = 31 := by omega
    simp

/-- Inverting the most significant bit adds `2 ^ 31`. -/
theorem invertMsb_true_toNat (x : Word) :
    (invertMsb true x).toNat = (x.toNat + 2 ^ 31) % 2 ^ 32 := by
  have hx := x.isLt
  have hlow : (x.extractLsb' 0 31).toNat = x.toNat % 2 ^ 31 := by simp
  have hmsb : x.getLsbD 31 = decide (2 ^ 31 ≤ x.toNat) :=
    (BitVec.msb_eq_getLsbD_last x).symm.trans (BitVec.msb_eq_decide x)
  have hlt := Nat.mod_lt x.toNat (show 2 ^ 31 > 0 by norm_num)
  have happ : (invertMsb true x).toNat =
      (true ^^ x.getLsbD 31).toNat * 2 ^ 31 + x.toNat % 2 ^ 31 := by
    rw [invertMsb, BitVec.toNat_append, hlow, ← Nat.shiftLeft_add_eq_or_of_lt hlt,
      Nat.shiftLeft_eq, BitVec.toNat_ofBool]
  rw [happ, hmsb]
  by_cases h : 2 ^ 31 ≤ x.toNat
  · rw [decide_eq_true h, Bool.true_xor, Bool.not_true, Bool.toNat_false]
    omega
  · rw [decide_eq_false h, Bool.true_xor, Bool.not_false, Bool.toNat_true]
    omega

/-- An addition whose operands are not inverted. -/
theorem result_add {m : Adder} (hs : m.sub = false) (hc : m.signedCompare = false) :
    m.result = m.a + m.b := by
  apply BitVec.eq_of_toNat_eq
  simp [result, resultCarry, hs, hc, invertMsb_false]

/-- Both inversions cancel in a difference. -/
theorem result_sub {m : Adder} (h : m.sub = true) : m.result = m.a - m.b := by
  have ha := m.a.isLt
  have hb := m.b.isLt
  apply BitVec.eq_of_toNat_eq
  cases hs : m.signedCompare
  · simp [result, resultCarry, h, hs, invertMsb_false]
    omega
  · simp [result, resultCarry, h, hs, invertMsb_true_toNat]
    omega

/-- Bit 32 of a 33-bit difference is the borrow. -/
theorem borrow (x y : Word) :
    (x.setWidth 33 - y.setWidth 33).getLsbD 32 = decide (x.toNat < y.toNat) := by
  have hx := x.isLt
  have hy := y.isLt
  have hmsb : (x.setWidth 33 - y.setWidth 33).getLsbD 32 =
      decide (2 ^ 32 ≤ (x.setWidth 33 - y.setWidth 33).toNat) :=
    (BitVec.msb_eq_getLsbD_last _).symm.trans (BitVec.msb_eq_decide _)
  rw [hmsb]
  simp only [BitVec.toNat_sub, BitVec.toNat_setWidth, decide_eq_decide]
  omega

theorem carry_ult {m : Adder} (h : m.sub = true) (hc : m.signedCompare = false) :
    m.carry = m.a.ult m.b := by
  simp only [carry, resultCarry, h, hc, if_true, invertMsb_false, borrow, BitVec.ult]

theorem carry_slt {m : Adder} (h : m.sub = true) (hc : m.signedCompare = true) :
    m.carry = m.a.slt m.b := by
  have ha := m.a.isLt
  have hb := m.b.isLt
  simp only [carry, resultCarry, h, hc, if_true, borrow, BitVec.slt, invertMsb_true_toNat,
    BitVec.toInt_eq_toNat_cond, decide_eq_decide]
  split <;> split <;> omega

end Adder

namespace BarrelShifter

/-- A word shifted right under the bit `c`, which is repeated. -/
theorem widened_getLsbD (c : Bool) (x : Word) (s : ℕ) {i : ℕ} (hi : i < 32) :
    (((BitVec.ofBool c ++ x : BitVec 33).sshiftRight s).setWidth 32).getLsbD i =
      if s + i < 32 then x.getLsbD (s + i) else c := by
  have hmsb : (BitVec.ofBool c ++ x : BitVec 33).msb = c := by
    rw [BitVec.msb_eq_getLsbD_last, BitVec.getLsbD_append]
    simp
  rw [BitVec.getLsbD_setWidth, BitVec.getLsbD_sshiftRight, hmsb, BitVec.getLsbD_append,
    BitVec.getLsbD_ofBool]
  have h33 : ¬ 33 ≤ i := by omega
  by_cases h : s + i < 32
  · simp [h, hi, h33, show s + i < 1 + 32 by omega]
  · by_cases h' : s + i < 1 + 32
    · simp [hi, show i < 33 by omega, show s + i = 32 by omega]
    · simp [h, hi, h33, h']

theorem result_right {m : BarrelShifter} (hr : m.right = true) (ha : m.arithmetic = false) :
    m.result = m.a >>> m.shamt.toNat := by
  apply BitVec.eq_of_getLsbD_eq
  intro i hi
  simp only [result, hr, ha, if_true, Bool.false_and]
  rw [widened_getLsbD _ _ _ hi, BitVec.getLsbD_ushiftRight]
  split
  · rfl
  · exact (BitVec.getLsbD_of_ge _ _ (by omega)).symm

theorem result_right_arithmetic {m : BarrelShifter} (hr : m.right = true)
    (ha : m.arithmetic = true) : m.result = m.a.sshiftRight m.shamt.toNat := by
  apply BitVec.eq_of_getLsbD_eq
  intro i hi
  simp only [result, hr, ha, if_true, Bool.true_and]
  rw [widened_getLsbD _ _ _ hi, BitVec.getLsbD_sshiftRight, BitVec.msb_eq_getLsbD_last]
  simp [hi]

theorem result_left {m : BarrelShifter} (hr : m.right = false) (ha : m.arithmetic = false) :
    m.result = m.a <<< m.shamt.toNat := by
  apply BitVec.eq_of_getLsbD_eq
  intro i hi
  simp only [result, hr, ha, Bool.false_eq_true, if_false, Bool.false_and]
  rw [BitVec.getLsbD_reverse, BitVec.getMsbD_eq_getLsbD, widened_getLsbD _ _ _ (by omega),
    BitVec.getLsbD_shiftLeft, BitVec.getLsbD_reverse, BitVec.getMsbD_eq_getLsbD]
  by_cases h : i < m.shamt.toNat
  · simp [h, show ¬ m.shamt.toNat + (32 - 1 - i) < 32 by omega]
  · simp [hi, h, show m.shamt.toNat + (32 - 1 - i) < 32 by omega,
      show 32 - 1 - (m.shamt.toNat + (32 - 1 - i)) = i - m.shamt.toNat by omega]

end BarrelShifter

namespace BranchTargetMux

/-- The rounded target keeps all but the two low bits. -/
theorem target_getLsbD (m : BranchTargetMux) (i : ℕ) :
    m.target.getLsbD i = (decide (2 ≤ i) && m.unrounded.getLsbD i) := by
  unfold target
  rw [BitVec.getLsbD_append, BitVec.getLsbD_extractLsb']
  by_cases h : i < 2
  · simp [h]
  · have h2 : 2 + (i - 2) = i := by omega
    by_cases h32 : i < 32
    · simp [h, show i - 2 < 30 by omega, h2, show 2 ≤ i by omega]
    · simp [h, show ¬ i - 2 < 30 by omega, BitVec.getLsbD_of_ge m.unrounded i (by omega)]

end BranchTargetMux
end Icicle
