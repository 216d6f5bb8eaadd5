import Icicle.Datapath.Control

/-! The combinational path of one instruction: the units of decode, execute and memory
access, connected as those stages connect them but without the registers between. -/
namespace Icicle

/-- An instruction word with the values that its units read. -/
structure Insn where
  insn : Word
  pcRdata : Word
  rs1Rdata : Word
  rs2Rdata : Word

namespace Insn

def control (n : Insn) : Control := Control.ofInsn n.insn

def imm (n : Insn) : Word := ImmediateDecoder.imm n.insn n.control.fmt

def operandMux (n : Insn) : OperandMux where
  aSel := n.control.aSel
  bSel := n.control.bSel
  pcRdata := n.pcRdata
  rs1Rdata := n.rs1Rdata
  rs2Rdata := n.rs2Rdata
  imm := n.imm

def add (n : Insn) : Adder where
  sub := n.control.addSub
  signedCompare := n.control.addSignedCompare
  a := n.operandMux.a
  b := n.operandMux.b

def logic (n : Insn) : Logic where
  op := n.control.logicOp
  a := n.rs1Rdata
  b := n.operandMux.b

def shift (n : Insn) : BarrelShifter where
  right := n.control.shiftRight
  arithmetic := n.control.shiftArithmetic
  a := n.rs1Rdata
  shamt := n.operandMux.b.setWidth 5

def branchTargetMux (n : Insn) : BranchTargetMux where
  sel := n.control.branchTargetSel
  pcRdata := n.pcRdata
  rs1Rdata := n.rs1Rdata
  imm := n.imm

def resultMux (n : Insn) : ResultMux where
  sel := n.control.resultSel
  addResult := n.add.result
  addCarry := n.add.carry
  logicResult := n.logic.result
  shiftResult := n.shift.result

def branch (n : Insn) : Branch where
  op := n.control.branchOp
  addResult := n.add.result
  addCarry := n.add.carry
  misaligned := n.branchTargetMux.misaligned

def align (n : Insn) : WordAlign where
  width := n.control.memWidth
  unsigned := n.control.memUnsigned
  addr := n.add.result
  wdata := n.rs2Rdata

theorem control_switch (n : Insn) : n.control.toControlSwitch =
    Control.switch (Opcode.ofBits (n.insn.extractLsb' 0 7)) (n.insn.extractLsb' 12 3)
      (n.insn.extractLsb' 25 7) := rfl

theorem control_fmt (n : Insn) :
    n.control.fmt = Control.format (Opcode.ofBits (n.insn.extractLsb' 0 7)) := rfl

/-- The same word at the same address, with operands that agree where they are read
and where they are the register 0. -/
structure Agrees (n n' : Insn) : Prop where
  insn : n.insn = n'.insn
  pcRdata : n.pcRdata = n'.pcRdata
  rs1 : n.control.rs1Ren = true ∨ n.control.rs1 = 0 → n.rs1Rdata = n'.rs1Rdata
  rs2 : n.control.rs2Ren = true ∨ n.control.rs2 = 0 → n.rs2Rdata = n'.rs2Rdata

/-- What can be observed of an instruction is the same. -/
structure Observes (n n' : Insn) : Prop where
  taken : n.branch.taken = n'.branch.taken
  target : n.branch.taken = true →
    n.branchTargetMux.unrounded = n'.branchTargetMux.unrounded
  address : (n.control.memLoad || n.control.memStore) = true → n.add.result = n'.add.result
  wdata : n.control.memStore = true → n.rs2Rdata = n'.rs2Rdata
  result : n.control.illegal = false → n.control.rdWen = true →
    n.resultMux.result = n'.resultMux.result

theorem observes_of_eq {n n' : Insn} (h : n = n') : Observes n n' := by
  subst h
  exact ⟨rfl, fun _ => rfl, fun _ => rfl, fun _ => rfl, fun _ _ => rfl⟩

/-- The first operand agrees in the formats that have one. -/
theorem Agrees.rs1_eq {n n' : Insn} (h : Agrees n n')
    (hfmt : [Format.r, .i, .s, .b].contains n.control.fmt = true)
    (hop : Opcode.ofBits (n.insn.extractLsb' 0 7) ≠ some .miscMem)
    (hop' : Opcode.ofBits (n.insn.extractLsb' 0 7) ≠ some .system) :
    n.rs1Rdata = n'.rs1Rdata := by
  by_cases h0 : n.control.rs1 = 0
  · exact h.rs1 (.inr h0)
  · refine h.rs1 (.inl ?_)
    have hren : n.control.rs1Ren = (n.control.rs1 != 0 &&
        [Format.r, .i, .s, .b].contains n.control.fmt &&
        !((Opcode.ofBits (n.insn.extractLsb' 0 7) == some .miscMem) ||
          (Opcode.ofBits (n.insn.extractLsb' 0 7) == some .system &&
            matchesAny (n.insn.extractLsb' 12 3)
              [Funct3.csrrwi, Funct3.csrrsi, Funct3.csrrci]))) := rfl
    rw [hren, hfmt, beq_false_of_ne hop, beq_false_of_ne hop', bne_iff_ne.mpr h0]
    rfl

theorem Agrees.rs2_eq {n n' : Insn} (h : Agrees n n')
    (hfmt : [Format.r, .s, .b].contains n.control.fmt = true) : n.rs2Rdata = n'.rs2Rdata := by
  by_cases h0 : n.control.rs2 = 0
  · exact h.rs2 (.inr h0)
  · refine h.rs2 (.inl ?_)
    have hren : n.control.rs2Ren =
        (n.control.rs2 != 0 && [Format.r, .s, .b].contains n.control.fmt) := rfl
    rw [hren, hfmt, bne_iff_ne.mpr h0]
    rfl

/-- Instructions that do not use the second operand. -/
theorem observes_of_rs1 {w pc v₁ v₂ v₂' : Word} (hb : (Control.ofInsn w).bSel ≠ .rs2)
    (hs : (Control.ofInsn w).memStore = false) : Observes ⟨w, pc, v₁, v₂⟩ ⟨w, pc, v₁, v₂'⟩ := by
  have hmux : (⟨w, pc, v₁, v₂⟩ : Insn).operandMux.b = (⟨w, pc, v₁, v₂'⟩ : Insn).operandMux.b := by
    simp only [operandMux, OperandMux.b, control]
    cases hsel : (Control.ofInsn w).bSel with
    | rs2 => exact absurd hsel hb
    | imm => rfl
    | four => rfl
  have hadd : (⟨w, pc, v₁, v₂⟩ : Insn).add = (⟨w, pc, v₁, v₂'⟩ : Insn).add := by
    rw [add, add, hmux]; rfl
  have hlogic : (⟨w, pc, v₁, v₂⟩ : Insn).logic = (⟨w, pc, v₁, v₂'⟩ : Insn).logic := by
    rw [logic, logic, hmux]; rfl
  have hshift : (⟨w, pc, v₁, v₂⟩ : Insn).shift = (⟨w, pc, v₁, v₂'⟩ : Insn).shift := by
    rw [shift, shift, hmux]; rfl
  have hbranch : (⟨w, pc, v₁, v₂⟩ : Insn).branch = (⟨w, pc, v₁, v₂'⟩ : Insn).branch := by
    rw [branch, branch, hadd]; rfl
  refine ⟨by rw [hbranch], fun _ => rfl, fun _ => by rw [hadd], ?_, ?_⟩
  · intro h
    exact absurd (hs.symm.trans h) Bool.false_ne_true
  · intro _ _
    rw [resultMux, resultMux, hadd, hlogic, hshift]
    rfl

/-- Instructions that use no operand. -/
theorem observes_of_none {w pc v₁ v₂ v₁' v₂' : Word} (ha : (Control.ofInsn w).aSel ≠ .rs1)
    (hb : (Control.ofInsn w).bSel ≠ .rs2) (hr : (Control.ofInsn w).resultSel = .adder)
    (ht : (Control.ofInsn w).branchTargetSel = .pc) (hs : (Control.ofInsn w).memStore = false) :
    Observes ⟨w, pc, v₁, v₂⟩ ⟨w, pc, v₁', v₂'⟩ := by
  have hmuxa : (⟨w, pc, v₁, v₂⟩ : Insn).operandMux.a = (⟨w, pc, v₁', v₂'⟩ : Insn).operandMux.a := by
    simp only [operandMux, OperandMux.a, control]
    cases hsel : (Control.ofInsn w).aSel with
    | rs1 => exact absurd hsel ha
    | pc => rfl
    | zero => rfl
  have hmuxb : (⟨w, pc, v₁, v₂⟩ : Insn).operandMux.b = (⟨w, pc, v₁', v₂'⟩ : Insn).operandMux.b := by
    simp only [operandMux, OperandMux.b, control]
    cases hsel : (Control.ofInsn w).bSel with
    | rs2 => exact absurd hsel hb
    | imm => rfl
    | four => rfl
  have hadd : (⟨w, pc, v₁, v₂⟩ : Insn).add = (⟨w, pc, v₁', v₂'⟩ : Insn).add := by
    rw [add, add, hmuxa, hmuxb]; rfl
  have htarget : (⟨w, pc, v₁, v₂⟩ : Insn).branchTargetMux.unrounded =
      (⟨w, pc, v₁', v₂'⟩ : Insn).branchTargetMux.unrounded := by
    simp [branchTargetMux, BranchTargetMux.unrounded, control, ht, imm]
  have htaken : (⟨w, pc, v₁, v₂⟩ : Insn).branch.taken =
      (⟨w, pc, v₁', v₂'⟩ : Insn).branch.taken := by
    simp only [branch, Branch.taken, hadd]
    rfl
  refine ⟨htaken, fun _ => htarget, fun _ => by rw [hadd], ?_, ?_⟩
  · intro h
    exact absurd (hs.symm.trans h) Bool.false_ne_true
  · intro _ _
    simp only [resultMux, ResultMux.result, control, hr, hadd]

/-- Instructions of which nothing can be observed. -/
theorem observes_of_inert {w pc v₁ v₂ v₁' v₂' : Word} (hb : (Control.ofInsn w).branchOp = .never)
    (hm : (Control.ofInsn w).memLoad = false ∧ (Control.ofInsn w).memStore = false)
    (hw : (Control.ofInsn w).illegal = true ∨ (Control.ofInsn w).rdWen = false) :
    Observes ⟨w, pc, v₁, v₂⟩ ⟨w, pc, v₁', v₂'⟩ := by
  have htaken : ∀ n : Insn, n.insn = w → n.branch.taken = false := by
    rintro n rfl
    simp only [branch, Branch.taken, control, hb]
  refine ⟨by rw [htaken _ rfl, htaken _ rfl], ?_, ?_, ?_, ?_⟩
  · intro h
    rw [htaken _ rfl] at h; cases h
  · intro h
    simp [control, hm.1, hm.2] at h
  · intro h
    simp [control, hm.2] at h
  · intro h h'
    rcases hw with hw | hw
    · exact absurd (h.symm.trans hw) Bool.false_ne_true
    · exact absurd (hw.symm.trans h') Bool.false_ne_true

theorem opImm_sel (funct3 : BitVec 3) (funct7 : BitVec 7) :
    (Control.opSwitch false funct3 funct7).bSel = .imm ∧
      (Control.opSwitch false funct3 funct7).memStore = false := by
  dsimp only [Control.opSwitch]
  split <;> exact ⟨rfl, rfl⟩

theorem miscMem_inert (funct3 : BitVec 3) :
    (Control.miscMemSwitch funct3).branchOp = .never ∧
      (Control.miscMemSwitch funct3).memLoad = false ∧
      (Control.miscMemSwitch funct3).memStore = false := by
  dsimp only [Control.miscMemSwitch]
  split <;> exact ⟨rfl, rfl, rfl⟩

/-- Operands that agree where they are read give the same observations. -/
theorem Agrees.observes {n n' : Insn} (h : Agrees n n') : Observes n n' := by
  obtain ⟨w, pc, v₁, v₂⟩ := n
  obtain ⟨w', pc', v₁', v₂'⟩ := n'
  obtain rfl : w = w' := h.insn
  obtain rfl : pc = pc' := h.pcRdata
  have hfmt : (Control.ofInsn w).fmt = Control.format (Opcode.ofBits (w.extractLsb' 0 7)) := rfl
  have hsw : (Control.ofInsn w).toControlSwitch = Control.switch (Opcode.ofBits (w.extractLsb' 0 7))
    (w.extractLsb' 12 3) (w.extractLsb' 25 7) := rfl
  have h1 := h.rs1_eq
  have h2 := h.rs2_eq
  simp only [control, hfmt] at h1 h2
  have hrd : Opcode.ofBits (w.extractLsb' 0 7) = some .miscMem →
      (Control.ofInsn w).rdWen = false := fun ho => by simp [Control.ofInsn, ho]
  generalize Opcode.ofBits (w.extractLsb' 0 7) = o at *
  -- formats with both operands leave nothing to show
  have hboth : Control.format o = .r ∨ Control.format o = .s ∨ Control.format o = .b →
      o ≠ some .miscMem → o ≠ some .system → Observes ⟨w, pc, v₁, v₂⟩ ⟨w, pc, v₁', v₂'⟩ := by
    intro hf hm hs
    obtain rfl : v₁ = v₁' := h1 (by rcases hf with hf | hf | hf <;> rw [hf] <;> rfl) hm hs
    obtain rfl : v₂ = v₂' := h2 (by rcases hf with hf | hf | hf <;> rw [hf] <;> rfl)
    exact observes_of_eq rfl
  cases o with
  | none => exact hboth (.inl rfl) (by simp) (by simp)
  | some o =>
    cases o with
    | lui =>
      exact observes_of_none (by simp [hsw, Control.switch]) (by simp [hsw, Control.switch])
        (by rw [hsw]; rfl) (by rw [hsw]; rfl) (by rw [hsw]; rfl)
    | auipc =>
      exact observes_of_none (by simp [hsw, Control.switch]) (by simp [hsw, Control.switch])
        (by rw [hsw]; rfl) (by rw [hsw]; rfl) (by rw [hsw]; rfl)
    | jal =>
      exact observes_of_none (by simp [hsw, Control.switch]) (by simp [hsw, Control.switch])
        (by rw [hsw]; rfl) (by rw [hsw]; rfl) (by rw [hsw]; rfl)
    | jalr =>
      obtain rfl : v₁ = v₁' := h1 rfl (by simp) (by simp)
      exact observes_of_rs1 (by simp [hsw, Control.switch]) (by rw [hsw]; rfl)
    | branch => exact hboth (.inr (.inr rfl)) (by simp) (by simp)
    | load =>
      obtain rfl : v₁ = v₁' := h1 rfl (by simp) (by simp)
      exact observes_of_rs1 (by simp [hsw, Control.switch]) (by rw [hsw]; rfl)
    | store => exact hboth (.inr (.inl rfl)) (by simp) (by simp)
    | opImm =>
      obtain rfl : v₁ = v₁' := h1 rfl (by simp) (by simp)
      obtain ⟨hb, hs⟩ := opImm_sel (w.extractLsb' 12 3) (w.extractLsb' 25 7)
      exact observes_of_rs1 (by rw [hsw, Control.switch, hb]; simp) (by rw [hsw]; exact hs)
    | op => exact hboth (.inl rfl) (by simp) (by simp)
    | miscMem =>
      obtain ⟨hb, hm⟩ := miscMem_inert (w.extractLsb' 12 3)
      exact observes_of_inert (by rw [hsw]; exact hb) (by rw [hsw]; exact hm) (.inr (hrd rfl))
    | system =>
      exact observes_of_inert (by rw [hsw]; rfl) (by rw [hsw]; exact ⟨rfl, rfl⟩)
        (.inl (by rw [hsw]; rfl))

end Insn
end Icicle
