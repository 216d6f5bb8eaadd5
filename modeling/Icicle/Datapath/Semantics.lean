import Icicle.Isa.Rv32i
import Icicle.Datapath.Instruction

/-! The combinational path implements RV32I: on a legal word its units compute what the
manual says the instruction does. -/
namespace Icicle

namespace ImmediateDecoder
variable (w : Word)

theorem immI_eq : immI w = (Rv32i.immI w).signExtend 32 := by
  apply BitVec.eq_of_getLsbD_eq
  intro i hi
  simp only [immI, Rv32i.immI, signBits, BitVec.getLsbD_append, BitVec.getLsbD_signExtend,
    BitVec.getLsbD_extractLsb', BitVec.msb_eq_getLsbD_last]
  interval_cases i <;> rfl

theorem immS_eq : immS w = (Rv32i.immS w).signExtend 32 := by
  apply BitVec.eq_of_getLsbD_eq
  intro i hi
  simp only [immS, Rv32i.immS, signBits, BitVec.getLsbD_append, BitVec.getLsbD_signExtend,
    BitVec.getLsbD_extractLsb', BitVec.msb_eq_getLsbD_last]
  interval_cases i <;> rfl

theorem immB_eq : immB w = (Rv32i.immB w ++ 0#1).signExtend 32 := by
  apply BitVec.eq_of_getLsbD_eq
  intro i hi
  simp only [immB, Rv32i.immB, signBits, BitVec.getLsbD_append, BitVec.getLsbD_signExtend,
    BitVec.getLsbD_extractLsb', BitVec.msb_eq_getLsbD_last]
  interval_cases i <;> rfl

theorem immU_eq : immU w = Rv32i.immU w ++ 0#12 := by
  apply BitVec.eq_of_getLsbD_eq
  intro i hi
  simp only [immU, Rv32i.immU, BitVec.getLsbD_append, BitVec.getLsbD_extractLsb']
  interval_cases i <;> rfl

theorem immJ_eq : immJ w = (Rv32i.immJ w ++ 0#1).signExtend 32 := by
  apply BitVec.eq_of_getLsbD_eq
  intro i hi
  simp only [immJ, Rv32i.immJ, signBits, BitVec.getLsbD_append, BitVec.getLsbD_signExtend,
    BitVec.getLsbD_extractLsb', BitVec.msb_eq_getLsbD_last]
  interval_cases i <;> rfl

/-- The shift amount is the low part of the immediate. -/
theorem immI_shamt : (immI w).setWidth 5 = Rv32i.rs2 w := by
  apply BitVec.eq_of_getLsbD_eq
  intro i hi
  rw [immI_eq]
  simp only [Rv32i.immI, Rv32i.rs2, BitVec.getLsbD_setWidth, BitVec.getLsbD_signExtend,
    BitVec.getLsbD_extractLsb']
  interval_cases i <;> rfl

end ImmediateDecoder

def MemWidth.ofManual : Rv32i.Width → MemWidth
  | .byte => .byte
  | .half => .half
  | .word => .word

theorem Opcode.bits_of_ofBits {b : BitVec 7} {o : Opcode} (h : Opcode.ofBits b = some o) :
    b = match o with
      | .lui => 0b0110111#7
      | .auipc => 0b0010111#7
      | .jal => 0b1101111#7
      | .jalr => 0b1100111#7
      | .branch => 0b1100011#7
      | .load => 0b0000011#7
      | .store => 0b0100011#7
      | .opImm => 0b0010011#7
      | .op => 0b0110011#7
      | .miscMem => 0b0001111#7
      | .system => 0b1110011#7 := by
  unfold ofBits at h
  split at h <;> cases h <;> rfl

theorem funct3_cases (f : BitVec 3) : f = 0b000#3 ∨ f = 0b001#3 ∨ f = 0b010#3 ∨ f = 0b011#3 ∨
    f = 0b100#3 ∨ f = 0b101#3 ∨ f = 0b110#3 ∨ f = 0b111#3 := by
  revert f
  decide

theorem funct7_cases {f : BitVec 7} (h : (!matchesAny f [Funct7.zero, Funct7.subSra]) = false) :
    f = 0b0000000#7 ∨ f = 0b0100000#7 := by
  rw [Bool.not_eq_false', matchesAny, List.contains_iff_mem, List.mem_pair] at h
  exact h

namespace Control

/-- The signals of a conditional branch. -/
def Compares (c : ControlSwitch) : Rv32i.BranchCond → Prop
  | .beq => c.branchOp = .eq
  | .bne => c.branchOp = .ne
  | .blt => c.branchOp = .lt ∧ c.addSignedCompare = true
  | .bge => c.branchOp = .ge ∧ c.addSignedCompare = true
  | .bltu => c.branchOp = .lt ∧ c.addSignedCompare = false
  | .bgeu => c.branchOp = .ge ∧ c.addSignedCompare = false

theorem branchSwitch_legal {f3 : BitVec 3} (h : (branchSwitch f3).illegal = false) :
    ∃ cond, Rv32i.BranchCond.ofFunct3 f3 = some cond ∧ Compares (branchSwitch f3) cond ∧
      (branchSwitch f3).addSub = true := by
  rcases funct3_cases f3 with rfl | rfl | rfl | rfl | rfl | rfl | rfl | rfl
  · exact ⟨.beq, rfl, rfl, rfl⟩
  · exact ⟨.bne, rfl, rfl, rfl⟩
  · cases h
  · cases h
  · exact ⟨.blt, rfl, ⟨rfl, rfl⟩, rfl⟩
  · exact ⟨.bge, rfl, ⟨rfl, rfl⟩, rfl⟩
  · exact ⟨.bltu, rfl, ⟨rfl, rfl⟩, rfl⟩
  · exact ⟨.bgeu, rfl, ⟨rfl, rfl⟩, rfl⟩

/-- The signals of an operation of the ALU, with the fields that are not decoded. -/
def Performs (c : ControlSwitch) (f3 : BitVec 3) (f7 : BitVec 7) : Rv32i.AluOp → Prop
  | .add => c.resultSel = .adder ∧ c.addSub = false ∧ c.addSignedCompare = false
  | .sub => c.resultSel = .adder ∧ c.addSub = true
  | .slt => c.resultSel = .slt ∧ c.addSub = true ∧ c.addSignedCompare = true
  | .sltu => c.resultSel = .slt ∧ c.addSub = true ∧ c.addSignedCompare = false
  | .xor => c.resultSel = .logic ∧ LogicOp.ofBits (f3.extractLsb' 0 2) = some .xor
  | .or => c.resultSel = .logic ∧ LogicOp.ofBits (f3.extractLsb' 0 2) = some .or
  | .and => c.resultSel = .logic ∧ LogicOp.ofBits (f3.extractLsb' 0 2) = some .and
  | .sll => c.resultSel = .shift ∧ f3.getLsbD 2 = false ∧ f7.getLsbD 5 = false
  | .srl => c.resultSel = .shift ∧ f3.getLsbD 2 = true ∧ f7.getLsbD 5 = false
  | .sra => c.resultSel = .shift ∧ f3.getLsbD 2 = true ∧ f7.getLsbD 5 = true

theorem opSwitch_legal {f3 : BitVec 3} {f7 : BitVec 7}
    (h : (opSwitch true f3 f7).illegal = false) :
    ∃ o, Rv32i.AluOp.ofFunct f3 f7 = some o ∧ Performs (opSwitch true f3 f7) f3 f7 o := by
  have hzero : ∀ {f : BitVec 7}, (true && f != Funct7.zero) = false → f = 0b0000000#7 := by simp
  rcases funct3_cases f3 with rfl | rfl | rfl | rfl | rfl | rfl | rfl | rfl
  · rcases funct7_cases h with rfl | rfl
    · exact ⟨.add, rfl, rfl, rfl, rfl⟩
    · exact ⟨.sub, rfl, rfl, rfl⟩
  · obtain rfl := hzero h
    exact ⟨.sll, rfl, rfl, rfl, rfl⟩
  · obtain rfl := hzero h
    exact ⟨.slt, rfl, rfl, rfl, rfl⟩
  · obtain rfl := hzero h
    exact ⟨.sltu, rfl, rfl, rfl, rfl⟩
  · obtain rfl := hzero h
    exact ⟨.xor, rfl, rfl, rfl⟩
  · rcases funct7_cases h with rfl | rfl
    · exact ⟨.srl, rfl, rfl, rfl, rfl⟩
    · exact ⟨.sra, rfl, rfl, rfl, rfl⟩
  · obtain rfl := hzero h
    exact ⟨.or, rfl, rfl, rfl⟩
  · obtain rfl := hzero h
    exact ⟨.and, rfl, rfl, rfl⟩

/-- The upper bits of an immediate are not decoded, except those above a shift amount. -/
theorem opImmSwitch_legal {f3 : BitVec 3} {f7 : BitVec 7}
    (h : (opSwitch false f3 f7).illegal = false) :
    (∃ o, Rv32i.ImmOp.ofFunct3 f3 = some o ∧ Performs (opSwitch false f3 f7) f3 f7 o.alu) ∨
    (Rv32i.ImmOp.ofFunct3 f3 = none ∧ ∃ o, Rv32i.ShiftOp.ofFunct f3 f7 = some o ∧
      Performs (opSwitch false f3 f7) f3 f7 o.alu) := by
  have hzero : ∀ {f : BitVec 7}, (f != Funct7.zero) = false → f = 0b0000000#7 := by simp
  rcases funct3_cases f3 with rfl | rfl | rfl | rfl | rfl | rfl | rfl | rfl
  · exact .inl ⟨.addi, rfl, rfl, rfl, rfl⟩
  · obtain rfl := hzero h
    exact .inr ⟨rfl, .slli, rfl, rfl, rfl, rfl⟩
  · exact .inl ⟨.slti, rfl, rfl, rfl, rfl⟩
  · exact .inl ⟨.sltiu, rfl, rfl, rfl, rfl⟩
  · exact .inl ⟨.xori, rfl, rfl, rfl⟩
  · rcases funct7_cases h with rfl | rfl
    · exact .inr ⟨rfl, .srli, rfl, rfl, rfl, rfl⟩
    · exact .inr ⟨rfl, .srai, rfl, rfl, rfl, rfl⟩
  · exact .inl ⟨.ori, rfl, rfl, rfl⟩
  · exact .inl ⟨.andi, rfl, rfl, rfl⟩

theorem load_legal {f3 : BitVec 3} (h : (!matchesAny f3
    [Funct3.lb, Funct3.lh, Funct3.lw, Funct3.lbu, Funct3.lhu]) = false) :
    ∃ o, Rv32i.LoadOp.ofFunct3 f3 = some o ∧
      MemWidth.ofBits (f3.extractLsb' 0 2) = some (.ofManual o.width) ∧
      f3.getLsbD 2 = o.zeroExtends := by
  rcases funct3_cases f3 with rfl | rfl | rfl | rfl | rfl | rfl | rfl | rfl
  · exact ⟨.lb, rfl, rfl, rfl⟩
  · exact ⟨.lh, rfl, rfl, rfl⟩
  · exact ⟨.lw, rfl, rfl, rfl⟩
  · cases h
  · exact ⟨.lbu, rfl, rfl, rfl⟩
  · exact ⟨.lhu, rfl, rfl, rfl⟩
  · cases h
  · cases h

theorem store_legal {f3 : BitVec 3}
    (h : (!matchesAny f3 [Funct3.sb, Funct3.sh, Funct3.sw]) = false) :
    ∃ o, Rv32i.StoreOp.ofFunct3 f3 = some o ∧
      MemWidth.ofBits (f3.extractLsb' 0 2) = some (.ofManual o.width) := by
  rcases funct3_cases f3 with rfl | rfl | rfl | rfl | rfl | rfl | rfl | rfl
  · exact ⟨.sb, rfl, rfl⟩
  · exact ⟨.sh, rfl, rfl⟩
  · exact ⟨.sw, rfl, rfl⟩
  · cases h
  · cases h
  · cases h
  · cases h
  · cases h

end Control

namespace Insn

section Units
variable {n : Insn}

theorem result_adder (hr : n.control.resultSel = .adder) : n.resultMux.result = n.add.result := by
  simp only [resultMux, ResultMux.result, hr]

/-- The comparison of the adder as the value of an instruction. -/
theorem result_slt (hr : n.control.resultSel = .slt) :
    n.resultMux.result = if n.add.carry = true then 1 else 0 := by
  simp only [resultMux, ResultMux.result, hr]
  cases n.add.carry <;> rfl

theorem carry_signed (hs : n.control.addSub = true) (hc : n.control.addSignedCompare = true) :
    n.add.carry = decide (n.operandMux.a.toInt < n.operandMux.b.toInt) :=
  Adder.carry_slt hs hc

theorem carry_unsigned (hs : n.control.addSub = true) (hc : n.control.addSignedCompare = false) :
    n.add.carry = decide (n.operandMux.a.toNat < n.operandMux.b.toNat) :=
  Adder.carry_ult hs hc

theorem result_logic (hr : n.control.resultSel = .logic) {o : LogicOp}
    (ho : LogicOp.ofBits ((n.insn.extractLsb' 12 3).extractLsb' 0 2) = some o) :
    n.resultMux.result = Logic.result ⟨some o, n.rs1Rdata, n.operandMux.b⟩ := by
  have hop : n.control.logicOp = some o := ho
  simp only [resultMux, ResultMux.result, hr, logic, hop]

theorem shift_shamt : n.shift.shamt.toNat = n.operandMux.b.toNat % 32 := BitVec.toNat_setWidth ..

/-- An operation of the ALU on the first operand and whatever the second one is. -/
theorem result_of_performs {o : Rv32i.AluOp} (ha : n.control.aSel = .rs1)
    (h : Control.Performs n.control.toControlSwitch (n.insn.extractLsb' 12 3)
      (n.insn.extractLsb' 25 7) o) :
    n.resultMux.result = o.eval n.rs1Rdata n.operandMux.b := by
  have hmux : n.operandMux.a = n.rs1Rdata := by simp only [operandMux, OperandMux.a, ha]
  cases o with
  | add =>
    obtain ⟨hr, hs, hc⟩ := h
    rw [result_adder hr, Adder.result_add hs hc, ← hmux]
    rfl
  | sub =>
    obtain ⟨hr, hs⟩ := h
    rw [result_adder hr, Adder.result_sub hs, ← hmux]
    rfl
  | slt =>
    obtain ⟨hr, hs, hc⟩ := h
    rw [result_slt hr, carry_signed hs hc, hmux]
    simp only [decide_eq_true_eq, Rv32i.AluOp.eval]
  | sltu =>
    obtain ⟨hr, hs, hc⟩ := h
    rw [result_slt hr, carry_unsigned hs hc, hmux]
    simp only [decide_eq_true_eq, Rv32i.AluOp.eval]
  | xor =>
    obtain ⟨hr, hl⟩ := h
    exact result_logic hr hl
  | or =>
    obtain ⟨hr, hl⟩ := h
    exact result_logic hr hl
  | and =>
    obtain ⟨hr, hl⟩ := h
    exact result_logic hr hl
  | sll =>
    obtain ⟨hr, h3, h7⟩ := h
    have hshift : n.resultMux.result = n.shift.result := by
      simp only [resultMux, ResultMux.result, hr]
    rw [hshift, BarrelShifter.result_left h3 h7, shift_shamt]
    rfl
  | srl =>
    obtain ⟨hr, h3, h7⟩ := h
    have hshift : n.resultMux.result = n.shift.result := by
      simp only [resultMux, ResultMux.result, hr]
    rw [hshift, BarrelShifter.result_right h3 h7, shift_shamt]
    rfl
  | sra =>
    obtain ⟨hr, h3, h7⟩ := h
    have hshift : n.resultMux.result = n.shift.result := by
      simp only [resultMux, ResultMux.result, hr]
    rw [hshift, BarrelShifter.result_right_arithmetic h3 h7, shift_shamt]
    rfl

/-- The condition of a branch. -/
theorem taken_of_compares {c : Rv32i.BranchCond} (ha : n.control.aSel = .rs1)
    (hb : n.control.bSel = .rs2) (hs : n.control.addSub = true)
    (h : Control.Compares n.control.toControlSwitch c) :
    n.branch.taken = c.holds n.rs1Rdata n.rs2Rdata := by
  have hmuxa : n.operandMux.a = n.rs1Rdata := by simp only [operandMux, OperandMux.a, ha]
  have hmuxb : n.operandMux.b = n.rs2Rdata := by simp only [operandMux, OperandMux.b, hb]
  have hzero : (n.add.result == 0) = (n.rs1Rdata == n.rs2Rdata) := by
    rw [Adder.result_sub hs, ← hmuxa, ← hmuxb, Bool.eq_iff_iff, beq_iff_eq, beq_iff_eq]
    have hsub : n.operandMux.a - n.operandMux.b = 0#32 ↔
        n.operandMux.a = 0#32 + n.operandMux.b := BitVec.sub_eq_iff_eq_add
    rw [BitVec.zero_add] at hsub
    exact hsub
  cases c with
  | beq =>
    have hop : n.control.branchOp = .eq := h
    simp only [branch, Branch.taken, hop, hzero, Rv32i.BranchCond.holds]
  | bne =>
    have hop : n.control.branchOp = .ne := h
    simp only [branch, Branch.taken, hop, hzero, Rv32i.BranchCond.holds, bne]
  | blt =>
    obtain ⟨hop, hc⟩ := h
    simp only [branch, Branch.taken, hop, carry_signed hs hc, hmuxa, hmuxb, Rv32i.BranchCond.holds]
  | bge =>
    obtain ⟨hop, hc⟩ := h
    simp only [branch, Branch.taken, hop, carry_signed hs hc, hmuxa, hmuxb, Rv32i.BranchCond.holds,
      ← decide_not, not_lt]
  | bltu =>
    obtain ⟨hop, hc⟩ := h
    simp only [branch, Branch.taken, hop, carry_unsigned hs hc, hmuxa, hmuxb,
      Rv32i.BranchCond.holds]
  | bgeu =>
    obtain ⟨hop, hc⟩ := h
    simp only [branch, Branch.taken, hop, carry_unsigned hs hc, hmuxa, hmuxb,
      Rv32i.BranchCond.holds, ← decide_not, not_lt]

theorem taken_never (h : n.control.branchOp = .never) : n.branch.taken = false := by
  simp only [branch, Branch.taken, h]

theorem taken_always (h : n.control.branchOp = .always) : n.branch.taken = true := by
  simp only [branch, Branch.taken, h]

theorem result_adder_pc (hr : n.control.resultSel = .adder) (hs : n.control.addSub = false)
    (hc : n.control.addSignedCompare = false) :
    n.resultMux.result = n.operandMux.a + n.operandMux.b := by
  rw [result_adder hr, Adder.result_add hs hc]
  rfl

/-- The address of an access. -/
theorem address_eq (ha : n.control.aSel = .rs1) (hb : n.control.bSel = .imm)
    (hs : n.control.addSub = false) (hc : n.control.addSignedCompare = false) :
    n.add.result = n.rs1Rdata + n.imm := by
  rw [Adder.result_add hs hc]
  simp only [add, operandMux, OperandMux.a, OperandMux.b, ha, hb]

end Units

/-- The units compute what the manual says that the instruction does. -/
structure Implements (n : Insn) (i : Rv32i.Instruction) : Prop where
  value : ∀ v, i.value n.pcRdata n.rs1Rdata n.rs2Rdata = some v →
    n.control.wdataSel = .aluResult ∧ n.resultMux.result = v
  taken : n.branch.taken = i.taken n.rs1Rdata n.rs2Rdata
  target : ∀ u, i.target n.pcRdata n.rs1Rdata = some u →
    (∀ k, n.branchTargetMux.target.getLsbD k = (decide (2 ≤ k) && u.getLsbD k)) ∧
      n.branchTargetMux.misaligned = u.getLsbD 1
  load : ∀ w z a, i.access n.rs1Rdata = some (.load w z a) →
    n.control.memLoad = true ∧ n.control.memStore = false ∧
      n.control.memWidth = some (.ofManual w) ∧ n.control.memUnsigned = z ∧ n.add.result = a ∧
      n.control.wdataSel = .memRdata
  store : ∀ w a, i.access n.rs1Rdata = some (.store w a) →
    n.control.memLoad = false ∧ n.control.memStore = true ∧
      n.control.memWidth = some (.ofManual w) ∧ n.add.result = a
  noAccess : i.access n.rs1Rdata = none → n.control.memLoad = false ∧ n.control.memStore = false
  fenceI : n.control.fenceI = decide (i = .fenceI)

section Classes
variable {n : Insn}

/-- An instruction without an access to memory. -/
theorem implements_of_noAccess {i : Rv32i.Instruction} (haccess : i.access n.rs1Rdata = none)
    (hmem : n.control.memLoad = false ∧ n.control.memStore = false)
    (hvalue : ∀ v, i.value n.pcRdata n.rs1Rdata n.rs2Rdata = some v →
      n.control.wdataSel = .aluResult ∧ n.resultMux.result = v)
    (htaken : n.branch.taken = i.taken n.rs1Rdata n.rs2Rdata)
    (htarget : ∀ u, i.target n.pcRdata n.rs1Rdata = some u →
      (∀ k, n.branchTargetMux.target.getLsbD k = (decide (2 ≤ k) && u.getLsbD k)) ∧
        n.branchTargetMux.misaligned = u.getLsbD 1)
    (hfence : n.control.fenceI = decide (i = .fenceI)) : Implements n i where
  value := hvalue
  taken := htaken
  target := htarget
  load w z a ha := by
    rw [haccess] at ha
    cases ha
  store w a ha := by
    rw [haccess] at ha
    cases ha
  noAccess _ := hmem
  fenceI := hfence

/-- An instruction that only computes a value. -/
theorem implements_of_value {i : Rv32i.Instruction} {v : Word}
    (hacc : Control.NoAccess n.control.toControlSwitch) (hb : n.control.branchOp = .never)
    (hf : n.control.fenceI = false)
    (hi : i.value n.pcRdata n.rs1Rdata n.rs2Rdata = some v ∧
      i.taken n.rs1Rdata n.rs2Rdata = false ∧ i.target n.pcRdata n.rs1Rdata = none ∧
      i.access n.rs1Rdata = none ∧ decide (i = .fenceI) = false)
    (hv : n.resultMux.result = v) : Implements n i := by
  obtain ⟨hvalue, htaken, htarget, haccess, hfence⟩ := hi
  obtain ⟨hload, hstore, hsel⟩ := hacc
  refine implements_of_noAccess haccess ⟨hload, hstore⟩ (fun v' hv' => ⟨hsel, ?_⟩) ?_
    (fun u hu => ?_) (hf.trans hfence.symm)
  · rw [hv, ← Option.some.injEq, ← hvalue, hv']
  · rw [taken_never hb, htaken]
  · rw [htarget] at hu
    cases hu

theorem implements_lui (hsw : n.control.toControlSwitch =
    Control.switch (some .lui) (n.insn.extractLsb' 12 3) (n.insn.extractLsb' 25 7))
    (hfmt : n.control.fmt = .u) :
    Implements n (.lui (Rv32i.rd n.insn) (Rv32i.immU n.insn)) := by
  have hv : n.resultMux.result = Rv32i.immU n.insn ++ 0#12 := by
    rw [result_adder_pc (by rw [hsw]; rfl) (by rw [hsw]; rfl) (by rw [hsw]; rfl),
      ← ImmediateDecoder.immU_eq]
    simp only [operandMux, OperandMux.a, OperandMux.b, hsw, Control.switch, imm, hfmt,
      ImmediateDecoder.imm]
    exact BitVec.zero_add _
  refine implements_of_value ?_ (by rw [hsw]; rfl) (by rw [hsw]; rfl)
    ⟨rfl, rfl, rfl, rfl, rfl⟩ hv
  rw [hsw]
  exact ⟨rfl, rfl, rfl⟩

theorem implements_auipc (hsw : n.control.toControlSwitch =
    Control.switch (some .auipc) (n.insn.extractLsb' 12 3) (n.insn.extractLsb' 25 7))
    (hfmt : n.control.fmt = .u) :
    Implements n (.auipc (Rv32i.rd n.insn) (Rv32i.immU n.insn)) := by
  have hv : n.resultMux.result = n.pcRdata + (Rv32i.immU n.insn ++ 0#12) := by
    rw [result_adder_pc (by rw [hsw]; rfl) (by rw [hsw]; rfl) (by rw [hsw]; rfl),
      ← ImmediateDecoder.immU_eq]
    simp only [operandMux, OperandMux.a, OperandMux.b, hsw, Control.switch, imm, hfmt,
      ImmediateDecoder.imm]
  refine implements_of_value ?_ (by rw [hsw]; rfl) (by rw [hsw]; rfl)
    ⟨rfl, rfl, rfl, rfl, rfl⟩ hv
  rw [hsw]
  exact ⟨rfl, rfl, rfl⟩

/-- The switch is shared by OP-IMM and OP, which differ in the second operand. -/
theorem implements_op {i : Rv32i.Instruction} {o : Rv32i.AluOp} {isOp : Bool} {y : Word}
    (hsw : n.control.toControlSwitch =
      Control.opSwitch isOp (n.insn.extractLsb' 12 3) (n.insn.extractLsb' 25 7))
    (hperf : Control.Performs (Control.opSwitch isOp (n.insn.extractLsb' 12 3)
      (n.insn.extractLsb' 25 7)) (n.insn.extractLsb' 12 3) (n.insn.extractLsb' 25 7) o)
    (hi : i.value n.pcRdata n.rs1Rdata n.rs2Rdata = some (o.eval n.rs1Rdata y) ∧
      i.taken n.rs1Rdata n.rs2Rdata = false ∧ i.target n.pcRdata n.rs1Rdata = none ∧
      i.access n.rs1Rdata = none ∧ decide (i = .fenceI) = false)
    (hy : o.eval n.rs1Rdata n.operandMux.b = o.eval n.rs1Rdata y) : Implements n i := by
  have ha : n.control.aSel = .rs1 := by
    rw [hsw]
    dsimp only [Control.opSwitch]
    split <;> rfl
  have hb : n.control.branchOp = .never ∧ n.control.fenceI = false := by
    rw [hsw]
    dsimp only [Control.opSwitch]
    split <;> exact ⟨rfl, rfl⟩
  refine implements_of_value ?_ hb.1 hb.2 hi ?_
  · rw [hsw]
    exact Control.opSwitch_noAccess ..
  · rw [← hsw] at hperf
    rw [result_of_performs ha hperf, hy]

theorem operandMux_b_of_op {isOp : Bool} (hsw : n.control.toControlSwitch =
      Control.opSwitch isOp (n.insn.extractLsb' 12 3) (n.insn.extractLsb' 25 7)) :
    n.operandMux.b = if isOp then n.rs2Rdata else n.imm := by
  have hb : n.control.bSel = if isOp then .rs2 else .imm := by
    rw [hsw]
    dsimp only [Control.opSwitch]
    split <;> rfl
  cases isOp <;> simp only [operandMux, OperandMux.b, hb, Bool.false_eq_true, if_true, if_false]

/-- The value of a jump is the address behind it. -/
theorem result_link (ha : n.control.aSel = .pc) (hb : n.control.bSel = .four)
    (hr : n.control.resultSel = .adder) (hs : n.control.addSub = false)
    (hc : n.control.addSignedCompare = false) : n.resultMux.result = n.pcRdata + 4 := by
  rw [result_adder_pc hr hs hc]
  simp only [operandMux, OperandMux.a, OperandMux.b, ha, hb]

/-- The target of a jump or a branch relative to the program counter. -/
theorem unrounded_pc (ht : n.control.branchTargetSel = .pc) :
    n.branchTargetMux.unrounded = n.pcRdata + n.imm := by
  simp [branchTargetMux, BranchTargetMux.unrounded, ht]

theorem unrounded_rs1 (ht : n.control.branchTargetSel = .rs1) :
    n.branchTargetMux.unrounded = n.rs1Rdata + n.imm := by
  simp [branchTargetMux, BranchTargetMux.unrounded, ht]

theorem implements_jal (hsw : n.control.toControlSwitch =
    Control.switch (some .jal) (n.insn.extractLsb' 12 3) (n.insn.extractLsb' 25 7))
    (hfmt : n.control.fmt = .j) :
    Implements n (.jal (Rv32i.rd n.insn) (Rv32i.immJ n.insn)) := by
  have htarget : n.branchTargetMux.unrounded =
      n.pcRdata + (Rv32i.immJ n.insn ++ 0#1).signExtend 32 := by
    rw [unrounded_pc (by rw [hsw]; rfl), ← ImmediateDecoder.immJ_eq, imm, hfmt]
    rfl
  refine implements_of_noAccess rfl (by rw [hsw]; exact ⟨rfl, rfl⟩)
    (fun v hv => ⟨by rw [hsw]; rfl, ?_⟩) ?_ (fun u hu => ⟨fun k => ?_, ?_⟩) (by rw [hsw]; rfl)
  · rw [result_link (by rw [hsw]; rfl) (by rw [hsw]; rfl) (by rw [hsw]; rfl) (by rw [hsw]; rfl)
      (by rw [hsw]; rfl)]
    exact Option.some.inj hv
  · rw [taken_always (by rw [hsw]; rfl)]
    rfl
  · rw [BranchTargetMux.target_getLsbD, htarget, Option.some.inj hu]
  · unfold BranchTargetMux.misaligned
    rw [htarget, Option.some.inj hu]

theorem clearBit0_getLsbD (x : Word) {k : ℕ} (hk : 1 ≤ k) :
    (x &&& ~~~1#32).getLsbD k = x.getLsbD k := by
  rw [BitVec.getLsbD_and, BitVec.getLsbD_not, BitVec.getLsbD_one]
  by_cases h : k < 32
  · simp [h, show k ≠ 0 by omega]
  · simp [h, BitVec.getLsbD_of_ge x k (by omega)]

theorem implements_jalr (hsw : n.control.toControlSwitch =
    Control.switch (some .jalr) (n.insn.extractLsb' 12 3) (n.insn.extractLsb' 25 7))
    (hfmt : n.control.fmt = .i) :
    Implements n (.jalr (Rv32i.rd n.insn) (Rv32i.rs1 n.insn) (Rv32i.immI n.insn)) := by
  have htarget : n.branchTargetMux.unrounded =
      n.rs1Rdata + (Rv32i.immI n.insn).signExtend 32 := by
    rw [unrounded_rs1 (by rw [hsw]; rfl), ← ImmediateDecoder.immI_eq, imm, hfmt]
    rfl
  refine implements_of_noAccess rfl (by rw [hsw]; exact ⟨rfl, rfl⟩)
    (fun v hv => ⟨by rw [hsw]; rfl, ?_⟩) ?_ (fun u hu => ⟨fun k => ?_, ?_⟩) (by rw [hsw]; rfl)
  · rw [result_link (by rw [hsw]; rfl) (by rw [hsw]; rfl) (by rw [hsw]; rfl) (by rw [hsw]; rfl)
      (by rw [hsw]; rfl)]
    exact Option.some.inj hv
  · rw [taken_always (by rw [hsw]; rfl)]
    rfl
  · rw [BranchTargetMux.target_getLsbD, htarget, ← Option.some.inj hu]
    by_cases hk : 2 ≤ k
    · rw [clearBit0_getLsbD _ (by omega)]
    · simp [hk]
  · unfold BranchTargetMux.misaligned
    rw [htarget, ← Option.some.inj hu, clearBit0_getLsbD _ le_rfl]

theorem implements_branch {c : Rv32i.BranchCond} (hsw : n.control.toControlSwitch =
    Control.branchSwitch (n.insn.extractLsb' 12 3)) (hfmt : n.control.fmt = .b)
    (hcmp : Control.Compares (Control.branchSwitch (n.insn.extractLsb' 12 3)) c)
    (hsub : (Control.branchSwitch (n.insn.extractLsb' 12 3)).addSub = true) :
    Implements n (.branch c (Rv32i.rs1 n.insn) (Rv32i.rs2 n.insn) (Rv32i.immB n.insn)) := by
  have hsel : n.control.aSel = .rs1 ∧ n.control.bSel = .rs2 ∧ n.control.branchTargetSel = .pc ∧
      n.control.fenceI = false := by
    rw [hsw]
    dsimp only [Control.branchSwitch]
    split <;> exact ⟨rfl, rfl, rfl, rfl⟩
  obtain ⟨ha, hb, ht, hf⟩ := hsel
  obtain ⟨hload, hstore, -⟩ := hsw ▸ Control.branchSwitch_noAccess (n.insn.extractLsb' 12 3)
  rw [← hsw] at hcmp hsub
  have htarget : n.branchTargetMux.unrounded =
      n.pcRdata + (Rv32i.immB n.insn ++ 0#1).signExtend 32 := by
    rw [unrounded_pc ht, ← ImmediateDecoder.immB_eq, imm, hfmt]
    rfl
  refine implements_of_noAccess rfl ⟨hload, hstore⟩ (fun v hv => ?_)
    (taken_of_compares ha hb hsub hcmp) (fun u hu => ⟨fun k => ?_, ?_⟩) hf
  · cases hv
  · rw [BranchTargetMux.target_getLsbD, htarget, Option.some.inj hu]
  · unfold BranchTargetMux.misaligned
    rw [htarget, Option.some.inj hu]

theorem implements_load {o : Rv32i.LoadOp} (hsw : n.control.toControlSwitch =
    Control.switch (some .load) (n.insn.extractLsb' 12 3) (n.insn.extractLsb' 25 7))
    (hfmt : n.control.fmt = .i) (hwidth : n.control.memWidth = some (.ofManual o.width))
    (hunsigned : n.control.memUnsigned = o.zeroExtends) :
    Implements n (.load o (Rv32i.rd n.insn) (Rv32i.rs1 n.insn) (Rv32i.immI n.insn)) := by
  have haddr : n.add.result = n.rs1Rdata + (Rv32i.immI n.insn).signExtend 32 := by
    rw [address_eq (by rw [hsw]; rfl) (by rw [hsw]; rfl) (by rw [hsw]; rfl) (by rw [hsw]; rfl),
      ← ImmediateDecoder.immI_eq, imm, hfmt]
    rfl
  refine ⟨?_, ?_, ?_, ?_, ?_, ?_, by rw [hsw]; rfl⟩
  · intro v hv
    cases hv
  · rw [taken_never (by rw [hsw]; rfl)]
    rfl
  · intro u hu
    cases hu
  · intro w z a ha
    obtain ⟨rfl, rfl, rfl⟩ := Rv32i.Access.load.inj (Option.some.inj ha)
    exact ⟨by rw [hsw]; rfl, by rw [hsw]; rfl, hwidth, hunsigned, haddr, by rw [hsw]; rfl⟩
  · intro w a ha
    cases ha
  · intro ha
    cases ha

theorem implements_store {o : Rv32i.StoreOp} (hsw : n.control.toControlSwitch =
    Control.switch (some .store) (n.insn.extractLsb' 12 3) (n.insn.extractLsb' 25 7))
    (hfmt : n.control.fmt = .s) (hwidth : n.control.memWidth = some (.ofManual o.width)) :
    Implements n (.store o (Rv32i.rs1 n.insn) (Rv32i.rs2 n.insn) (Rv32i.immS n.insn)) := by
  have haddr : n.add.result = n.rs1Rdata + (Rv32i.immS n.insn).signExtend 32 := by
    rw [address_eq (by rw [hsw]; rfl) (by rw [hsw]; rfl) (by rw [hsw]; rfl) (by rw [hsw]; rfl),
      ← ImmediateDecoder.immS_eq, imm, hfmt]
    rfl
  refine ⟨?_, ?_, ?_, ?_, ?_, ?_, by rw [hsw]; rfl⟩
  · intro v hv
    cases hv
  · rw [taken_never (by rw [hsw]; rfl)]
    rfl
  · intro u hu
    cases hu
  · intro w z a ha
    cases ha
  · intro w a ha
    obtain ⟨rfl, rfl⟩ := Rv32i.Access.store.inj (Option.some.inj ha)
    exact ⟨by rw [hsw]; rfl, by rw [hsw]; rfl, hwidth, haddr⟩
  · intro ha
    cases ha

theorem implements_opImm (hsw : n.control.toControlSwitch =
    Control.opSwitch false (n.insn.extractLsb' 12 3) (n.insn.extractLsb' 25 7))
    (hfmt : n.control.fmt = .i) (h : (Control.opSwitch false (n.insn.extractLsb' 12 3)
      (n.insn.extractLsb' 25 7)).illegal = false) :
    ∃ i, Rv32i.decodeOpImm n.insn = some i ∧ Implements n i := by
  have hf3 : Rv32i.funct3 n.insn = n.insn.extractLsb' 12 3 := rfl
  have hf7 : Rv32i.funct7 n.insn = n.insn.extractLsb' 25 7 := rfl
  have himm : n.operandMux.b = ImmediateDecoder.immI n.insn := by
    rw [operandMux_b_of_op hsw, imm, hfmt]
    rfl
  rw [Rv32i.decodeOpImm, hf3, hf7]
  rcases Control.opImmSwitch_legal h with ⟨o, ho, hperf⟩ | ⟨hnone, o, ho, hperf⟩
  · rw [ho]
    refine ⟨_, rfl, implements_op hsw hperf ⟨rfl, rfl, rfl, rfl, rfl⟩ ?_⟩
    rw [himm, ImmediateDecoder.immI_eq]
  · rw [hnone, ho]
    refine ⟨_, rfl, implements_op hsw hperf ⟨rfl, rfl, rfl, rfl, rfl⟩ (o.eval_congr ?_)⟩
    have hshamt := congrArg BitVec.toNat (ImmediateDecoder.immI_shamt n.insn)
    have hlt := (Rv32i.rs2 n.insn).isLt
    rw [BitVec.toNat_setWidth] at hshamt
    rw [himm, BitVec.toNat_setWidth, hshamt]
    omega

/-- A fence computes nothing. -/
theorem implements_miscMem (hsw : n.control.toControlSwitch =
    Control.miscMemSwitch (n.insn.extractLsb' 12 3)) (h : n.control.illegal = false) :
    ∃ i, Rv32i.decodeMiscMem n.insn = some i ∧ Implements n i := by
  have hf3 : Rv32i.funct3 n.insn = n.insn.extractLsb' 12 3 := rfl
  rw [Rv32i.decodeMiscMem, hf3]
  rw [hsw] at h
  generalize n.insn.extractLsb' 12 3 = f3 at *
  have hinert : ∀ {i : Rv32i.Instruction}, i = .fence ∨ i = .fenceI →
      n.control.fenceI = decide (i = .fenceI) → Implements n i := by
    intro i hi hf
    obtain ⟨hb, hload, hstore⟩ := miscMem_inert f3
    rw [← hsw] at hb hload hstore
    have htaken := taken_never hb
    have hnone : i.value n.pcRdata n.rs1Rdata n.rs2Rdata = none ∧
        i.taken n.rs1Rdata n.rs2Rdata = false ∧ i.target n.pcRdata n.rs1Rdata = none ∧
        i.access n.rs1Rdata = none := by
      rcases hi with rfl | rfl <;> exact ⟨rfl, rfl, rfl, rfl⟩
    obtain ⟨hvalue, htaken', htarget, haccess⟩ := hnone
    refine implements_of_noAccess haccess ⟨hload, hstore⟩ (fun v hv => ?_)
      (htaken.trans htaken'.symm) (fun u hu => ?_) hf
    · rw [hvalue] at hv
      cases hv
    · rw [htarget] at hu
      cases hu
  rcases funct3_cases f3 with rfl | rfl | rfl | rfl | rfl | rfl | rfl | rfl
  · exact ⟨.fence, rfl, hinert (.inl rfl) (by rw [hsw]; rfl)⟩
  · exact ⟨.fenceI, rfl, hinert (.inr rfl) (by rw [hsw]; rfl)⟩
  all_goals cases h

end Classes

/-- A word that is not illegal is an instruction of the manual, and does what it says. -/
theorem implements {n : Insn} (h : n.control.illegal = false) :
    ∃ i, Rv32i.decode n.insn = some i ∧ Implements n i := by
  have hsw := n.control_switch
  have hfmt := n.control_fmt
  have hopcode : Rv32i.opcode n.insn = n.insn.extractLsb' 0 7 := rfl
  have hf3 : Rv32i.funct3 n.insn = n.insn.extractLsb' 12 3 := rfl
  have hf7 : Rv32i.funct7 n.insn = n.insn.extractLsb' 25 7 := rfl
  rw [hsw] at h
  cases ho : Opcode.ofBits (n.insn.extractLsb' 0 7) with
  | none =>
    rw [ho] at h
    cases h
  | some o =>
    have hbits := Opcode.bits_of_ofBits ho
    rw [ho] at hsw hfmt h
    rw [Rv32i.decode, hopcode, hbits]
    cases o with
    | lui => exact ⟨_, rfl, implements_lui hsw hfmt⟩
    | auipc => exact ⟨_, rfl, implements_auipc hsw hfmt⟩
    | jal => exact ⟨_, rfl, implements_jal hsw hfmt⟩
    | jalr =>
      have h0 : Rv32i.funct3 n.insn = 0 := (bne_eq_false_iff_eq (a := n.insn.extractLsb' 12 3)).mp h
      exact ⟨_, if_pos h0, implements_jalr hsw hfmt⟩
    | branch =>
      obtain ⟨c, hc, hcmp, hsub⟩ := Control.branchSwitch_legal h
      exact ⟨_, congrArg (Option.map _) hc, implements_branch hsw hfmt hcmp hsub⟩
    | load =>
      obtain ⟨o, ho, hwidth, hunsigned⟩ := Control.load_legal h
      exact ⟨_, congrArg (Option.map _) ho, implements_load hsw hfmt hwidth hunsigned⟩
    | store =>
      obtain ⟨o, ho, hwidth⟩ := Control.store_legal h
      exact ⟨_, congrArg (Option.map _) ho, implements_store hsw hfmt hwidth⟩
    | opImm => exact implements_opImm hsw hfmt h
    | op =>
      obtain ⟨o, ho, hperf⟩ := Control.opSwitch_legal h
      refine ⟨_, congrArg (Option.map _) ho,
        implements_op hsw hperf ⟨rfl, rfl, rfl, rfl, rfl⟩ ?_⟩
      rw [operandMux_b_of_op hsw]
      rfl
    | miscMem => exact implements_miscMem hsw (by rw [hsw]; exact h)
    | system => cases h

end Insn
end Icicle
