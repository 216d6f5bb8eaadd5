import Icicle.Isa.Rv32i

/-! The encoding of RV32I, as the manual defines it, and that decoding inverts it. -/
namespace Rv32i

/-- Format R. The formats I, S and B place parts of an immediate where it has a field; format
J rearranges the immediate of format U. -/
def encodeR (funct7 : BitVec 7) (rs2 rs1 : Reg) (funct3 : BitVec 3) (rd : Reg)
    (opcode : BitVec 7) : Word :=
  funct7 ++ rs2 ++ rs1 ++ funct3 ++ rd ++ opcode

def encodeI (imm : BitVec 12) (rs1 : Reg) (funct3 : BitVec 3) (rd : Reg) (opcode : BitVec 7) :
    Word :=
  encodeR (imm.extractLsb' 5 7) (imm.extractLsb' 0 5) rs1 funct3 rd opcode

def encodeS (imm : BitVec 12) (rs2 rs1 : Reg) (funct3 : BitVec 3) (opcode : BitVec 7) : Word :=
  encodeR (imm.extractLsb' 5 7) rs2 rs1 funct3 (imm.extractLsb' 0 5) opcode

/-- Bits 12 and 10 to 5 of the offset, and bits 4 to 1 and 11. -/
def encodeB (offset : BitVec 12) (rs2 rs1 : Reg) (funct3 : BitVec 3) (opcode : BitVec 7) : Word :=
  encodeR (offset.extractLsb' 11 1 ++ offset.extractLsb' 4 6) rs2 rs1 funct3
    (offset.extractLsb' 0 4 ++ offset.extractLsb' 10 1) opcode

def encodeU (imm : BitVec 20) (rd : Reg) (opcode : BitVec 7) : Word := imm ++ rd ++ opcode

/-- Bits 20, 10 to 1, 11 and 19 to 12 of the offset. -/
def encodeJ (offset : BitVec 20) (rd : Reg) (opcode : BitVec 7) : Word :=
  encodeU (offset.extractLsb' 19 1 ++ offset.extractLsb' 0 10 ++ offset.extractLsb' 10 1 ++
    offset.extractLsb' 11 8) rd opcode

section Fields
variable (funct7 : BitVec 7) (rs2 rs1 : Reg) (funct3 : BitVec 3) (rd : Reg) (opcode : BitVec 7)

@[simp] theorem opcode_encodeR :
    Rv32i.opcode (encodeR funct7 rs2 rs1 funct3 rd opcode) = opcode :=
  BitVec.extractLsb'_append_eq_right

@[simp] theorem rd_encodeR : Rv32i.rd (encodeR funct7 rs2 rs1 funct3 rd opcode) = rd := by
  rw [Rv32i.rd, encodeR, BitVec.extractLsb'_append_eq_of_le (by omega),
    BitVec.extractLsb'_append_eq_of_add_le (by omega)]
  exact BitVec.extractLsb'_eq_self

@[simp] theorem funct3_encodeR :
    Rv32i.funct3 (encodeR funct7 rs2 rs1 funct3 rd opcode) = funct3 := by
  rw [Rv32i.funct3, encodeR, BitVec.extractLsb'_append_eq_of_le (by omega),
    BitVec.extractLsb'_append_eq_of_le (by omega),
    BitVec.extractLsb'_append_eq_of_add_le (by omega)]
  exact BitVec.extractLsb'_eq_self

@[simp] theorem rs1_encodeR : Rv32i.rs1 (encodeR funct7 rs2 rs1 funct3 rd opcode) = rs1 := by
  rw [Rv32i.rs1, encodeR, BitVec.extractLsb'_append_eq_of_le (by omega),
    BitVec.extractLsb'_append_eq_of_le (by omega), BitVec.extractLsb'_append_eq_of_le (by omega),
    BitVec.extractLsb'_append_eq_of_add_le (by omega)]
  exact BitVec.extractLsb'_eq_self

@[simp] theorem rs2_encodeR : Rv32i.rs2 (encodeR funct7 rs2 rs1 funct3 rd opcode) = rs2 := by
  rw [Rv32i.rs2, encodeR, BitVec.extractLsb'_append_eq_of_le (by omega),
    BitVec.extractLsb'_append_eq_of_le (by omega), BitVec.extractLsb'_append_eq_of_le (by omega),
    BitVec.extractLsb'_append_eq_of_le (by omega),
    BitVec.extractLsb'_append_eq_of_add_le (by omega)]
  exact BitVec.extractLsb'_eq_self

@[simp] theorem funct7_encodeR :
    Rv32i.funct7 (encodeR funct7 rs2 rs1 funct3 rd opcode) = funct7 := by
  rw [Rv32i.funct7, encodeR, BitVec.extractLsb'_append_eq_of_le (by omega),
    BitVec.extractLsb'_append_eq_of_le (by omega), BitVec.extractLsb'_append_eq_of_le (by omega),
    BitVec.extractLsb'_append_eq_of_le (by omega), BitVec.extractLsb'_append_eq_of_le (by omega)]
  exact BitVec.extractLsb'_eq_self

@[simp] theorem opcode_encodeU (imm : BitVec 20) : Rv32i.opcode (encodeU imm rd opcode) = opcode :=
  BitVec.extractLsb'_append_eq_right

@[simp] theorem rd_encodeU (imm : BitVec 20) : Rv32i.rd (encodeU imm rd opcode) = rd := by
  rw [Rv32i.rd, encodeU, BitVec.extractLsb'_append_eq_of_le (by omega),
    BitVec.extractLsb'_append_eq_of_add_le (by omega)]
  exact BitVec.extractLsb'_eq_self

@[simp] theorem immU_encodeU (imm : BitVec 20) : immU (encodeU imm rd opcode) = imm := by
  rw [immU, encodeU, BitVec.extractLsb'_append_eq_of_le (by omega),
    BitVec.extractLsb'_append_eq_of_le (by omega)]
  exact BitVec.extractLsb'_eq_self

@[simp] theorem opcode_encodeI (imm : BitVec 12) :
    Rv32i.opcode (encodeI imm rs1 funct3 rd opcode) = opcode := opcode_encodeR ..

@[simp] theorem rd_encodeI (imm : BitVec 12) :
    Rv32i.rd (encodeI imm rs1 funct3 rd opcode) = rd := rd_encodeR ..

@[simp] theorem funct3_encodeI (imm : BitVec 12) :
    Rv32i.funct3 (encodeI imm rs1 funct3 rd opcode) = funct3 := funct3_encodeR ..

@[simp] theorem rs1_encodeI (imm : BitVec 12) :
    Rv32i.rs1 (encodeI imm rs1 funct3 rd opcode) = rs1 := rs1_encodeR ..

@[simp] theorem opcode_encodeS (imm : BitVec 12) :
    Rv32i.opcode (encodeS imm rs2 rs1 funct3 opcode) = opcode := opcode_encodeR ..

@[simp] theorem funct3_encodeS (imm : BitVec 12) :
    Rv32i.funct3 (encodeS imm rs2 rs1 funct3 opcode) = funct3 := funct3_encodeR ..

@[simp] theorem rs1_encodeS (imm : BitVec 12) :
    Rv32i.rs1 (encodeS imm rs2 rs1 funct3 opcode) = rs1 := rs1_encodeR ..

@[simp] theorem rs2_encodeS (imm : BitVec 12) :
    Rv32i.rs2 (encodeS imm rs2 rs1 funct3 opcode) = rs2 := rs2_encodeR ..

@[simp] theorem opcode_encodeB (offset : BitVec 12) :
    Rv32i.opcode (encodeB offset rs2 rs1 funct3 opcode) = opcode := opcode_encodeR ..

@[simp] theorem funct3_encodeB (offset : BitVec 12) :
    Rv32i.funct3 (encodeB offset rs2 rs1 funct3 opcode) = funct3 := funct3_encodeR ..

@[simp] theorem rs1_encodeB (offset : BitVec 12) :
    Rv32i.rs1 (encodeB offset rs2 rs1 funct3 opcode) = rs1 := rs1_encodeR ..

@[simp] theorem rs2_encodeB (offset : BitVec 12) :
    Rv32i.rs2 (encodeB offset rs2 rs1 funct3 opcode) = rs2 := rs2_encodeR ..

@[simp] theorem opcode_encodeJ (offset : BitVec 20) :
    Rv32i.opcode (encodeJ offset rd opcode) = opcode := opcode_encodeU ..

@[simp] theorem rd_encodeJ (offset : BitVec 20) : Rv32i.rd (encodeJ offset rd opcode) = rd :=
  rd_encodeU ..

end Fields

/-- A word is put together from its fields. -/
theorem encodeR_fields (w : Word) :
    encodeR (funct7 w) (rs2 w) (rs1 w) (funct3 w) (rd w) (opcode w) = w := by
  apply BitVec.eq_of_getLsbD_eq
  intro i hi
  simp only [encodeR, funct7, rs2, rs1, funct3, rd, opcode, BitVec.getLsbD_append,
    BitVec.getLsbD_extractLsb']
  interval_cases i <;> rfl

theorem encodeU_fields (w : Word) : encodeU (immU w) (rd w) (opcode w) = w := by
  apply BitVec.eq_of_getLsbD_eq
  intro i hi
  simp only [encodeU, immU, rd, opcode, BitVec.getLsbD_append, BitVec.getLsbD_extractLsb']
  interval_cases i <;> rfl

section Immediates
variable (rs2 rs1 : Reg) (funct3 : BitVec 3) (rd : Reg) (opcode : BitVec 7) (w : Word)

theorem immI_fields : immI w = funct7 w ++ Rv32i.rs2 w := by
  apply BitVec.eq_of_getLsbD_eq
  intro i hi
  simp only [immI, funct7, Rv32i.rs2, BitVec.getLsbD_append, BitVec.getLsbD_extractLsb']
  interval_cases i <;> rfl

theorem immB_fields : immB w = (funct7 w).extractLsb' 6 1 ++ (Rv32i.rd w).extractLsb' 0 1 ++
    (funct7 w).extractLsb' 0 6 ++ (Rv32i.rd w).extractLsb' 1 4 := by
  apply BitVec.eq_of_getLsbD_eq
  intro i hi
  simp only [immB, funct7, Rv32i.rd, BitVec.getLsbD_append, BitVec.getLsbD_extractLsb']
  interval_cases i <;> rfl

theorem immJ_fields : immJ w = (immU w).extractLsb' 19 1 ++ (immU w).extractLsb' 0 8 ++
    (immU w).extractLsb' 8 1 ++ (immU w).extractLsb' 9 10 := by
  apply BitVec.eq_of_getLsbD_eq
  intro i hi
  simp only [immJ, immU, BitVec.getLsbD_append, BitVec.getLsbD_extractLsb']
  interval_cases i <;> rfl

@[simp] theorem immI_encodeI (imm : BitVec 12) : immI (encodeI imm rs1 funct3 rd opcode) = imm := by
  rw [immI_fields, encodeI, funct7_encodeR, rs2_encodeR]
  apply BitVec.eq_of_getLsbD_eq
  intro i hi
  simp only [BitVec.getLsbD_append, BitVec.getLsbD_extractLsb']
  interval_cases i <;> rfl

@[simp] theorem immS_encodeS (imm : BitVec 12) :
    immS (encodeS imm rs2 rs1 funct3 opcode) = imm := by
  have hfields : ∀ x, immS x = funct7 x ++ Rv32i.rd x := fun _ => rfl
  rw [hfields, encodeS, funct7_encodeR, rd_encodeR]
  apply BitVec.eq_of_getLsbD_eq
  intro i hi
  simp only [BitVec.getLsbD_append, BitVec.getLsbD_extractLsb']
  interval_cases i <;> rfl

@[simp] theorem immB_encodeB (offset : BitVec 12) :
    immB (encodeB offset rs2 rs1 funct3 opcode) = offset := by
  rw [immB_fields, encodeB, funct7_encodeR, rd_encodeR]
  apply BitVec.eq_of_getLsbD_eq
  intro i hi
  simp only [BitVec.getLsbD_append, BitVec.getLsbD_extractLsb']
  interval_cases i <;> rfl

@[simp] theorem immJ_encodeJ (offset : BitVec 20) : immJ (encodeJ offset rd opcode) = offset := by
  rw [immJ_fields, encodeJ, immU_encodeU]
  apply BitVec.eq_of_getLsbD_eq
  intro i hi
  simp only [BitVec.getLsbD_append, BitVec.getLsbD_extractLsb']
  interval_cases i <;> rfl

theorem encodeI_fields : encodeI (immI w) (Rv32i.rs1 w) (Rv32i.funct3 w) (Rv32i.rd w)
    (Rv32i.opcode w) = w := by
  have h7 : (immI w).extractLsb' 5 7 = funct7 w := by
    rw [immI_fields]
    exact BitVec.extractLsb'_append_eq_left
  have h2 : (immI w).extractLsb' 0 5 = Rv32i.rs2 w := by
    rw [immI_fields]
    exact BitVec.extractLsb'_append_eq_right
  rw [encodeI, h7, h2, encodeR_fields]

theorem encodeS_fields : encodeS (immS w) (Rv32i.rs2 w) (Rv32i.rs1 w) (Rv32i.funct3 w)
    (Rv32i.opcode w) = w := by
  have h7 : (immS w).extractLsb' 5 7 = funct7 w := BitVec.extractLsb'_append_eq_left
  have hd : (immS w).extractLsb' 0 5 = Rv32i.rd w := BitVec.extractLsb'_append_eq_right
  rw [encodeS, h7, hd, encodeR_fields]

theorem encodeB_fields : encodeB (immB w) (Rv32i.rs2 w) (Rv32i.rs1 w) (Rv32i.funct3 w)
    (Rv32i.opcode w) = w := by
  have h7 : (immB w).extractLsb' 11 1 ++ (immB w).extractLsb' 4 6 = funct7 w := by
    apply BitVec.eq_of_getLsbD_eq
    intro i hi
    simp only [immB, funct7, BitVec.getLsbD_append, BitVec.getLsbD_extractLsb']
    interval_cases i <;> rfl
  have hd : (immB w).extractLsb' 0 4 ++ (immB w).extractLsb' 10 1 = Rv32i.rd w := by
    apply BitVec.eq_of_getLsbD_eq
    intro i hi
    simp only [immB, Rv32i.rd, BitVec.getLsbD_append, BitVec.getLsbD_extractLsb']
    interval_cases i <;> rfl
  rw [encodeB, h7, hd, encodeR_fields]

theorem encodeJ_fields : encodeJ (immJ w) (Rv32i.rd w) (Rv32i.opcode w) = w := by
  have hu : (immJ w).extractLsb' 19 1 ++ (immJ w).extractLsb' 0 10 ++
      (immJ w).extractLsb' 10 1 ++ (immJ w).extractLsb' 11 8 = immU w := by
    apply BitVec.eq_of_getLsbD_eq
    intro i hi
    simp only [immJ, immU, BitVec.getLsbD_append, BitVec.getLsbD_extractLsb']
    interval_cases i <;> rfl
  rw [encodeJ, hu, encodeU_fields]

end Immediates

def BranchCond.funct3 : BranchCond → BitVec 3
  | .beq => 0b000#3
  | .bne => 0b001#3
  | .blt => 0b100#3
  | .bge => 0b101#3
  | .bltu => 0b110#3
  | .bgeu => 0b111#3

def LoadOp.funct3 : LoadOp → BitVec 3
  | .lb => 0b000#3
  | .lh => 0b001#3
  | .lw => 0b010#3
  | .lbu => 0b100#3
  | .lhu => 0b101#3

def StoreOp.funct3 : StoreOp → BitVec 3
  | .sb => 0b000#3
  | .sh => 0b001#3
  | .sw => 0b010#3

def ImmOp.funct3 : ImmOp → BitVec 3
  | .addi => 0b000#3
  | .slti => 0b010#3
  | .sltiu => 0b011#3
  | .xori => 0b100#3
  | .ori => 0b110#3
  | .andi => 0b111#3

def ShiftOp.funct3 : ShiftOp → BitVec 3
  | .slli => 0b001#3
  | .srli | .srai => 0b101#3

def ShiftOp.funct7 : ShiftOp → BitVec 7
  | .slli | .srli => 0b0000000#7
  | .srai => 0b0100000#7

def AluOp.funct3 : AluOp → BitVec 3
  | .add | .sub => 0b000#3
  | .sll => 0b001#3
  | .slt => 0b010#3
  | .sltu => 0b011#3
  | .xor => 0b100#3
  | .srl | .sra => 0b101#3
  | .or => 0b110#3
  | .and => 0b111#3

def AluOp.funct7 : AluOp → BitVec 7
  | .sub | .sra => 0b0100000#7
  | _ => 0b0000000#7

theorem BranchCond.ofFunct3_eq_some {f : BitVec 3} {c : BranchCond} :
    ofFunct3 f = some c ↔ f = c.funct3 := by
  constructor
  · intro h
    unfold ofFunct3 at h
    split at h <;> cases h <;> rfl
  · rintro rfl
    cases c <;> rfl

theorem LoadOp.ofFunct3_eq_some {f : BitVec 3} {o : LoadOp} :
    ofFunct3 f = some o ↔ f = o.funct3 := by
  constructor
  · intro h
    unfold ofFunct3 at h
    split at h <;> cases h <;> rfl
  · rintro rfl
    cases o <;> rfl

theorem StoreOp.ofFunct3_eq_some {f : BitVec 3} {o : StoreOp} :
    ofFunct3 f = some o ↔ f = o.funct3 := by
  constructor
  · intro h
    unfold ofFunct3 at h
    split at h <;> cases h <;> rfl
  · rintro rfl
    cases o <;> rfl

theorem ImmOp.ofFunct3_eq_some {f : BitVec 3} {o : ImmOp} :
    ofFunct3 f = some o ↔ f = o.funct3 := by
  constructor
  · intro h
    unfold ofFunct3 at h
    split at h <;> cases h <;> rfl
  · rintro rfl
    cases o <;> rfl

theorem ShiftOp.ofFunct_eq_some {f : BitVec 3} {g : BitVec 7} {o : ShiftOp} :
    ofFunct f g = some o ↔ f = o.funct3 ∧ g = o.funct7 := by
  constructor
  · intro h
    unfold ofFunct at h
    split at h <;> cases h <;> exact ⟨rfl, rfl⟩
  · rintro ⟨rfl, rfl⟩
    cases o <;> rfl

theorem AluOp.ofFunct_eq_some {f : BitVec 3} {g : BitVec 7} {o : AluOp} :
    ofFunct f g = some o ↔ f = o.funct3 ∧ g = o.funct7 := by
  constructor
  · intro h
    unfold ofFunct at h
    split at h <;> cases h <;> exact ⟨rfl, rfl⟩
  · rintro ⟨rfl, rfl⟩
    cases o <;> rfl

/-- No shift shares its code with another operation on an immediate. -/
theorem ImmOp.ofFunct3_shift (o : ShiftOp) : ofFunct3 o.funct3 = none := by
  cases o <;> rfl

namespace Instruction

def dest : Instruction → Option Reg
  | lui rd _ | auipc rd _ | jal rd _ | jalr rd _ _ | load _ rd _ _ | opImm _ rd _ _
  | shiftImm _ rd _ _ | op _ rd _ _ => some rd
  | branch .. | store .. | fence | fenceI => none

def source1 : Instruction → Option Reg
  | jalr _ rs1 _ | branch _ rs1 _ _ | load _ _ rs1 _ | store _ rs1 _ _ | opImm _ _ rs1 _
  | shiftImm _ _ rs1 _ | op _ _ rs1 _ => some rs1
  | lui .. | auipc .. | jal .. | fence | fenceI => none

def source2 : Instruction → Option Reg
  | branch _ _ rs2 _ | store _ _ rs2 _ | op _ _ _ rs2 => some rs2
  | lui .. | auipc .. | jal .. | jalr .. | load .. | opImm .. | shiftImm .. | fence | fenceI => none

/-- The immediate as a word. -/
def immediate : Instruction → Option Word
  | lui _ imm | auipc _ imm => some (imm ++ 0#12)
  | jal _ offset => some ((offset ++ 0#1).signExtend 32)
  | branch _ _ _ offset => some ((offset ++ 0#1).signExtend 32)
  | jalr _ _ imm | load _ _ _ imm | store _ _ _ imm | opImm _ _ _ imm => some (imm.signExtend 32)
  | shiftImm .. | op .. | fence | fenceI => none

def shiftAmount : Instruction → Option (BitVec 5)
  | shiftImm _ _ _ shamt => some shamt
  | _ => none

end Instruction

/-- The fields of a fence that have no meaning. -/
structure FenceFields where
  rd : Reg
  rs1 : Reg
  imm : BitVec 12

/-- What the encoding of an instruction leaves open. -/
def Instruction.Free : Instruction → Type
  | .fence | .fenceI => FenceFields
  | _ => Unit

def encode : (i : Instruction) → i.Free → Word
  | .lui rd imm, _ => encodeU imm rd 0b0110111#7
  | .auipc rd imm, _ => encodeU imm rd 0b0010111#7
  | .jal rd offset, _ => encodeJ offset rd 0b1101111#7
  | .jalr rd rs1 offset, _ => encodeI offset rs1 0b000#3 rd 0b1100111#7
  | .branch cond rs1 rs2 offset, _ => encodeB offset rs2 rs1 cond.funct3 0b1100011#7
  | .load op rd rs1 offset, _ => encodeI offset rs1 op.funct3 rd 0b0000011#7
  | .store op rs1 rs2 offset, _ => encodeS offset rs2 rs1 op.funct3 0b0100011#7
  | .opImm op rd rs1 imm, _ => encodeI imm rs1 op.funct3 rd 0b0010011#7
  | .shiftImm op rd rs1 shamt, _ => encodeR op.funct7 shamt rs1 op.funct3 rd 0b0010011#7
  | .op op rd rs1 rs2, _ => encodeR op.funct7 rs2 rs1 op.funct3 rd 0b0110011#7
  | .fence, (f : FenceFields) => encodeI f.imm f.rs1 0b000#3 f.rd 0b0001111#7
  | .fenceI, (f : FenceFields) => encodeI f.imm f.rs1 0b001#3 f.rd 0b0001111#7

/-- `sw x2, 12(x0)`. -/
example : encode (.store .sw 0 2 12) () = 0x00202623#32 := by decide

/-- The instruction is decoded whatever the fields are that it leaves open. -/
theorem decode_encode (i : Instruction) (f : i.Free) : decode (encode i f) = some i := by
  cases i with
  | lui rd imm => simp [encode, decode]
  | auipc rd imm => simp [encode, decode]
  | jal rd offset => simp [encode, decode]
  | jalr rd rs1 offset => simp [encode, decode]
  | branch cond rs1 rs2 offset => simp [encode, decode, BranchCond.ofFunct3_eq_some]
  | load op rd rs1 offset => simp [encode, decode, LoadOp.ofFunct3_eq_some]
  | store op rs1 rs2 offset => simp [encode, decode, StoreOp.ofFunct3_eq_some]
  | opImm op rd rs1 imm =>
    have ho : ImmOp.ofFunct3 op.funct3 = some op := ImmOp.ofFunct3_eq_some.mpr rfl
    simp [encode, decode, decodeOpImm, ho]
  | shiftImm op rd rs1 shamt =>
    have ho : ShiftOp.ofFunct op.funct3 op.funct7 = some op :=
      ShiftOp.ofFunct_eq_some.mpr ⟨rfl, rfl⟩
    simp [encode, decode, decodeOpImm, ImmOp.ofFunct3_shift, ho]
  | op op rd rs1 rs2 => simp [encode, decode, AluOp.ofFunct_eq_some]
  | fence => simp [encode, decode, decodeMiscMem]
  | fenceI => simp [encode, decode, decodeMiscMem]

theorem encode_of_decodeOpImm {w : Word} {i : Instruction} (hop : opcode w = 0b0010011#7)
    (h : decodeOpImm w = some i) : ∃ f, encode i f = w := by
  unfold decodeOpImm at h
  split at h
  next o ho =>
    cases h
    have hw := encodeI_fields w
    rw [ImmOp.ofFunct3_eq_some.mp ho, hop] at hw
    exact ⟨(), hw⟩
  next =>
    obtain ⟨o, ho, rfl⟩ := Option.map_eq_some_iff.mp h
    obtain ⟨h3, h7⟩ := ShiftOp.ofFunct_eq_some.mp ho
    have hw := encodeR_fields w
    rw [h7, h3, hop] at hw
    exact ⟨(), hw⟩

theorem encode_of_decodeMiscMem {w : Word} {i : Instruction} (hop : opcode w = 0b0001111#7)
    (h : decodeMiscMem w = some i) : ∃ f, encode i f = w := by
  have hw := encodeI_fields w
  unfold decodeMiscMem at h
  split at h
  next h3 =>
    cases h
    rw [h3, hop] at hw
    exact ⟨(⟨rd w, rs1 w, immI w⟩ : FenceFields), hw⟩
  next h3 =>
    cases h
    rw [h3, hop] at hw
    exact ⟨(⟨rd w, rs1 w, immI w⟩ : FenceFields), hw⟩
  next => cases h

/-- Every word that decodes is an encoding of the instruction. -/
theorem encode_of_decode {w : Word} {i : Instruction} (h : decode w = some i) :
    ∃ f, encode i f = w := by
  unfold decode at h
  split at h
  next hop =>
    cases h
    have hw := encodeU_fields w
    rw [hop] at hw
    exact ⟨(), hw⟩
  next hop =>
    cases h
    have hw := encodeU_fields w
    rw [hop] at hw
    exact ⟨(), hw⟩
  next hop =>
    cases h
    have hw := encodeJ_fields w
    rw [hop] at hw
    exact ⟨(), hw⟩
  next hop =>
    split at h
    next h3 =>
      cases h
      have hw := encodeI_fields w
      rw [h3, hop] at hw
      exact ⟨(), hw⟩
    next => cases h
  next hop =>
    obtain ⟨c, hc, rfl⟩ := Option.map_eq_some_iff.mp h
    have hw := encodeB_fields w
    rw [BranchCond.ofFunct3_eq_some.mp hc, hop] at hw
    exact ⟨(), hw⟩
  next hop =>
    obtain ⟨o, ho, rfl⟩ := Option.map_eq_some_iff.mp h
    have hw := encodeI_fields w
    rw [LoadOp.ofFunct3_eq_some.mp ho, hop] at hw
    exact ⟨(), hw⟩
  next hop =>
    obtain ⟨o, ho, rfl⟩ := Option.map_eq_some_iff.mp h
    have hw := encodeS_fields w
    rw [StoreOp.ofFunct3_eq_some.mp ho, hop] at hw
    exact ⟨(), hw⟩
  next hop => exact encode_of_decodeOpImm hop h
  next hop =>
    obtain ⟨o, ho, rfl⟩ := Option.map_eq_some_iff.mp h
    obtain ⟨h3, h7⟩ := AluOp.ofFunct_eq_some.mp ho
    have hw := encodeR_fields w
    rw [h7, h3, hop] at hw
    exact ⟨(), hw⟩
  next hop => exact encode_of_decodeMiscMem hop h
  next => cases h

/-- The open fields are part of the encoding. -/
theorem encode_injective (i : Instruction) : Function.Injective (encode i) := by
  intro f g h
  have hfence : ∀ (f g : FenceFields) (funct3 : BitVec 3) (opcode : BitVec 7),
      encodeI f.imm f.rs1 funct3 f.rd opcode = encodeI g.imm g.rs1 funct3 g.rd opcode → f = g := by
    intro f g funct3 opcode hw
    have hrd := congrArg rd hw
    have hrs1 := congrArg rs1 hw
    have himm := congrArg immI hw
    rw [rd_encodeI, rd_encodeI] at hrd
    rw [rs1_encodeI, rs1_encodeI] at hrs1
    rw [immI_encodeI, immI_encodeI] at himm
    cases f
    cases g
    simp_all
  cases i with
  | fence => exact hfence f g _ _ h
  | fenceI => exact hfence f g _ _ h
  | _ => rfl

/-- A word that decodes is the encoding of one instruction with one choice of open fields. -/
theorem existsUnique_encode {w : Word} {i : Instruction} (h : decode w = some i) :
    ∃! p : (i : Instruction) × i.Free, encode p.1 p.2 = w := by
  obtain ⟨f, hf⟩ := encode_of_decode h
  refine ⟨⟨i, f⟩, hf, ?_⟩
  rintro ⟨j, g⟩ hg
  have hj : some j = some i := by rw [← h, ← hg, decode_encode]
  obtain rfl : j = i := Option.some.inj hj
  obtain rfl : g = f := encode_injective j (hg.trans hf.symm)
  rfl

end Rv32i
