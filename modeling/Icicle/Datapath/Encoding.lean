import Icicle.Isa.Encoding
import Icicle.Datapath.Semantics

/-! The decoder is the inverse of the encoding: it accepts the instructions of the manual,
and selects their registers and immediates. -/
namespace Icicle
namespace Control

/-- The signals of a word that tell the registers and the immediate of an instruction. -/
structure Selects (w : Word) (i : Rv32i.Instruction) : Prop where
  illegal : (ofInsn w).illegal = false
  rd : ∀ r, i.dest = some r → (ofInsn w).rd = r
  rdWen : (ofInsn w).rdWen = true ↔ ∃ r, i.dest = some r ∧ r ≠ 0
  rs1 : ∀ r, i.source1 = some r → (ofInsn w).rs1 = r
  rs1Ren : (ofInsn w).rs1Ren = true ↔ ∃ r, i.source1 = some r ∧ r ≠ 0
  rs2 : ∀ r, i.source2 = some r → (ofInsn w).rs2 = r
  rs2Ren : (ofInsn w).rs2Ren = true ↔ ∃ r, i.source2 = some r ∧ r ≠ 0
  imm : ∀ v, i.immediate = some v → ImmediateDecoder.imm w (ofInsn w).fmt = v
  shamt : ∀ v, i.shiftAmount = some v →
    (ImmediateDecoder.imm w (ofInsn w).fmt).setWidth 5 = v

/-- A register is enabled if the class of the instruction has it and it is not register 0. -/
theorem enabled_iff {r : BitVec 5} {has : Bool} {operand : Option Rv32i.Reg}
    (h : operand = if has then some r else none) :
    (r != 0 && has) = true ↔ ∃ r', operand = some r' ∧ r' ≠ 0 := by
  subst h
  cases has <;> simp

theorem names_of_eq {r r' : BitVec 5} {has : Bool} {operand : Option Rv32i.Reg}
    (h : operand = if has then some r else none) (hr : operand = some r') : r = r' := by
  subst h
  cases has with
  | false => cases hr
  | true => exact Option.some.inj hr

/-- The classes of instructions that have a register. -/
def hasRd (o : Opcode) : Bool := [Format.r, .i, .u, .j].contains (format (some o)) && o != .miscMem

def hasRs1 (o : Opcode) : Bool := [Format.r, .i, .s, .b].contains (format (some o)) && o != .miscMem

def hasRs2 (o : Opcode) : Bool := [Format.r, .s, .b].contains (format (some o))

section Class
variable {w : Word} {o : Opcode}

theorem rdWen_of_opcode (ho : Opcode.ofBits (Rv32i.opcode w) = some o) :
    (ofInsn w).rdWen = (Rv32i.rd w != 0 && hasRd o) := by
  have hw : (ofInsn w).rdWen = (Rv32i.rd w != 0 && [Format.r, .i, .u, .j].contains
      (format (Opcode.ofBits (Rv32i.opcode w))) &&
        !(Opcode.ofBits (Rv32i.opcode w) == some .miscMem)) := rfl
  rw [hw, ho, Bool.and_assoc]
  rfl

theorem rs1Ren_of_opcode (ho : Opcode.ofBits (Rv32i.opcode w) = some o) (hsys : o ≠ .system) :
    (ofInsn w).rs1Ren = (Rv32i.rs1 w != 0 && hasRs1 o) := by
  have hw : (ofInsn w).rs1Ren = (Rv32i.rs1 w != 0 && [Format.r, .i, .s, .b].contains
      (format (Opcode.ofBits (Rv32i.opcode w))) &&
        !(Opcode.ofBits (Rv32i.opcode w) == some .miscMem ||
          Opcode.ofBits (Rv32i.opcode w) == some .system && matchesAny (Rv32i.funct3 w)
            [Funct3.csrrwi, Funct3.csrrsi, Funct3.csrrci])) := rfl
  have hs : (some o == some Opcode.system) = false := by simp [hsys]
  rw [hw, ho, Bool.and_assoc, hs, Bool.false_and, Bool.or_false]
  rfl

theorem rs2Ren_of_opcode (ho : Opcode.ofBits (Rv32i.opcode w) = some o) :
    (ofInsn w).rs2Ren = (Rv32i.rs2 w != 0 && hasRs2 o) := by
  have hw : (ofInsn w).rs2Ren = (Rv32i.rs2 w != 0 && [Format.r, .s, .b].contains
      (format (Opcode.ofBits (Rv32i.opcode w)))) := rfl
  rw [hw, ho]
  rfl

theorem illegal_of_opcode (ho : Opcode.ofBits (Rv32i.opcode w) = some o) :
    (ofInsn w).illegal = (switch (some o) (Rv32i.funct3 w) (Rv32i.funct7 w)).illegal := by
  rw [← ho]
  rfl

/-- The fields of a word of one class, whose registers and immediate are those of `i`. -/
theorem selects_of_opcode {i : Rv32i.Instruction}
    (ho : Opcode.ofBits (Rv32i.opcode w) = some o) (hsys : o ≠ .system)
    (hill : (switch (some o) (Rv32i.funct3 w) (Rv32i.funct7 w)).illegal = false)
    (hrd : i.dest = if hasRd o then some (Rv32i.rd w) else none)
    (hrs1 : i.source1 = if hasRs1 o then some (Rv32i.rs1 w) else none)
    (hrs2 : i.source2 = if hasRs2 o then some (Rv32i.rs2 w) else none)
    (himm : ∀ v, i.immediate = some v → ImmediateDecoder.imm w (format (some o)) = v)
    (hshamt : ∀ v, i.shiftAmount = some v →
      (ImmediateDecoder.imm w (format (some o))).setWidth 5 = v) : Selects w i := by
  have hfmt : (ofInsn w).fmt = format (some o) := congrArg format ho
  constructor
  · rw [illegal_of_opcode ho, hill]
  · exact fun r hr => names_of_eq hrd hr
  · rw [rdWen_of_opcode ho]
    exact enabled_iff hrd
  · exact fun r hr => names_of_eq hrs1 hr
  · rw [rs1Ren_of_opcode ho hsys]
    exact enabled_iff hrs1
  · exact fun r hr => names_of_eq hrs2 hr
  · rw [rs2Ren_of_opcode ho]
    exact enabled_iff hrs2
  · rw [hfmt]
    exact himm
  · rw [hfmt]
    exact hshamt

theorem eq_of_immI (v : Word) (hv : some ((Rv32i.immI w).signExtend 32) = some v) :
    ImmediateDecoder.immI w = v :=
  (ImmediateDecoder.immI_eq w).trans (Option.some.inj hv)

theorem of_none {β : Type} {P : β → Prop} (v : β) (hv : none = some v) : P v := by
  cases hv

theorem selects_of_decodeOpImm (hop : Rv32i.opcode w = 0b0010011#7) {i : Rv32i.Instruction}
    (h : Rv32i.decodeOpImm w = some i) : Selects w i := by
  have ho : Opcode.ofBits (Rv32i.opcode w) = some .opImm := by
    rw [hop]
    rfl
  unfold Rv32i.decodeOpImm at h
  split at h
  next c hc =>
    cases h
    have hill : (opSwitch false (Rv32i.funct3 w) (Rv32i.funct7 w)).illegal = false := by
      rw [Rv32i.ImmOp.ofFunct3_eq_some.mp hc]
      cases c <;> rfl
    exact selects_of_opcode ho (by decide) hill rfl rfl rfl eq_of_immI of_none
  next =>
    obtain ⟨c, hc, rfl⟩ := Option.map_eq_some_iff.mp h
    obtain ⟨h3, h7⟩ := Rv32i.ShiftOp.ofFunct_eq_some.mp hc
    have hill : (opSwitch false (Rv32i.funct3 w) (Rv32i.funct7 w)).illegal = false := by
      rw [h3, h7]
      cases c <;> rfl
    exact selects_of_opcode ho (by decide) hill rfl rfl rfl of_none
      fun v hv => (ImmediateDecoder.immI_shamt w).trans (Option.some.inj hv)

theorem selects_of_decodeMiscMem (hop : Rv32i.opcode w = 0b0001111#7) {i : Rv32i.Instruction}
    (h : Rv32i.decodeMiscMem w = some i) : Selects w i := by
  have ho : Opcode.ofBits (Rv32i.opcode w) = some .miscMem := by
    rw [hop]
    rfl
  unfold Rv32i.decodeMiscMem at h
  split at h
  next h3 =>
    cases h
    exact selects_of_opcode ho (by decide) (by rw [h3]; rfl) rfl rfl rfl of_none of_none
  next h3 =>
    cases h
    exact selects_of_opcode ho (by decide) (by rw [h3]; rfl) rfl rfl rfl of_none of_none
  next => cases h

/-- A word that decodes selects what its instruction names. -/
theorem selects_of_decode {i : Rv32i.Instruction} (h : Rv32i.decode w = some i) :
    Selects w i := by
  unfold Rv32i.decode at h
  split at h
  next hop =>
    cases h
    exact selects_of_opcode (o := .lui) (by rw [hop]; rfl) (by decide) rfl rfl rfl rfl
      (fun v hv => (ImmediateDecoder.immU_eq w).trans (Option.some.inj hv)) of_none
  next hop =>
    cases h
    exact selects_of_opcode (o := .auipc) (by rw [hop]; rfl) (by decide) rfl rfl rfl rfl
      (fun v hv => (ImmediateDecoder.immU_eq w).trans (Option.some.inj hv)) of_none
  next hop =>
    cases h
    exact selects_of_opcode (o := .jal) (by rw [hop]; rfl) (by decide) rfl rfl rfl rfl
      (fun v hv => (ImmediateDecoder.immJ_eq w).trans (Option.some.inj hv)) of_none
  next hop =>
    split at h
    next h3 =>
      cases h
      exact selects_of_opcode (o := .jalr) (by rw [hop]; rfl) (by decide)
        (bne_eq_false_iff_eq.mpr h3) rfl rfl rfl eq_of_immI of_none
    next => cases h
  next hop =>
    obtain ⟨c, hc, rfl⟩ := Option.map_eq_some_iff.mp h
    have hill : (branchSwitch (Rv32i.funct3 w)).illegal = false := by
      rw [Rv32i.BranchCond.ofFunct3_eq_some.mp hc]
      cases c <;> rfl
    exact selects_of_opcode (o := .branch) (by rw [hop]; rfl) (by decide) hill rfl rfl rfl
      (fun v hv => (ImmediateDecoder.immB_eq w).trans (Option.some.inj hv)) of_none
  next hop =>
    obtain ⟨c, hc, rfl⟩ := Option.map_eq_some_iff.mp h
    have hill : (switch (some .load) (Rv32i.funct3 w) (Rv32i.funct7 w)).illegal = false := by
      rw [Rv32i.LoadOp.ofFunct3_eq_some.mp hc]
      cases c <;> rfl
    exact selects_of_opcode (o := .load) (by rw [hop]; rfl) (by decide) hill rfl rfl rfl
      eq_of_immI of_none
  next hop =>
    obtain ⟨c, hc, rfl⟩ := Option.map_eq_some_iff.mp h
    have hill : (switch (some .store) (Rv32i.funct3 w) (Rv32i.funct7 w)).illegal = false := by
      rw [Rv32i.StoreOp.ofFunct3_eq_some.mp hc]
      cases c <;> rfl
    exact selects_of_opcode (o := .store) (by rw [hop]; rfl) (by decide) hill rfl rfl rfl
      (fun v hv => (ImmediateDecoder.immS_eq w).trans (Option.some.inj hv)) of_none
  next hop => exact selects_of_decodeOpImm hop h
  next hop =>
    obtain ⟨c, hc, rfl⟩ := Option.map_eq_some_iff.mp h
    obtain ⟨h3, h7⟩ := Rv32i.AluOp.ofFunct_eq_some.mp hc
    have hill : (opSwitch true (Rv32i.funct3 w) (Rv32i.funct7 w)).illegal = false := by
      rw [h3, h7]
      cases c <;> rfl
    exact selects_of_opcode (o := .op) (by rw [hop]; rfl) (by decide) hill rfl rfl rfl
      of_none of_none
  next hop => exact selects_of_decodeMiscMem hop h
  next => cases h

end Class

/-- The decoder accepts the encodings of the instructions of the manual, with the registers
and the immediate of the instruction, and every word that it accepts is one of them. -/
theorem decoder_inverts_encode :
    (∀ (i : Rv32i.Instruction) (f : i.Free), Selects (Rv32i.encode i f) i) ∧
    ∀ w, (ofInsn w).illegal = false →
      ∃! p : (i : Rv32i.Instruction) × i.Free, Rv32i.encode p.1 p.2 = w := by
  constructor
  · intro i f
    exact selects_of_decode (Rv32i.decode_encode i f)
  · intro w h
    obtain ⟨i, hi, -⟩ := Insn.implements (n := ⟨w, 0, 0, 0⟩) h
    exact Rv32i.existsUnique_encode hi

end Control
end Icicle
