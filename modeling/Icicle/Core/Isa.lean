import Icicle.Datapath.Semantics
import Icicle.Core.Tokens

/-! The stages implement RV32I: decode, execute and memory access, as they are connected,
compute what the manual specifies for a legal word. -/
namespace Icicle

/-- For every word that is not illegal, every address and all operands, the token behind
execute carries the value, the decision, the target and the access of its instruction. -/
theorem stages_implement_rv32i {i : FD} (h : (Decode.control i).illegal = false) (v₁ v₂ : Word) :
    ∃ instr, Rv32i.decode i.insn = some instr ∧
      (∀ v, instr.value i.pcRdata v₁ v₂ = some v →
        (executed i v₁ v₂).wdataSel = .aluResult ∧
          (MemoryAccess.resultMux (executed i v₁ v₂)).result = v) ∧
      (MemoryAccess.branch (executed i v₁ v₂)).taken = instr.taken v₁ v₂ ∧
      (∀ u, instr.target i.pcRdata v₁ = some u →
        (∀ k, (executed i v₁ v₂).branchTarget.getLsbD k = (decide (2 ≤ k) && u.getLsbD k)) ∧
          (executed i v₁ v₂).branchMisaligned = u.getLsbD 1) ∧
      (∀ w z a, instr.access v₁ = some (.load w z a) →
        (executed i v₁ v₂).memLoad = true ∧ (executed i v₁ v₂).memStore = false ∧
          (executed i v₁ v₂).memWidth = some (.ofManual w) ∧
          (executed i v₁ v₂).memUnsigned = z ∧ (executed i v₁ v₂).addResult = a ∧
          (executed i v₁ v₂).wdataSel = .memRdata) ∧
      (∀ w a, instr.access v₁ = some (.store w a) →
        (executed i v₁ v₂).memLoad = false ∧ (executed i v₁ v₂).memStore = true ∧
          (executed i v₁ v₂).memWidth = some (.ofManual w) ∧ (executed i v₁ v₂).addResult = a) ∧
      (instr.access v₁ = none →
        (executed i v₁ v₂).memLoad = false ∧ (executed i v₁ v₂).memStore = false) ∧
      (Decode.control i).fenceI = decide (instr = .fenceI) := by
  obtain ⟨instr, hdecode, himp⟩ :=
    Insn.implements (n := ⟨i.insn, i.pcRdata, v₁, v₂⟩) h
  exact ⟨instr, hdecode, himp.value, himp.taken, himp.target, himp.load, himp.store,
    himp.noAccess, himp.fenceI⟩

/-- `blt x1, x2, 8`. -/
def bltToken : FD := { state := .valid, pcRdata := 0x100, insn := 0x0020C463 }

/-- The comparison is signed. -/
theorem bltToken_implements : (Decode.control bltToken).illegal = false ∧
    (MemoryAccess.branch (executed bltToken 0xFFFFFFFF 1)).taken = true ∧
    (executed bltToken 0xFFFFFFFF 1).branchTarget.getLsbD 3 = true := by
  have hlegal : (Decode.control bltToken).illegal = false := by decide
  obtain ⟨instr, hdecode, -, htaken, htarget, -⟩ := stages_implement_rv32i hlegal 0xFFFFFFFF 1
  obtain rfl : Rv32i.Instruction.branch .blt 1 2 4 = instr :=
    Option.some.inj ((show _ = some _ by decide).symm.trans hdecode)
  exact ⟨hlegal, htaken.trans (by decide), (htarget 0x108 (by decide)).1 3⟩

end Icicle
