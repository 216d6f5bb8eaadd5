import Icicle.Core.Interlock

/-! The core with the black boxes of the formal flow. With the values that the replaced
blocks compute, it is the core itself on its buses and in its RVFI records. -/
namespace Icicle
open Wishbone

/-- The values of the black boxes in one cycle, one for each `AnySeq`. -/
structure AnySeq where
  rs1Data : Word
  rs2Data : Word
  addResult : Word
  addCarry : Bool
  result : Word

/-- It has the output registers of the two read ports, and no memory behind them. -/
def BlackBoxRegisterFile.step (v : AnySeq) (f : RegisterFile) (rs1 rs2 : RsPort) : RegisterFile :=
  { f with
    rs1Data := if rs1.en then if rs1.addr ≠ 0 then v.rs1Data else 0 else f.rs1Data
    rs2Data := if rs2.en then if rs2.addr ≠ 0 then v.rs2Data else 0 else f.rs2Data }

/-- The options `rvfi_blackbox_alu` and `rvfi_blackbox_regs`. -/
structure BlackBoxes where
  alu : Bool
  regs : Bool

def BlackBoxes.blocks (o : BlackBoxes) (v : AnySeq) : Blocks where
  adder := if o.alu then fun _ => (v.addResult, v.addCarry) else Blocks.rtl.adder
  resultMux := if o.alu then fun _ => v.result else Blocks.rtl.resultMux
  registerFile :=
    if o.regs then fun f rs1 rs2 _ => BlackBoxRegisterFile.step v f rs1 rs2
    else Blocks.rtl.registerFile

/-- The core with black boxes, clocked by the buses and by the values of the boxes. -/
def blackBoxCore (o : BlackBoxes) (cfg : Config) : Clocked (CpuIn × AnySeq) Cpu :=
  ⟨Cpu.reset cfg, fun s i => s.stepWith (o.blocks i.2) cfg i.1⟩

namespace Cpu
variable {cfg : Config} {s : Cpu} {p : CpuIn}

/-- What the blocks of the core compute in a cycle. -/
def values (s : Cpu) : AnySeq where
  rs1Data := s.regs.regs s.control.rs1
  rs2Data := s.regs.regs s.control.rs2
  addResult := (Execute.add s.dx).result
  addCarry := (Execute.add s.dx).carry
  result := (MemoryAccess.resultMux s.xm).result

/-- The same core with other contents of the register file. -/
def withRegisters (s : Cpu) (r : Registers) : Cpu := { s with regs := { s.regs with regs := r } }

/-- The contents of the register file behind the given options. -/
def registersOf (o : BlackBoxes) (s : Cpu) : Registers := if o.regs then fun _ => 0 else s.regs.regs

theorem registerFile_values (cfg : Config) (p : CpuIn) (o : BlackBoxes) (h0 : s.regs.regs 0 = 0) :
    (o.blocks s.values).registerFile { s.regs with regs := s.registersOf o } (s.rs1Port p)
        (s.rs2Port p) s.rdPort =
      { (s.step cfg p).regs with regs := (s.step cfg p).registersOf o } := by
  have hread : ∀ r, (if r ≠ 0 then s.regs.regs r else 0) = s.regs.regs r := by
    intro r
    split_ifs with hr
    · rfl
    · rw [not_ne_iff.mp hr, h0]
  cases hregs : o.regs with
  | false =>
    simp only [BlackBoxes.blocks, registersOf, hregs, Bool.false_eq_true, if_false]
    rfl
  | true =>
    simp only [BlackBoxes.blocks, registersOf, hregs, if_true, BlackBoxRegisterFile.step, values,
      step, stepWith, Blocks.rtl, RegisterFile.step, rs1Port, rs2Port, hread]

/-- With these values a cycle with black boxes is a cycle of the core. -/
theorem stepWith_values (o : BlackBoxes) (h0 : s.regs.regs 0 = 0) :
    (s.withRegisters (s.registersOf o)).stepWith (o.blocks s.values) cfg p =
      (s.step cfg p).withRegisters ((s.step cfg p).registersOf o) := by
  have hregs := registerFile_values cfg p o h0
  have hxm : s.nextXM (o.blocks s.values) p = s.nextXM Blocks.rtl p := by
    cases halu : o.alu <;> simp only [nextXM, Execute.o, BlackBoxes.blocks, halu] <;> rfl
  have hmw : s.nextMW (o.blocks s.values) cfg p = s.nextMW Blocks.rtl cfg p := by
    cases halu : o.alu <;> simp only [nextMW, MemoryAccess.o, BlackBoxes.blocks, halu] <;> rfl
  change Cpu.mk (s.nextPF cfg p) (s.nextFD p) (s.nextDecodeRegs p) _
    (s.nextXM (o.blocks s.values) p) (s.nextMW (o.blocks s.values) cfg p) s.nextRVFI = _
  rw [hxm, hmw]
  exact congrArg (fun f => Cpu.mk _ _ _ f _ _ _) hregs

end Cpu

section Run
variable (cfg : Config) (bus : ℕ → CpuIn)

/-- Nothing is ever written to the register 0. -/
theorem rdPort_addr_ne_zero {t : ℕ} (h : (stateAt cfg bus t).rdPort.en = true) :
    (stateAt cfg bus t).rdPort.addr ≠ 0 := by
  intro h0
  have hzero := (core_keepsZero cfg bus t).mw
  have hwrites : (stateAt cfg bus t).mw.writes 0 = true := by
    have hen : (stateAt cfg bus t).mw.state = .valid ∧ (stateAt cfg bus t).mw.rdWen = true := by
      simpa [Cpu.rdPort] using h
    exact writesTo_eq_true.mpr ⟨hen.1, hen.2, h0.symm⟩
  rw [hwrites] at hzero
  cases hzero

theorem regs_zero (t : ℕ) : (stateAt cfg bus t).regs.regs 0 = 0 := by
  induction t with
  | zero => rfl
  | succ t ih =>
    rw [stateAt_succ, Cpu.step_regs, (core_keepsZero cfg bus t).mw]
    exact ih

/-- The run with black boxes that take these values. -/
theorem blackBoxCore_run (o : BlackBoxes) (t : ℕ) :
    (blackBoxCore o cfg).run (fun u => (bus u, (stateAt cfg bus u).values)) t =
      (stateAt cfg bus t).withRegisters ((stateAt cfg bus t).registersOf o) := by
  induction t with
  | zero => cases hregs : o.regs <;> simp only [Cpu.registersOf, hregs] <;> rfl
  | succ t ih =>
    rw [Clocked.run_succ, ih, stateAt_succ]
    exact Cpu.stepWith_values o (regs_zero cfg bus t)

/-- The black boxes are sound, for every run of the core: with some values of the boxes
the core with black boxes drives the same requests and the same RVFI record in every
cycle. The register file returns 0 for the register 0, which nothing writes. -/
theorem blackBoxes_sound (o : BlackBoxes) :
    (∃ v : ℕ → AnySeq, ∀ t,
      ((blackBoxCore o cfg).run (fun u => (bus u, v u)) t).ibus (bus t) = ibusAt cfg bus t ∧
      ((blackBoxCore o cfg).run (fun u => (bus u, v u)) t).dbus = dbusAt cfg bus t ∧
      ((blackBoxCore o cfg).run (fun u => (bus u, v u)) t).rvfi = (stateAt cfg bus t).rvfi) ∧
    (∀ t, (stateAt cfg bus t).rdPort.en = true → (stateAt cfg bus t).rdPort.addr ≠ 0) ∧
    ∀ t, (stateAt cfg bus t).regs.regs 0 = 0 ∧
      (((stateAt cfg bus t).rs1Port (bus t)).en = true →
        ((stateAt cfg bus t).rs1Port (bus t)).addr = 0 →
        (stateAt cfg bus (t + 1)).regs.rs1Data = 0) ∧
      (((stateAt cfg bus t).rs2Port (bus t)).en = true →
        ((stateAt cfg bus t).rs2Port (bus t)).addr = 0 →
        (stateAt cfg bus (t + 1)).regs.rs2Data = 0) := by
  refine ⟨⟨fun u => (stateAt cfg bus u).values, fun t => ?_⟩,
    fun t => rdPort_addr_ne_zero cfg bus, fun t => ⟨regs_zero cfg bus t, ?_, ?_⟩⟩
  · rw [blackBoxCore_run]
    exact ⟨rfl, rfl, rfl⟩
  · intro hen haddr
    change (if ((stateAt cfg bus t).rs1Port (bus t)).en then _ else _) = (0 : Word)
    rw [if_pos hen, haddr, regs_zero]
  · intro hen haddr
    change (if ((stateAt cfg bus t).rs2Port (bus t)).en then _ else _) = (0 : Word)
    rw [if_pos hen, haddr, regs_zero]

end Run
end Icicle
