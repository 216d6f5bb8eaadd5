import Icicle.Core.Retirement

/-! The core without RVFI: the registers that only RVFI reads have no influence on the buses,
the program counter and the register file, whatever they hold. -/
namespace Icicle
open Wishbone

def FD.observed (i j : FD) : FD := { i with memFault := j.memFault }

def DecodeRegs.observed (i j : DecodeRegs) : DecodeRegs :=
  { i with
    insn := j.insn
    rs1 := j.rs1
    rs1Ren := j.rs1Ren
    rs2 := j.rs2
    rs2Ren := j.rs2Ren
    memFault := j.memFault }

def XM.observed (i j : XM) : XM :=
  { i with
    pcRdata := j.pcRdata
    insn := j.insn
    rs1 := j.rs1
    rs1Ren := j.rs1Ren
    rs1Rdata := j.rs1Rdata
    rs2 := j.rs2
    rs2Ren := j.rs2Ren
    memFault := j.memFault }

def MW.observed (i j : MW) : MW :=
  { i with
    pcRdata := j.pcRdata
    pcWdata := j.pcWdata
    insn := j.insn
    rs1 := j.rs1
    rs1Ren := j.rs1Ren
    rs1Rdata := j.rs1Rdata
    rs2 := j.rs2
    rs2Ren := j.rs2Ren
    rs2Rdata := j.rs2Rdata
    memLoad := j.memLoad
    memStore := j.memStore
    memAddrAligned := j.memAddrAligned
    memMask := j.memMask
    memRdataAligned := j.memRdataAligned
    memWdataAligned := j.memWdataAligned
    memFault := j.memFault }

namespace Cpu
variable (s j k : Cpu) (p : CpuIn) (cfg : Config)

/-- The core with other values in the registers that only RVFI reads. -/
def observed : Cpu :=
  { s with
    fd := s.fd.observed j.fd
    decodeRegs := s.decodeRegs.observed j.decodeRegs
    xm := s.xm.observed j.xm
    mw := s.mw.observed j.mw
    rvfi := j.rvfi }

/-- A cycle does not look at these registers, except to fill them. -/
theorem observed_step : ((s.observed j).step cfg p).observed k = (s.step cfg p).observed k := by
  have hfd : ((s.observed j).nextFD p).observed k.fd = (s.nextFD p).observed k.fd := by
    change FD.observed (if !(s.fetchStage p).stall then _ else _) k.fd =
      FD.observed (if !(s.fetchStage p).stall then _ else _) k.fd
    cases (s.fetchStage p).stall <;> rfl
  have hdx : ((s.observed j).nextDecodeRegs p).observed k.decodeRegs =
      (s.nextDecodeRegs p).observed k.decodeRegs := by
    change DecodeRegs.observed (if !(s.decodeStage p).stall then _ else _) k.decodeRegs =
      DecodeRegs.observed (if !(s.decodeStage p).stall then _ else _) k.decodeRegs
    cases (s.decodeStage p).stall <;> rfl
  have hxm : ((s.observed j).nextXM Blocks.rtl p).observed k.xm =
      (s.nextXM Blocks.rtl p).observed k.xm := by
    change XM.observed (if !(s.executeStage p).stall then _ else _) k.xm =
      XM.observed (if !(s.executeStage p).stall then _ else _) k.xm
    cases (s.executeStage p).stall <;> rfl
  have hmw : ((s.observed j).nextMW Blocks.rtl cfg p).observed k.mw =
      (s.nextMW Blocks.rtl cfg p).observed k.mw := by
    change MW.observed (if !(s.memStage p).stall then _ else _) k.mw =
      MW.observed (if !(s.memStage p).stall then _ else _) k.mw
    cases (s.memStage p).stall <;> rfl
  unfold step stepWith observed
  rw [Cpu.mk.injEq]
  exact ⟨rfl, hfd, hdx, rfl, hxm, hmw, rfl⟩

end Cpu

/-- The core with any values in these registers after each cycle. -/
def disturbed (cfg : Config) : Clocked (CpuIn × Cpu) Cpu where
  reset := Cpu.reset cfg
  step s i := (s.step cfg i.1).observed i.2

variable (cfg : Config) (bus : ℕ → CpuIn) (other : ℕ → Cpu)

def disturbedAt (t : ℕ) : Cpu := (disturbed cfg).run (fun u => (bus u, other u)) t

theorem disturbedAt_eq (t : ℕ) :
    ∃ j, disturbedAt cfg bus other t = (stateAt cfg bus t).observed j := by
  induction t with
  | zero => exact ⟨stateAt cfg bus 0, rfl⟩
  | succ t ih =>
    obtain ⟨j, hj⟩ := ih
    refine ⟨other t, ?_⟩
    change ((disturbedAt cfg bus other t).step cfg (bus t)).observed (other t) = _
    rw [hj, Cpu.observed_step, stateAt_succ]

/-- RVFI only observes: whatever the registers that only it reads hold in each cycle of a run,
the requests on both buses are the same, and so are the program counter, the register file
and the cycles in which instructions retire. -/
theorem rvfi_does_not_interfere (t : ℕ) :
    (disturbedAt cfg bus other t).ibus (bus t) = ibusAt cfg bus t ∧
      (disturbedAt cfg bus other t).dbus = dbusAt cfg bus t ∧
      (disturbedAt cfg bus other t).pf = (stateAt cfg bus t).pf ∧
      (disturbedAt cfg bus other t).regs = (stateAt cfg bus t).regs ∧
      (disturbedAt cfg bus other t).mw.state = (stateAt cfg bus t).mw.state := by
  obtain ⟨j, hj⟩ := disturbedAt_eq cfg bus other t
  rw [hj]
  exact ⟨rfl, rfl, rfl, rfl, rfl⟩

end Icicle
