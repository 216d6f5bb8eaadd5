import Icicle.Core.ControlFlow

/-! Where a trap goes. The redirect of a taken branch comes before the one of a trap,
both in memory access and in PC generation, also when the branch itself traps. -/
namespace Icicle
open Wishbone

namespace Cpu
variable {cfg : Config} {s : Cpu} {p : CpuIn}

/-- A token that leaves memory access as a trap raises it and redirects PC generation
to what the token says is next. -/
theorem trap_redirects (h : (s.step cfg p).mw.state = .trap) : s.trapRaised p = true ∧
    (s.step cfg p).mw = MemoryAccess.token cfg s.xm p.dbus ∧
    (s.step cfg p).pf = ⟨.valid, (s.step cfg p).mw.pcWdata⟩ := by
  have hflows : ¬ Flows cfg s p (s.step cfg p) := by
    intro hf
    have hx : s.xm.state ≠ .bubble := by
      intro hb
      rw [hf.mw, MemoryAccess.token_bubble_iff.mpr hb] at h
      cases h
    rw [(hf.next hx).2.1] at h
    cases h
  cases step_cycle cfg s p with
  | wait _ _ _ _ _ mw => rw [mw] at h; cases h
  | redirect answered _ pf _ _ _ mw =>
    refine ⟨?_, mw, pf⟩
    rw [mw, MemoryAccess.token_trap_iff] at h
    unfold trapRaised
    rw [memStage_stall, answered, memStage_eq, h]
    rfl
  | interlock flows => exact absurd flows hflows
  | starve decodes => exact absurd decodes.toFlows hflows
  | advance decodes => exact absurd decodes.toFlows hflows

end Cpu

/-- The successor of a trap is the trap vector unless a branch is taken. -/
theorem MemoryAccess.pcWdata_of_trap {cfg : Config} {i : XM} :
    pcWdata cfg i true = cfg.trapVector ↔
      (i.state = .valid → (branch i).taken = true → i.branchTarget = cfg.trapVector) := by
  unfold pcWdata
  cases hv : i.state <;> cases hb : (branch i).taken <;> simp

section Run
variable (cfg : Config) (bus : ℕ → CpuIn)

/-- The token that retires in cycle `t` sends the core to the trap vector. -/
structure GoesToTrapVector (t : ℕ) : Prop where
  pcWdata : (stateAt cfg bus t).mw.pcWdata = cfg.trapVector
  pf : (stateAt cfg bus t).pf = ⟨.valid, cfg.trapVector⟩
  next : ∀ u b, t < u → (∀ w, t < w → w < u → retirement cfg bus w = none) →
    retirement cfg bus u = some b → b.token.pcRdata = cfg.trapVector

variable {cfg bus}

/-- A trap goes to the trap vector exactly if it is not a taken branch or jump, or
one whose rounded target is the trap vector. -/
theorem trap_goesToTrapVector_iff {t : ℕ} {r : Retirement} (h : retirement cfg bus t = some r)
    (ht : r.token.state = .trap) :
    ∃ u, t = u + 1 ∧ (stateAt cfg bus u).trapRaised (bus u) = true ∧
      r.token = MemoryAccess.token cfg (stateAt cfg bus u).xm (bus u).dbus ∧
      (GoesToTrapVector cfg bus t ↔ ((stateAt cfg bus u).xm.state = .valid →
        (MemoryAccess.branch (stateAt cfg bus u).xm).taken = true →
        (stateAt cfg bus u).xm.branchTarget = cfg.trapVector)) := by
  obtain ⟨hb, htok, -⟩ := retirement_eq_some.mp h
  cases t with
  | zero => exact absurd rfl hb
  | succ u =>
    have htrap : ((stateAt cfg bus u).step cfg (bus u)).mw.state = .trap := by
      rw [← stateAt_succ, ← htok, ht]
    obtain ⟨hraised, hmw, hpf⟩ := Cpu.trap_redirects htrap
    rw [← stateAt_succ] at htrap hmw hpf
    have hstage := MemoryAccess.token_trap_iff.mp (hmw ▸ htrap)
    have hpc : (stateAt cfg bus (u + 1)).mw.pcWdata =
        MemoryAccess.pcWdata cfg (stateAt cfg bus u).xm true := by
      rw [hmw, MemoryAccess.token_pcWdata, hstage]
    refine ⟨u, rfl, hraised, htok.trans hmw, ?_⟩
    rw [← MemoryAccess.pcWdata_of_trap, ← hpc]
    refine ⟨fun hg => hg.pcWdata, fun hvec => ⟨hvec, by rw [hpf, hvec], ?_⟩⟩
    intro v b huv hnone hv
    rw [next_retirement huv h hv hnone, htok, hvec]

/-- An instruction memory that holds the illegal word 0 everywhere. -/
def zeroEverywhere : ℕ → CpuIn := fun _ => ⟨⟨true, false, 0⟩, ⟨false, false, 0⟩⟩

theorem illegal_goesToTrapVector : GoesToTrapVector ⟨0, 0x100⟩ zeroEverywhere 5 := by
  have hmw : (stateAt ⟨0, 0x100⟩ zeroEverywhere 5).mw.state ≠ .bubble := by decide
  obtain ⟨u, hu, -, -, hiff⟩ := trap_goesToTrapVector_iff (retirement_of_mw hmw) (by decide)
  obtain rfl : u = 4 := by omega
  exact hiff.mpr fun _ htaken => absurd htaken (by decide)

/-- An instruction memory that holds `jal x0, 6` everywhere. -/
def jalEverywhere : ℕ → CpuIn := fun _ => ⟨⟨true, false, 0x0060006F⟩, ⟨false, false, 0⟩⟩

/-- The jump at address 0 traps and goes to the rounded target 4, not to the trap vector. -/
theorem misaligned_jump_misses_trapVector :
    let cfg : Config := ⟨0, 0x100⟩
    (stateAt cfg jalEverywhere 5).mw.state = .trap ∧
      (stateAt cfg jalEverywhere 5).mw.pcWdata = 4 ∧
      ¬ GoesToTrapVector cfg jalEverywhere 5 := by
  have hpc : (stateAt ⟨0, 0x100⟩ jalEverywhere 5).mw.pcWdata = 4 := by decide
  refine ⟨by decide, hpc, fun h => ?_⟩
  have hvec := h.pcWdata
  rw [hpc] at hvec
  exact absurd hvec (by decide)

end Run
end Icicle
