import Icicle.Core.Retirement
import Icicle.Framework.Embedding

/-! The core as a pipeline of the framework: `CPU.elaborate` hands its six stages to
`Pipeline`, and what holds of every pipeline holds of the core. -/
namespace Icicle
open Wishbone Pipeline

namespace Cpu
variable (cfg : Config) (s : Cpu) (p : CpuIn)

/-- The sources of the six stages in a cycle. -/
def sources : ℕ → Sources
  | 0 => (s.pcgenStage p).toSources
  | 1 => (s.fetchStage p).toSources
  | 2 => (s.decodeStage p).toSources
  | 3 => (s.executeStage p).toSources
  | 4 => (s.memStage p).toSources
  | 5 => s.writebackStage.toSources
  | _ => {}

/-- The registers between the stages, with the program counter that they all hold. -/
def pipelineRegs : List (Token Word) :=
  [⟨s.pf.state, s.pf.pcRdata⟩, ⟨s.fd.state, s.fd.pcRdata⟩, ⟨s.dx.state, s.dx.pcRdata⟩,
    ⟨s.xm.state, s.xm.pcRdata⟩, ⟨s.mw.state, s.mw.pcRdata⟩]

/-- A register that takes over its input, or else what it holds. -/
theorem token_of_moves {β : Type} (f : β → Token Word) (stall : Bool) {x y : β} {state : State}
    {a b : Word} (hx : f x = ⟨state, a⟩) (hy : f y = ⟨state, b⟩) :
    f (if !stall then x else y) = ⟨state, if !stall then a else b⟩ := by
  cases stall
  · exact hx
  · exact hy

/-- The registers move as `Pipeline` connects them. -/
theorem step_pipelineRegs : (s.step cfg p).pipelineRegs =
    Pipeline.step (s.sources p) ⟨.valid, (s.nextPF cfg p).pcRdata⟩ s.pipelineRegs := by
  have hpf : (⟨(s.step cfg p).pf.state, (s.step cfg p).pf.pcRdata⟩ : Token Word) =
      ⟨(s.pcgenStage p).oState s.pf.state,
        if !(s.pcgenStage p).stall then (s.nextPF cfg p).pcRdata else s.pf.pcRdata⟩ := by
    change (⟨(s.nextPF cfg p).state, (s.nextPF cfg p).pcRdata⟩ : Token Word) = _
    cases hs : (s.pcgenStage p).stall with
    | false => rfl
    | true =>
      rw [pcgenStage_stall] at hs
      have hr : s.redirect p = false := by
        rw [← fetchStage_flush]
        exact Stage.flush_of_stall hs
      have hstate : (s.pcgenStage p).oState s.pf.state = s.pf.state := by
        rw [pcgenStage_oState, if_pos hs]
      rw [nextPF_waits hs hr, hstate]
      rfl
  have hfd := token_of_moves (fun i : FD => ⟨i.state, i.pcRdata⟩) (s.fetchStage p).stall
    (x := Fetch.o s.pf (s.fetchLoadStore p) p.ibus ((s.fetchStage p).oState s.fd.state)) rfl
    (y := { s.fd with state := (s.fetchStage p).oState s.fd.state }) rfl
  have hdx := token_of_moves (fun i : DecodeRegs => ⟨i.state, i.pcRdata⟩) (s.decodeStage p).stall
    (x := Decode.o s.fd ((s.decodeStage p).oState s.decodeRegs.state)) rfl
    (y := { s.decodeRegs with state := (s.decodeStage p).oState s.decodeRegs.state }) rfl
  have hxm := token_of_moves (fun i : XM => ⟨i.state, i.pcRdata⟩) (s.executeStage p).stall
    (x := Execute.o Blocks.rtl s.dx ((s.executeStage p).oState s.xm.state)) rfl
    (y := { s.xm with state := (s.executeStage p).oState s.xm.state }) rfl
  have hmw := token_of_moves (fun i : MW => ⟨i.state, i.pcRdata⟩) (s.memStage p).stall
    (x := MemoryAccess.o Blocks.rtl cfg s.xm p.dbus (s.memStage p).trap
      ((s.memStage p).oState s.mw.state)) rfl
    (y := { s.mw with state := (s.memStage p).oState s.mw.state }) rfl
  change [_, _, _, _, _] = [_, _, _, _, _]
  rw [List.cons.injEq, List.cons.injEq, List.cons.injEq, List.cons.injEq, List.cons.injEq]
  exact ⟨hpf, hfd, hdx, hxm, hmw, rfl⟩

/-- A redirect flushes the stages between PC generation and memory access. -/
theorem flushesFront : FlushesFront (s.sources p) s.pipelineRegs := by
  have hlen : s.pipelineRegs.length = 5 := rfl
  unfold FlushesFront
  rw [hlen]
  have hflush : ∀ j ≤ 5, reduceOr (s.sources p j).flushSources =
      (s.redirect p && decide (1 ≤ j ∧ j < 4)) := by
    intro j hj
    have hone : ∀ b, reduceOr [b] = b := by simp
    interval_cases j
    · exact (Bool.and_false _).symm
    · exact (hone _).trans (Bool.and_true _).symm
    · exact (hone _).trans (Bool.and_true _).symm
    · exact (hone _).trans (Bool.and_true _).symm
    · exact (Bool.and_false _).symm
    · exact (Bool.and_false _).symm
  cases hr : s.redirect p with
  | false => exact .inl fun j hj => by rw [hflush j hj, hr, Bool.false_and]
  | true =>
    refine .inr ⟨4, by omega, fun j hj => by rw [hflush j hj, hr, Bool.true_and], ?_⟩
    exact memStage_stall_of_redirect hr

end Cpu

/-- The pipeline of the core. PC generation fills in the program counter that it issues. -/
def pipeline (cfg : Config) : Embedding (core cfg) Word where
  regs := Cpu.pipelineRegs
  sources := Cpu.sources
  fill s p := (s.nextPF cfg p).pcRdata
  reset := by
    intro o ho
    fin_cases ho <;> rfl
  step := Cpu.step_pipelineRegs cfg
  flushes := Cpu.flushesFront

section Run
variable (cfg : Config) (bus : ℕ → CpuIn)

/-- What retires, as the last stage of the pipeline sees it. -/
def Retirement.counter (r : Retirement) : Token Word := ⟨r.token.state, r.token.pcRdata⟩

theorem deliveredAt_eq (t : ℕ) : (pipeline cfg).deliveredAt bus t =
    ((retirement cfg bus t).map Retirement.counter).toList := by
  have hdelivered : (pipeline cfg).deliveredAt bus t =
      if (stateAt cfg bus t).writebackStage.stall || (stateAt cfg bus t).mw.state == .bubble then []
      else [⟨(stateAt cfg bus t).mw.state, (stateAt cfg bus t).mw.pcRdata⟩] := rfl
  rw [hdelivered, Cpu.writebackStage_stall, Bool.false_or]
  cases hr : retirement cfg bus t with
  | none => rw [if_pos (beq_iff_eq.mpr (retirement_eq_none.mp hr))]; rfl
  | some r =>
    obtain ⟨hb, htok, -⟩ := retirement_eq_some.mp hr
    rw [if_neg (by simpa using hb), ← htok]
    rfl

/-- Every instruction is accounted for: those that PC generation has issued and that were not
flushed have retired or are in the registers, in the order in which they were issued, and
those are traps that met a trap source of a stage. -/
theorem counters_accounted (t : ℕ) :
    (retired cfg bus t).map Retirement.counter ++ tokens (stateAt cfg bus t).pipelineRegs =
      ((pipeline cfg).remaining bus t).map fun x =>
        ⟨if x ∈ trapHitsBefore 5 ((pipeline cfg).sourcesAt bus) t then .trap else .valid,
          ((stateAt cfg bus x).nextPF cfg (bus x)).pcRdata⟩ := by
  have haccounts := (pipeline cfg).accounts bus t
  have hretired : (List.range t).flatMap ((pipeline cfg).deliveredAt bus) =
      (retired cfg bus t).map Retirement.counter := by
    rw [retired, ← Clocked.log_map, Clocked.log, List.filterMap_eq_flatMap_toList]
    exact congrArg (List.flatMap · _) (funext (deliveredAt_eq cfg bus))
  rw [hretired] at haccounts
  exact haccounts

end Run
end Icicle
