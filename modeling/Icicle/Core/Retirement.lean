import Icicle.Core.Tokens

/-! Runs of the core from reset: the tokens that writeback consumes and the RVFI
records they leave behind. -/
namespace Icicle
open Wishbone

/-- A token that writeback consumes, and the record in the RVFI registers one cycle later. -/
structure Retirement where
  token : MW
  rvfi : RVFI

namespace Cpu

theorem retire_eq_some {s : Cpu} {i : MW} :
    s.retire = some i ↔ s.mw.state ≠ .bubble ∧ s.mw = i := by
  simp [retire]

theorem retire_eq_none {s : Cpu} : s.retire = none ↔ s.mw.state = .bubble := by
  simp [retire]

end Cpu

section Run
variable (cfg : Config) (bus : ℕ → CpuIn)

/-- The registers of the core at the start of cycle `t`. -/
abbrev stateAt (t : ℕ) : Cpu := (core cfg).run bus t

theorem stateAt_succ (t : ℕ) : stateAt cfg bus (t + 1) = (stateAt cfg bus t).step cfg (bus t) := rfl

/-- The request on the instruction bus in cycle `t`. -/
def ibusAt (t : ℕ) : Request 30 := (stateAt cfg bus t).ibus (bus t)

/-- The request on the data bus in cycle `t`. -/
def dbusAt (t : ℕ) : Request 30 := (stateAt cfg bus t).dbus

/-- What retires in cycle `t`. -/
def retirement (t : ℕ) : Option Retirement :=
  (stateAt cfg bus t).retire.map fun i => ⟨i, (stateAt cfg bus (t + 1)).rvfi⟩

/-- What has retired before cycle `t`, oldest first. -/
def retired (t : ℕ) : List Retirement := Clocked.log (retirement cfg bus) t

/-- The RVFI record that cycle `t` produces, if its `valid` bit is set. -/
def recordAt (t : ℕ) : Option RVFI :=
  let r := (stateAt cfg bus (t + 1)).rvfi
  if r.valid then some r else none

/-- The RVFI records with `valid` set, oldest first. -/
def records (t : ℕ) : List RVFI := Clocked.log (recordAt cfg bus) t

variable {cfg bus}

theorem retirement_eq_some {t : ℕ} {r : Retirement} : retirement cfg bus t = some r ↔
    (stateAt cfg bus t).mw.state ≠ .bubble ∧ r.token = (stateAt cfg bus t).mw ∧
      r.rvfi = Writeback.record (stateAt cfg bus t).mw (stateAt cfg bus t).rvfi := by
  have hrvfi : (stateAt cfg bus (t + 1)).rvfi = (stateAt cfg bus t).nextRVFI := rfl
  obtain ⟨token, rvfi⟩ := r
  unfold retirement
  rw [hrvfi, Cpu.nextRVFI]
  cases hr : (stateAt cfg bus t).retire with
  | none => simp [Cpu.retire_eq_none.mp hr]
  | some i =>
    obtain ⟨hb, rfl⟩ := Cpu.retire_eq_some.mp hr
    simp [hb, eq_comm]

/-- What retires in cycle `t`, as a term that evaluates. -/
theorem retirement_of_mw {t : ℕ} (h : (stateAt cfg bus t).mw.state ≠ .bubble) :
    retirement cfg bus t = some ⟨(stateAt cfg bus t).mw,
      Writeback.record (stateAt cfg bus t).mw (stateAt cfg bus t).rvfi⟩ :=
  retirement_eq_some.mpr ⟨h, rfl, rfl⟩

theorem retirement_eq_none {t : ℕ} :
    retirement cfg bus t = none ↔ (stateAt cfg bus t).mw.state = .bubble := by
  unfold retirement
  rw [Option.map_eq_none_iff, Cpu.retire_eq_none]

/-- The `valid` bit of RVFI is set in the cycle after a retirement and in no other. -/
theorem recordAt_eq (t : ℕ) :
    recordAt cfg bus t = (retirement cfg bus t).map Retirement.rvfi := by
  have hrvfi : (stateAt cfg bus (t + 1)).rvfi = (stateAt cfg bus t).nextRVFI := rfl
  unfold retirement recordAt
  rw [hrvfi, Cpu.nextRVFI]
  cases (stateAt cfg bus t).retire with
  | none => rfl
  | some i => rfl

theorem records_eq (t : ℕ) :
    records cfg bus t = (retired cfg bus t).map Retirement.rvfi := by
  have he : recordAt cfg bus = fun u => (retirement cfg bus u).bind fun r => some r.rvfi := by
    funext u
    rw [recordAt_eq, Option.map_eq_bind]
    rfl
  unfold records
  rw [he, Clocked.log_bind, retired, List.filterMap_eq_map']

theorem retired_succ_none {t : ℕ} (h : retirement cfg bus t = none) :
    retired cfg bus (t + 1) = retired cfg bus t := Clocked.log_succ_none h

theorem retired_succ_some {t : ℕ} {r : Retirement} (h : retirement cfg bus t = some r) :
    retired cfg bus (t + 1) = retired cfg bus t ++ [r] := Clocked.log_succ_some h

/-- RVFI counts the retirements. -/
theorem rvfi_order (t : ℕ) :
    (stateAt cfg bus t).rvfi.order = BitVec.ofNat 64 (retired cfg bus t).length := by
  induction t with
  | zero => rfl
  | succ t ih =>
    have hrvfi : (stateAt cfg bus (t + 1)).rvfi = (stateAt cfg bus t).nextRVFI := rfl
    cases hr : (stateAt cfg bus t).retire with
    | none =>
      have hn : retirement cfg bus t = none := by rw [retirement, hr]; rfl
      rw [retired_succ_none hn, hrvfi, Cpu.nextRVFI, hr]
      exact ih
    | some i =>
      have hn : retirement cfg bus t = some ⟨i, (stateAt cfg bus (t + 1)).rvfi⟩ := by
        rw [retirement, hr]; rfl
      rw [retired_succ_some hn, hrvfi, Cpu.nextRVFI, hr, List.length_append]
      change (stateAt cfg bus t).rvfi.order + 1 = _
      rw [ih, BitVec.ofNat_add]
      rfl

end Run
end Icicle
