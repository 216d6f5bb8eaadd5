import Icicle.Core.Retirement

/-! The requests of the core from one cycle to the next. Memory access repeats a request
until it is answered; fetch may withdraw one, but does not change its address. -/
namespace Icicle
open Wishbone

namespace Cpu
variable {s : Cpu} {p : CpuIn}

theorem ibus_cyc (s : Cpu) (p : CpuIn) : (s.ibus p).requesting = (s.ibus p).cyc := by
  simp [Request.requesting, ibus, LoadStore.bus]

/-- The address of fetch depends on nothing but its program counter. -/
theorem ibus_adr (s : Cpu) (p : CpuIn) :
    (s.ibus p).adr = (Fetch.loadStore s.pf false false).bus.adr := rfl

end Cpu

section Run
variable (cfg : Config) (bus : ℕ → CpuIn)

theorem dbus_holds : Holds (dbusAt cfg bus) fun t => (bus t).dbus := by
  intro t hpend
  have hxm := Cpu.xm_of_dbus_pending cfg hpend
  rw [← stateAt_succ] at hxm
  unfold dbusAt Cpu.dbus
  rw [hxm]

/-- An unanswered request of fetch keeps its address, also while it is withdrawn. -/
theorem ibus_adr_succ {t : ℕ} (h : pending (ibusAt cfg bus t) (bus t).ibus = true) :
    (ibusAt cfg bus (t + 1)).adr = (ibusAt cfg bus t).adr := by
  have hpf := (Cpu.starves_of_ibus_pending cfg h).2.2
  rw [← stateAt_succ] at hpf
  unfold ibusAt
  rw [Cpu.ibus_adr, Cpu.ibus_adr, hpf]

theorem ibus_steady : Steady (ibusAt cfg bus) fun t => (bus t).ibus := by
  intro t hpend _
  exact ⟨ibus_adr_succ cfg bus hpend, rfl⟩

/-- Both buses keep the hold rule, in every run: an unanswered request on the data bus is
repeated in the next cycle as it is, one on the instruction bus keeps its address or is
withdrawn, and the address of the instruction bus changes only behind an answer or an
idle cycle. -/
theorem buses_hold :
    (∀ t, pending (dbusAt cfg bus t) (bus t).dbus = true →
      dbusAt cfg bus (t + 1) = dbusAt cfg bus t) ∧
    (∀ t, pending (ibusAt cfg bus t) (bus t).ibus = true →
      (ibusAt cfg bus (t + 1)).cyc = false ∨
        (ibusAt cfg bus (t + 1)).adr = (ibusAt cfg bus t).adr) ∧
    ∀ t u, t ≤ u → (ibusAt cfg bus u).adr ≠ (ibusAt cfg bus t).adr →
      ∃ w, t ≤ w ∧ w ≤ u ∧ ((ibusAt cfg bus w).cyc = false ∨
        w < u ∧ handshake (ibusAt cfg bus w) (bus w).ibus = true) := by
  refine ⟨dbus_holds cfg bus, fun t hpend => .inr (ibus_adr_succ cfg bus hpend), ?_⟩
  intro t u htu hadr
  by_contra hnone
  have hcyc : ∀ w, t ≤ w → w ≤ u → (ibusAt cfg bus w).requesting = true := by
    intro w hw hwu
    have hidle : (ibusAt cfg bus w).cyc ≠ false := fun hc => hnone ⟨w, hw, hwu, .inl hc⟩
    have hreq : (ibusAt cfg bus w).requesting = (ibusAt cfg bus w).cyc := Cpu.ibus_cyc _ _
    rw [hreq]
    exact eq_true_of_ne_false hidle
  have hopen : ∀ w, t ≤ w → w < u → handshake (ibusAt cfg bus w) (bus w).ibus = false := by
    intro w hw hwu
    exact eq_false_of_ne_true fun hh => hnone ⟨w, hw, hwu.le, .inr ⟨hwu, hh⟩⟩
  exact hadr ((ibus_steady cfg bus).eq_of_asserted htu hcyc hopen).1

end Run
end Icicle
