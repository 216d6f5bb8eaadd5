import Icicle.Core.Sequential
import Icicle.Core.Retirement

/-! The core connected to an instruction memory and a data memory, which answer after
any number of wait states. -/
namespace Icicle
open Wishbone

section Run
variable (cfg : Config) (bus : ℕ → CpuIn) (m : Storage) (init : BitVec 30 → Word)

/-- The data memory at the start of cycle `t`. -/
def dmemAt (t : ℕ) : BitVec 30 → Word := contents (dbusAt cfg bus) (fun u => (bus u).dbus) init t

/-- The buses are connected to the storage, with any wait states: when a request is
answered, it is answered as the storage says. -/
structure Environment : Prop where
  ibus : ∀ t, handshake (ibusAt cfg bus t) (bus t).ibus = true →
    (bus t).ibus.err = (m.imem (ibusAt cfg bus t).adr).isNone ∧
      ∀ word, m.imem (ibusAt cfg bus t).adr = some word → (bus t).ibus.datR = word
  dbus : ∀ t, handshake (dbusAt cfg bus t) (bus t).dbus = true →
    (bus t).dbus.err =
        m.faults (dbusAt cfg bus t).adr (dbusAt cfg bus t).sel (dbusAt cfg bus t).we ∧
      ((bus t).dbus.err = false → (dbusAt cfg bus t).we = false →
        (bus t).dbus.datR = dmemAt cfg bus init t (dbusAt cfg bus t).adr)

variable {cfg bus m init} in
theorem dmemAt_succ (t : ℕ) : dmemAt cfg bus init (t + 1) =
    update (dmemAt cfg bus init t) (dbusAt cfg bus t) (bus t).dbus := rfl

end Run

/-- What the instruction memory drives in a cycle. -/
def Storage.fetchAnswer (m : Storage) (r : Request 30) (wait : Bool) : Response :=
  match m.imem r.adr with
  | some word => ⟨!wait, false, word⟩
  | none => ⟨false, !wait, 0⟩

/-- What the data memory drives in a cycle. -/
def Storage.dataAnswer (m : Storage) (dmem : BitVec 30 → Word) (r : Request 30) (wait : Bool) :
    Response :=
  if m.faults r.adr r.sel r.we then ⟨false, !wait, 0⟩ else ⟨!wait, false, dmem r.adr⟩

theorem Storage.fetchAnswer_spec {m : Storage} {r : Request 30} {wait : Bool}
    (h : (m.fetchAnswer r wait).answers = true) :
    (m.fetchAnswer r wait).err = (m.imem r.adr).isNone ∧
      ∀ word, m.imem r.adr = some word → (m.fetchAnswer r wait).datR = word := by
  unfold fetchAnswer Response.answers at *
  cases him : m.imem r.adr with
  | none => exact ⟨by simpa [him] using h, nofun⟩
  | some w => exact ⟨rfl, fun word hw => Option.some.inj hw⟩

theorem Storage.dataAnswer_spec {m : Storage} {dmem : BitVec 30 → Word} {r : Request 30}
    {wait : Bool} (h : (m.dataAnswer dmem r wait).answers = true) :
    (m.dataAnswer dmem r wait).err = m.faults r.adr r.sel r.we ∧
      ((m.dataAnswer dmem r wait).err = false → (m.dataAnswer dmem r wait).datR = dmem r.adr) := by
  unfold dataAnswer Response.answers at *
  cases hf : m.faults r.adr r.sel r.we with
  | true =>
    have hwait : wait = false := by simpa [hf] using h
    exact ⟨by simp [hwait], by simp [hwait]⟩
  | false => exact ⟨rfl, fun _ => rfl⟩

/-- The wait states of one cycle. -/
structure Waits where
  ibus : Bool
  dbus : Bool

/-- The answers to the core; its request for an instruction depends on the data bus. -/
def Storage.answer (m : Storage) (dmem : BitVec 30 → Word) (s : Cpu) (w : Waits) : CpuIn :=
  let dbus := m.dataAnswer dmem s.dbus w.dbus
  { ibus := m.fetchAnswer (s.ibus ⟨⟨false, false, 0⟩, dbus⟩) w.ibus
    dbus := dbus }

/-- The core and the data memory, clocked by the wait states. -/
def system (cfg : Config) (m : Storage) (init : BitVec 30 → Word) :
    Clocked Waits (Cpu × (BitVec 30 → Word)) where
  reset := (Cpu.reset cfg, init)
  step := fun (s, dmem) w =>
    let p := m.answer dmem s w
    (s.step cfg p, update dmem s.dbus p.dbus)

section System
variable (cfg : Config) (m : Storage) (init : BitVec 30 → Word) (waits : ℕ → Waits)

/-- What the buses answer in a run of the system. -/
def answersAt (t : ℕ) : CpuIn :=
  let (s, dmem) := (system cfg m init).run waits t
  m.answer dmem s (waits t)

/-- The system is the core with the answers that it gives. -/
theorem system_run (t : ℕ) : (system cfg m init).run waits t =
    (stateAt cfg (answersAt cfg m init waits) t,
      dmemAt cfg (answersAt cfg m init waits) init t) := by
  induction t with
  | zero => rfl
  | succ t ih =>
    have hanswers : answersAt cfg m init waits t =
        m.answer (dmemAt cfg (answersAt cfg m init waits) init t)
          (stateAt cfg (answersAt cfg m init waits) t) (waits t) := by
      rw [answersAt, ih]
    have hstep : ∀ s dmem w, (system cfg m init).step (s, dmem) w =
        (s.step cfg (m.answer dmem s w), update dmem s.dbus (m.answer dmem s w).dbus) :=
      fun _ _ _ => rfl
    rw [Clocked.run_succ, ih, hstep, ← hanswers]
    rfl

theorem answersAt_eq (t : ℕ) : answersAt cfg m init waits t =
    m.answer (dmemAt cfg (answersAt cfg m init waits) init t)
      (stateAt cfg (answersAt cfg m init waits) t) (waits t) := by
  rw [answersAt, system_run]

/-- Every storage with every pattern of wait states is an environment. -/
theorem system_environment : Environment cfg (answersAt cfg m init waits) m init := by
  constructor
  · intro t hhand
    have hans : (answersAt cfg m init waits t).ibus =
        m.fetchAnswer (ibusAt cfg (answersAt cfg m init waits) t) (waits t).ibus := by
      unfold ibusAt
      rw [answersAt_eq]
      rfl
    have hanswers := (Bool.and_eq_true_iff.mp hhand).2
    rw [hans] at hanswers ⊢
    exact Storage.fetchAnswer_spec hanswers
  · intro t hhand
    have hans : (answersAt cfg m init waits t).dbus = m.dataAnswer
        (dmemAt cfg (answersAt cfg m init waits) init t)
        (dbusAt cfg (answersAt cfg m init waits) t) (waits t).dbus := by
      unfold dbusAt
      rw [answersAt_eq]
      rfl
    have hanswers := (Bool.and_eq_true_iff.mp hhand).2
    rw [hans] at hanswers ⊢
    obtain ⟨herr, hdat⟩ := Storage.dataAnswer_spec hanswers
    exact ⟨herr, fun he _ => hdat he⟩

end System
end Icicle
