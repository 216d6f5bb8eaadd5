import Icicle.Core.BusHold
import Icicle.Core.HartRefinement
import Icicle.Library.Interconnect
import Icicle.Soc.FlashRead
import Icicle.Soc.Ice40Spram

/-! The system on chip: the core, the flash controller and the memory on one bus, with
the arbiter, the address decoder and the CSR bridge behind the bus as parameters. -/
namespace Icicle
open Wishbone Bytes

namespace Cpu

/-- Fetch hears of the data bus whether a request is answered, and how, but not the data. -/
theorem ibus_congr (s : Cpu) {p q : CpuIn} (hack : p.dbus.ack = q.dbus.ack)
    (herr : p.dbus.err = q.dbus.err) : s.ibus p = s.ibus q := by
  have hmem : s.memStage p = s.memStage q := by
    simp only [memStage, MemoryAccess.sources, LoadStore.busy, LoadStore.trap, LoadStore.fault,
      hack, herr]
  have hredirect : s.redirect p = s.redirect q := by
    simp only [redirect, branchTaken, trapRaised, hmem]
  have hdecode : s.decodeStage p = s.decodeStage q := by
    simp only [decodeStage, executeStage, hmem, hredirect]
  simp only [ibus, fetchLoadStore, hdecode, hredirect]

end Cpu

/-- The buses that `arbiter` joins, in the order in which they are added. -/
inductive Initiator where
  | ibus | dbus
  deriving DecidableEq

namespace Initiator

def other : Initiator → Initiator
  | ibus => dbus
  | dbus => ibus

theorem eq_of_ne {k l i : Initiator} (hkl : k ≠ l) (hi : i ≠ l) : i = k := by
  cases k <;> cases l <;> cases i <;> first | rfl | contradiction

end Initiator

/-- The buses behind `decoder`. -/
inductive Target where
  | flash | ram | csr
  deriving DecidableEq

theorem Target.exists_iff {P : Target → Prop} : (∃ k, P k) ↔ P .flash ∨ P .ram ∨ P .csr := by
  constructor
  · rintro ⟨k, hk⟩
    cases k with
    | flash => exact .inl hk
    | ram => exact .inr (.inl hk)
    | csr => exact .inr (.inr hk)
  · rintro (h | h | h)
    · exact ⟨_, h⟩
    · exact ⟨_, h⟩
    · exact ⟨_, h⟩

/-- The first word of a window that starts at a byte address. -/
def wordAddress (addr : Word) : BitVec 30 := addr.extractLsb' 2 30

/-- Where the targets are added to the decoder; the CSR bus has byte addresses of 16 bits. -/
def window : Target → Window 30
  | .flash => ⟨22, wordAddress 0x00000000⟩
  | .ram => ⟨15, wordAddress 0x40000000⟩
  | .csr => ⟨14, wordAddress 0x80000000⟩

/-- An address lies in one window at most. -/
theorem window_unique {k l : Target} {adr : BitVec 30} (hk : (window k).contains adr = true)
    (hl : (window l).contains adr = true) : k = l := by
  have hwidth : ∀ k, (window k).width ≤ 28 := by intro k; cases k <;> decide
  have hbit : ∀ i, 28 ≤ i → (window k).base.getLsbD i = (window l).base.getLsbD i := fun i hi =>
    ((window k).getLsbD_of_contains hk ((hwidth k).trans hi)).symm.trans
      ((window l).getLsbD_of_contains hl ((hwidth l).trans hi))
  have h28 := hbit 28 le_rfl
  have h29 := hbit 29 (by decide)
  cases k <;> cases l <;> first | rfl | exact absurd h28 (by decide) | exact absurd h29 (by decide)

/-- Initiators that take turns, a cycle after the owner has gone idle. -/
def takingTurns : Arbiter Initiator where
  State := Initiator
  reset := .ibus
  grant s := s
  step s cyc := if !cyc s && cyc s.other then s.other else s
  keeps s cyc h := by simp [h]
  yields s cyc i h hi := by
    have hother : i = s.other := by
      cases i <;> cases s <;> first | rfl | (rw [hi] at h; cases h)
    subst hother
    simp [h, hi]

/-- A decoder that keeps the cycle from the targets that a request is not for. -/
def maskingCycles : Decoder window where
  request r k :=
    if (window k).contains r.adr then r.within (window k)
    else { r.within (window k) with cyc := false }
  answer r p :=
    { ack := (p .flash).ack || (p .ram).ack || (p .csr).ack
      err := (p .flash).err || (p .ram).err || (p .csr).err
      datR :=
        if (window .flash).contains r.adr then (p .flash).datR
        else if (window .ram).contains r.adr then (p .ram).datR
        else if (window .csr).contains r.adr then (p .csr).datR
        else 0 }
  apart := window_unique
  inside r k h := if_pos h
  outside r k h := by simp [h]
  ack r p := by simp [Target.exists_iff, or_assoc]
  err r p := by simp [Target.exists_iff, or_assoc]
  datR r p k h := by
    dsimp only
    split_ifs with h1 h2 h3
    · rw [window_unique h1 h]
    · rw [window_unique h2 h]
    · rw [window_unique h3 h]
    · cases k <;> contradiction

/-- A bridge that reads or writes the bytes of a word one after another, and acknowledges
the request behind them. It is connected to a bus that gives it a byte in each cycle. -/
structure ByteBridge where
  cycle : ℕ := 0
  ack : Bool := false
  datR : Word := 0

def takingBytes : Bridge 14 where
  State := ByteBridge
  In := BitVec 8
  reset := {}
  ack := ByteBridge.ack
  datR := ByteBridge.datR
  step s r i :=
    { cycle :=
        if s.ack then 0
        else if r.requesting && decide (s.cycle < 4) then s.cycle + 1
        else s.cycle
      ack := r.requesting && decide (4 ≤ s.cycle) && !s.ack
      datR :=
        if r.requesting && decide (0 < s.cycle) then i ++ s.datR.extractLsb' 8 24
        else s.datR }
  ack_reset := rfl
  ack_step s r i h := by
    obtain ⟨hreq, hack⟩ := Bool.and_eq_true_iff.mp h
    exact ⟨(Bool.and_eq_true_iff.mp hreq).1, by simpa using hack⟩

/-- What the system is built from, and what it finds in its memories. -/
structure SocParts where
  arbiter : Arbiter Initiator
  decoder : Decoder window
  bridge : Bridge 14
  block : SbSpram.Block
  blocks : Fin 2 → Fin 2 → block.State
  board : BoardSetup

/-- `CPU(reset_vector=0x00100000, trap_vector=0x00100000)`. -/
def socConfig : Config where
  resetVector := 0x00100000
  trapVector := 0x00100000

structure Soc (p : SocParts) where
  cpu : Cpu
  arbiter : p.arbiter.State
  board : Board
  ram : Ice40Spram p.block
  csr : p.bridge.State

/-- What comes from outside in a cycle: what the bus behind the bridge gives to it, and the
level of the data line of the flash chip if the chip does not drive it. -/
structure SocIn (p : SocParts) where
  csr : p.bridge.In
  line : Bool

namespace Soc
variable {p : SocParts} (s : Soc p)

/-- What the targets drive while a request is on the bus. The RAM and the bridge have no
error line. -/
def targets (r : Request 30) : Target → Response
  | .flash => s.board.flash.response
  | .ram => s.ram.response (p.decoder.request r .ram)
  | .csr => ⟨p.bridge.ack s.csr, false, p.bridge.datR s.csr⟩

def respond (r : Request 30) : Response := p.decoder.answer r (s.targets r)

def grant : Initiator := p.arbiter.grant s.arbiter

/-- The request for an instruction. It depends on the answer to the data bus, which the
owner of the bus hears of. -/
def ibus : Request 30 :=
  s.cpu.ibus
    { ibus := ⟨false, false, 0⟩
      dbus := answerTo s.grant (s.respond s.cpu.dbus) .dbus }

def request : Initiator → Request 30
  | .ibus => s.ibus
  | .dbus => s.cpu.dbus

/-- The request of the owner. -/
def bus : Request 30 := s.request s.grant

/-- What the core hears of the answer on the bus. -/
def answers : CpuIn where
  ibus := answerTo s.grant (s.respond s.bus) .ibus
  dbus := answerTo s.grant (s.respond s.bus) .dbus

/-- The request is the one that the core makes with the answers that it hears. -/
theorem ibus_eq : s.cpu.ibus s.answers = s.ibus := by
  have hdata : s.answers.dbus = answerTo s.grant (s.respond s.cpu.dbus) .dbus ∨
      s.grant ≠ .dbus := by
    by_cases hg : s.grant = .dbus
    · left
      have hbus : s.bus = s.cpu.dbus := by rw [bus, hg]; rfl
      rw [answers, hbus]
    · exact .inr hg
  rcases hdata with hdata | hg
  · exact s.cpu.ibus_congr (congrArg Response.ack hdata) (congrArg Response.err hdata)
  · have hquiet : ∀ r : Response, answerTo s.grant r .dbus = ⟨false, false, r.datR⟩ :=
      fun r => if_neg (Ne.symm hg)
    refine s.cpu.ibus_congr ?_ ?_
    · rw [answers, hquiet, hquiet]
    · rw [answers, hquiet, hquiet]

def step (i : SocIn p) : Soc p where
  cpu := s.cpu.step socConfig s.answers
  arbiter := p.arbiter.step s.arbiter fun k => (s.request k).cyc
  board := s.board.step (Flash.timerWidth p.board.clkFrequency) p.board.contents
    { bus := p.decoder.request s.bus .flash
      line := i.line }
  ram := s.ram.step (p.decoder.request s.bus .ram)
  csr := p.bridge.step s.csr (p.decoder.request s.bus .csr) i.csr

end Soc

def soc (p : SocParts) : Clocked (SocIn p) (Soc p) where
  reset :=
    { cpu := Cpu.reset socConfig
      arbiter := p.arbiter.reset
      board := (board 22 p.board).reset
      ram := (spram p.blocks).reset
      csr := p.bridge.reset }
  step := Soc.step

section Run
variable (p : SocParts) (inp : ℕ → SocIn p)

def socAt (t : ℕ) : Soc p := (soc p).run inp t

/-- What the core hears in each cycle. -/
def socAnswers (t : ℕ) : CpuIn := (socAt p inp t).answers

def grantAt (t : ℕ) : Initiator := (socAt p inp t).grant

/-- The requests of the core. -/
def requestAt (t : ℕ) : Initiator → Request 30
  | .ibus => ibusAt socConfig (socAnswers p inp) t
  | .dbus => dbusAt socConfig (socAnswers p inp) t

/-- The request on the bus. -/
def busAt (t : ℕ) : Request 30 := requestAt p inp t (grantAt p inp t)

/-- What the targets drive. -/
def targetsAt (t : ℕ) : Target → Response := (socAt p inp t).targets (busAt p inp t)

/-- The answer on the bus. -/
def respondAt (t : ℕ) : Response := p.decoder.answer (busAt p inp t) (targetsAt p inp t)

def flashIn (t : ℕ) : BoardIn 22 where
  bus := p.decoder.request (busAt p inp t) .flash
  line := (inp t).line

def ramIn (t : ℕ) : Request 15 := p.decoder.request (busAt p inp t) .ram

variable {p inp}

/-- The system is the core with the answers that it gives. -/
theorem socAt_cpu (t : ℕ) : (socAt p inp t).cpu = stateAt socConfig (socAnswers p inp) t := by
  induction t with
  | zero => rfl
  | succ t ih =>
    rw [stateAt_succ, ← ih]
    rfl

theorem request_eq (t : ℕ) : (socAt p inp t).request = requestAt p inp t := by
  funext k
  cases k with
  | ibus =>
    rw [requestAt, ibusAt, ← socAt_cpu]
    exact (socAt p inp t).ibus_eq.symm
  | dbus =>
    rw [requestAt, dbusAt, ← socAt_cpu]
    rfl

theorem bus_eq (t : ℕ) : (socAt p inp t).bus = busAt p inp t := by
  rw [Soc.bus, request_eq]
  rfl

/-- The core hears the answer on the bus, when it owns the bus. -/
theorem socAnswers_eq (t : ℕ) : socAnswers p inp t =
    ⟨answerTo (grantAt p inp t) (respondAt p inp t) .ibus,
      answerTo (grantAt p inp t) (respondAt p inp t) .dbus⟩ := by
  rw [socAnswers, Soc.answers, bus_eq]
  rfl

theorem grant_succ (t : ℕ) : grantAt p inp (t + 1) = p.arbiter.grant
    (p.arbiter.step (socAt p inp t).arbiter fun k => (requestAt p inp t k).cyc) := by
  rw [← request_eq]
  rfl

theorem socAt_board (t : ℕ) : (socAt p inp t).board = boardAt p.board (flashIn p inp) t := by
  induction t with
  | zero => rfl
  | succ t ih =>
    have hstep : (socAt p inp (t + 1)).board =
        (socAt p inp t).board.step (Flash.timerWidth p.board.clkFrequency) p.board.contents
          ⟨p.decoder.request (socAt p inp t).bus .flash, (inp t).line⟩ := rfl
    rw [hstep, bus_eq, ih]
    rfl

theorem socAt_ram (t : ℕ) : (socAt p inp t).ram = spramAt p.blocks (ramIn p inp) t := by
  induction t with
  | zero => rfl
  | succ t ih =>
    have hstep : (socAt p inp (t + 1)).ram =
        (socAt p inp t).ram.step (p.decoder.request (socAt p inp t).bus .ram) := rfl
    rw [hstep, bus_eq, ih]
    rfl

theorem targetsAt_flash (t : ℕ) :
    targetsAt p inp t .flash = responseAt p.board (flashIn p inp) t := by
  unfold targetsAt Soc.targets
  rw [socAt_board]
  rfl

theorem targetsAt_ram (t : ℕ) :
    targetsAt p inp t .ram = spramResponse p.blocks (ramIn p inp) t := by
  unfold targetsAt Soc.targets
  rw [socAt_ram]
  rfl

theorem targetsAt_csr (t : ℕ) : targetsAt p inp t .csr =
    ⟨p.bridge.ack (socAt p inp t).csr, false, p.bridge.datR (socAt p inp t).csr⟩ := rfl

theorem bus_keeps : Keeps (grantAt p inp) (requestAt p inp) := by
  intro t hcyc
  rw [grant_succ]
  exact p.arbiter.keeps _ _ hcyc

theorem socAnswers_ibus (t : ℕ) :
    (socAnswers p inp t).ibus = answerTo (grantAt p inp t) (respondAt p inp t) .ibus := by
  rw [socAnswers_eq]

theorem socAnswers_dbus (t : ℕ) :
    (socAnswers p inp t).dbus = answerTo (grantAt p inp t) (respondAt p inp t) .dbus := by
  rw [socAnswers_eq]

/-- The bus is steady, whoever owns it. -/
theorem bus_steady : Steady (busAt p inp) (respondAt p inp) := by
  refine bus_keeps.steady fun k => ?_
  cases k with
  | ibus =>
    have h := ibus_steady socConfig (socAnswers p inp)
    simp only [socAnswers_ibus] at h
    exact h
  | dbus =>
    have h := (dbus_holds socConfig (socAnswers p inp)).steady
    simp only [socAnswers_dbus] at h
    exact h

theorem bus_holdsWrites : HoldsWrites (busAt p inp) (respondAt p inp) := by
  refine bus_keeps.holdsWrites fun k => ?_
  cases k with
  | ibus =>
    intro t _ hwe
    cases hwe
  | dbus =>
    have h := (dbus_holds socConfig (socAnswers p inp)).holdsWrites
    simp only [socAnswers_dbus] at h
    exact h

/-- Each target answers in the cycle after one in which its request waits. -/
theorem target_pending (t : ℕ) (k : Target) (h : (targetsAt p inp (t + 1) k).answers = true) :
    pending (p.decoder.request (busAt p inp t) k) (targetsAt p inp t k) = true := by
  cases k with
  | flash =>
    rw [targetsAt_flash] at h ⊢
    exact flash_pending_of_answers h
  | ram =>
    rw [targetsAt_ram] at h ⊢
    have herr : (spramResponse p.blocks (ramIn p inp) (t + 1)).err = false := rfl
    rw [Response.answers, herr, Bool.or_false, spram_ack_succ] at h
    exact h
  | csr =>
    rw [targetsAt_csr, Response.answers, Bool.or_false] at h
    have hstep : (socAt p inp (t + 1)).csr = p.bridge.step (socAt p inp t).csr
        (p.decoder.request (socAt p inp t).bus .csr) (inp t).csr := rfl
    rw [hstep, bus_eq] at h
    obtain ⟨hreq, hnone⟩ := p.bridge.ack_step _ _ _ h
    have hidle : (targetsAt p inp t .csr).answers = false := by
      rw [targetsAt_csr, Response.answers, hnone]
      rfl
    exact Bool.and_eq_true_iff.mpr ⟨hreq, by rw [hidle]; rfl⟩

variable (p inp) in
/-- While the bus asks for a target, the others are quiet. -/
theorem targets_quiet (t : ℕ) : Quiet window (busAt p inp t) (targetsAt p inp t) := by
  refine p.decoder.quiet bus_steady (fun k => ?_) target_pending t
  cases k with
  | flash => rfl
  | ram => rfl
  | csr =>
    rw [targetsAt_csr, Response.answers, Bool.or_false]
    exact p.bridge.ack_reset

/-- A request is answered by the target that it is for. -/
theorem respondAt_eq {t : ℕ} {k : Target} (hr : (busAt p inp t).requesting = true)
    (hc : (window k).contains (busAt p inp t).adr = true) :
    respondAt p inp t = targetsAt p inp t k := p.decoder.answer_eq (targets_quiet p inp t) hr hc

theorem flashIn_steady :
    Steady (fun t => (flashIn p inp t).bus) (responseAt p.board (flashIn p inp)) := by
  have h : Steady (fun t => p.decoder.request (busAt p inp t) .flash)
      (fun t => targetsAt p inp t .flash) :=
    p.decoder.steady (targets_quiet p inp) bus_steady .flash
  simp only [targetsAt_flash] at h
  exact h

theorem ramIn_steady : Steady (ramIn p inp) (spramResponse p.blocks (ramIn p inp)) := by
  have h : Steady (fun t => p.decoder.request (busAt p inp t) .ram)
      (fun t => targetsAt p inp t .ram) :=
    p.decoder.steady (targets_quiet p inp) bus_steady .ram
  simp only [targetsAt_ram] at h
  exact h

theorem ramIn_holdsWrites : HoldsWrites (ramIn p inp) (spramResponse p.blocks (ramIn p inp)) := by
  have h : HoldsWrites (fun t => p.decoder.request (busAt p inp t) .ram)
      (fun t => targetsAt p inp t .ram) :=
    p.decoder.holdsWrites (targets_quiet p inp) bus_holdsWrites .ram
  simp only [targetsAt_ram] at h
  exact h

end Run
end Icicle
