import Mathlib.Data.Nat.Size
import Icicle.Soc.FlashRead

/-! The frames that the flash controller sends: the command that wakes the chip up, and
reads, which may be withdrawn. -/
namespace Icicle
open Wishbone SpiFlash

/-- What the controller sends in cycle `k` of a read. -/
def sentBit {aw : ℕ} (adr : BitVec aw) (k : ℕ) : Bool :=
  decide (1 ≤ k ∧ k < 32) && (Flash.readCommand adr).getLsbD (31 - k)

namespace Flash
variable {aw tw : ℕ} {adr : BitVec aw} {f : Flash} {r : Request aw} {i1 : Bool}

/-- A read that was taken up `k` cycles ago. -/
inductive Transfers (adr : BitVec aw) : ℕ → Flash → Prop where
  | command {k : ℕ} {f : Flash} (fsm : f.fsm = .command) (le : k ≤ 31) (n : f.n = 31 - k)
      (buffer : f.buffer = readCommand adr <<< k) : Transfers adr (k + 1) f
  | dataFirst {f : Flash} (fsm : f.fsm = .dataFirst) (n : f.n = 31) : Transfers adr 33 f
  | data {j : ℕ} {f : Flash} (fsm : f.fsm = .data) (le : j ≤ 31) (n : f.n = 31 - j) :
      Transfers adr (34 + j) f

theorem pins_idle (h : f.fsm = .idle) : f.pins r = ⟨f.takes r && !r.we, false⟩ := by
  simp only [pins, h]
  split
  next ht => rw [ht]
  next ht => rw [eq_false_of_ne_true ht]

theorem transfers_of_takes (h : f.fsm = .idle) (ht : f.takes r = true) (hwe : r.we = false) :
    Transfers r.adr 1 (f.step tw r i1) := by
  have hstep : f.step tw r i1 = { f with
      fsm := .command, buffer := readCommand r.adr, n := 31, ack := false, err := false } := by
    simp [step, h, ht, hwe]
  rw [hstep]
  exact .command rfl (Nat.zero_le 31) rfl (BitVec.shiftLeft_zero _).symm

/-- A read goes on while its request is asserted. -/
theorem Transfers.step {k : ℕ} (h : Transfers adr k f) (hr : r.requesting = true) (hk : k < 65) :
    Transfers adr (k + 1) (f.step tw r i1) := by
  cases h with
  | @command k _ fsm le n buffer =>
    rcases Nat.lt_or_eq_of_le le with hlt | rfl
    · have hn : f.n ≠ 0 := by omega
      have hstep : f.step tw r i1 =
          { f with buffer := f.buffer <<< 1, n := f.n - 1, ack := false, err := false } := by
        simp [Flash.step, fsm, hr, hn]
      rw [hstep]
      refine .command fsm hlt ?_ ?_
      · exact (congrArg (· - 1) n).trans (Nat.sub_sub 31 k 1)
      · change f.buffer <<< 1 = _
        rw [buffer, BitVec.shiftLeft_add]
    · have hstep : f.step tw r i1 =
          { f with fsm := .dataFirst, n := 31, ack := false, err := false } := by
        simp [Flash.step, fsm, hr, n]
      rw [hstep]
      exact .dataFirst rfl rfl
  | dataFirst fsm n =>
    have hstep : f.step tw r i1 = { f with fsm := .data, ack := false, err := false } := by
      simp [Flash.step, fsm, hr]
    rw [hstep]
    exact .data (j := 0) rfl (Nat.zero_le 31) n
  | @data j _ fsm le n =>
    have hn : f.n ≠ 0 := by omega
    have hstep : f.step tw r i1 = { f with
        buffer := f.buffer.shiftConcat i1, n := f.n - 1, ack := false, err := false } := by
      simp [Flash.step, fsm, hr, hn]
    rw [hstep]
    refine .data (j := j + 1) fsm (by omega) ?_
    exact (congrArg (· - 1) n).trans (Nat.sub_sub 31 j 1)

/-- A read ends when its request is withdrawn, or with the last bit of data. -/
theorem Transfers.ends {k : ℕ} (h : Transfers adr k f) (hend : r.requesting = false ∨ 65 ≤ k) :
    (f.step tw r i1).fsm = .idle := by
  cases h with
  | command fsm le n buffer =>
    have hr : r.requesting = false := hend.resolve_right (by omega)
    simp [Flash.step, fsm, hr]
  | dataFirst fsm n =>
    have hr : r.requesting = false := hend.resolve_right (by omega)
    simp [Flash.step, fsm, hr]
  | data fsm le n =>
    rcases hend with hr | hk
    · simp [Flash.step, fsm, hr]
    · have hn : f.n = 0 := by omega
      simp only [Flash.step, fsm, hn]
      split <;> simp

theorem Transfers.pins_asserted {k : ℕ} (h : Transfers adr k f) (hr : r.requesting = true)
    (hk : k < 64) : f.pins r = ⟨true, sentBit adr k⟩ := by
  cases h with
  | @command k _ fsm le n buffer =>
    have hpins : f.pins r = ⟨true, decide (f.n ≠ 0) && f.buffer.getLsbD 30⟩ := by
      simp [pins, fsm, hr]
    rcases Nat.lt_or_eq_of_le le with hlt | rfl
    · have hbit : f.buffer.getLsbD 30 = (readCommand adr).getLsbD (30 - k) := by
        rw [buffer]
        exact getLsbD_last_shiftLeft (w := 30) _ (by omega)
      have hn : f.n ≠ 0 := by omega
      have hsent : 1 ≤ k + 1 ∧ k + 1 < 32 := by omega
      rw [hpins, hbit, sentBit, decide_eq_true hn, decide_eq_true hsent,
        show 31 - (k + 1) = 30 - k by omega]
    · rw [hpins, n]
      rfl
  | dataFirst fsm n => simp [pins, fsm, hr, sentBit]
  | @data j _ fsm le n =>
    have hn : f.n ≠ 0 ∧ f.n ≠ 1 := by omega
    have hsent : ¬ (1 ≤ 34 + j ∧ 34 + j < 32) := by omega
    rw [sentBit, decide_eq_false hsent]
    simp [pins, fsm, hr, hn]

theorem Transfers.pins_deselected {k : ℕ} (h : Transfers adr k f)
    (hend : r.requesting = false ∨ 64 ≤ k) : (f.pins r).cs = false := by
  cases h with
  | command fsm le n buffer =>
    have hr : r.requesting = false := hend.resolve_right (by omega)
    simp [pins, fsm, hr]
  | dataFirst fsm n =>
    have hr : r.requesting = false := hend.resolve_right (by omega)
    simp [pins, fsm, hr]
  | data fsm le n =>
    rcases hend with hr | hk
    · simp [pins, fsm, hr]
    · have hn : f.n = 0 ∨ f.n = 1 := by omega
      rcases hn with hn | hn <;> simp [pins, fsm, hn]

theorem step_idle_of_not_cs (h : f.fsm = .idle) (hcs : (f.pins r).cs = false) :
    (f.step tw r i1).fsm = .idle := by
  rw [pins_idle h] at hcs
  cases ht : f.takes r with
  | false => simp [Flash.step, h, ht]
  | true =>
    have hwe : r.we = true := by simpa [ht] using hcs
    simp [Flash.step, h, ht, hwe]

end Flash

/-- The inputs of the controller in one cycle. -/
structure FlashIn (aw : ℕ) where
  bus : Request aw
  i1 : Bool

/-- The controller on its own, with anything on the bus and on the data line. -/
def flash (aw : ℕ) (clkFrequency : ℚ) : Clocked (FlashIn aw) Flash where
  reset := {}
  step f p := f.step (Flash.timerWidth clkFrequency) p.bus p.i1

section Run
variable {aw : ℕ} (clk : ℚ) (inp : ℕ → FlashIn aw)

def flashAt (t : ℕ) : Flash := (flash aw clk).run inp t

/-- `cs.o` and `copi.o` in cycle `t`. -/
def pinsAt (t : ℕ) : Pins := (flashAt clk inp t).pins (inp t).bus

/-- A request that the idle controller takes up as a read in cycle `a`. -/
structure TakesRead (a : ℕ) : Prop where
  idle : (flashAt clk inp a).fsm = .idle
  takes : (flashAt clk inp a).takes (inp a).bus = true
  read : (inp a).bus.we = false

variable {clk inp}

theorem flashAt_succ (t : ℕ) : flashAt clk inp (t + 1) =
    (flashAt clk inp t).step (Flash.timerWidth clk) (inp t).bus (inp t).i1 := rfl

/-- The controller on a board is the same controller. -/
theorem boardAt_flash (s : BoardSetup) (inp : ℕ → BoardIn aw) (t : ℕ) :
    (boardAt s inp t).flash =
      flashAt s.clkFrequency (fun u => ⟨(inp u).bus, (boardAt s inp u).i1⟩) t := by
  induction t with
  | zero => rfl
  | succ t ih =>
    rw [boardAt_succ, flashAt_succ, ← ih]
    rfl

/-- How long a read keeps the chip selected: 64 cycles, or until its request is withdrawn. -/
theorem exists_duration (inp : ℕ → FlashIn aw) (a : ℕ) : ∃ n, 0 < n ∧ n ≤ 64 ∧
    (∀ j, 1 ≤ j → j < n → (inp (a + j)).bus.requesting = true) ∧
    (n < 64 → (inp (a + n)).bus.requesting = false) := by
  by_cases hall : ∀ j, 1 ≤ j → j < 64 → (inp (a + j)).bus.requesting = true
  · exact ⟨64, by omega, le_rfl, hall, fun hn => absurd hn (Nat.lt_irrefl 64)⟩
  · have hex : ∃ j, 1 ≤ j ∧ j < 64 ∧ (inp (a + j)).bus.requesting = false := by
      push Not at hall
      obtain ⟨j, h1, hj, hr⟩ := hall
      exact ⟨j, h1, hj, eq_false_of_ne_true hr⟩
    obtain ⟨h1, hlt, hr⟩ := Nat.find_spec hex
    refine ⟨Nat.find hex, h1, hlt.le, fun j hj hjn => ?_, fun _ => hr⟩
    by_contra hne
    exact Nat.find_min hex hjn ⟨hj, hjn.trans hlt, eq_false_of_ne_true hne⟩

section Read
variable {a : ℕ} (h : TakesRead clk inp a)
include h

/-- While its request is asserted a read goes on. -/
theorem TakesRead.transfers {k : ℕ} (hk : k < 65)
    (hr : ∀ j, 1 ≤ j → j ≤ k → (inp (a + j)).bus.requesting = true) :
    Flash.Transfers (inp a).bus.adr (k + 1) (flashAt clk inp (a + k + 1)) := by
  induction k with
  | zero => exact Flash.transfers_of_takes h.idle h.takes h.read
  | succ k ih =>
    have hprev := ih (by omega) fun j h1 hj => hr j h1 (Nat.le_succ_of_le hj)
    exact hprev.step (hr (k + 1) (Nat.succ_pos k) le_rfl) hk

theorem TakesRead.pins {k : ℕ} (hk : k < 64)
    (hr : ∀ j, 1 ≤ j → j ≤ k → (inp (a + j)).bus.requesting = true) :
    pinsAt clk inp (a + k) = ⟨true, sentBit (inp a).bus.adr k⟩ := by
  cases k with
  | zero =>
    have hpins : pinsAt clk inp a = ⟨true, false⟩ := by
      unfold pinsAt
      rw [Flash.pins_idle h.idle, h.takes, h.read]
      rfl
    exact hpins
  | succ k =>
    have htransfers := h.transfers (by omega) fun j h1 hj => hr j h1 (Nat.le_succ_of_le hj)
    exact htransfers.pins_asserted (hr (k + 1) (Nat.succ_pos k) le_rfl) hk

theorem TakesRead.pins_deselected {k : ℕ} (hk : k < 64)
    (hr : ∀ j, 1 ≤ j → j ≤ k → (inp (a + j)).bus.requesting = true)
    (hend : (inp (a + (k + 1))).bus.requesting = false ∨ k = 63) :
    (pinsAt clk inp (a + (k + 1))).cs = false := by
  refine (h.transfers (by omega) hr).pins_deselected ?_
  rcases hend with hr' | rfl
  · exact .inl hr'
  · exact .inr le_rfl

end Read

theorem flashAt_powerUp (clk : ℚ) (inp : ℕ → FlashIn aw) {j : ℕ} (hj : j ≤ 7) :
    (flashAt clk inp (2 + j)).fsm = .powerUp ∧
    (flashAt clk inp (2 + j)).n = 7 - j ∧
    (flashAt clk inp (2 + j)).buffer = (0x2B#7 ++ 0#24) <<< j := by
  induction j with
  | zero => exact ⟨rfl, rfl, (BitVec.shiftLeft_zero _).symm⟩
  | succ j ih =>
    obtain ⟨hfsm, hn, hbuffer⟩ := ih (by omega)
    have hne : (flashAt clk inp (2 + j)).n ≠ 0 := by omega
    have hstep : flashAt clk inp (2 + (j + 1)) = { flashAt clk inp (2 + j) with
        buffer := (flashAt clk inp (2 + j)).buffer <<< 1, n := (flashAt clk inp (2 + j)).n - 1
        ack := false, err := false } := by
      rw [← Nat.add_assoc, flashAt_succ]
      simp [Flash.step, hfsm, hne]
    rw [hstep]
    refine ⟨hfsm, (congrArg (· - 1) hn).trans (Nat.sub_sub 7 j 1), ?_⟩
    change (flashAt clk inp (2 + j)).buffer <<< 1 = _
    rw [hbuffer, BitVec.shiftLeft_add]

/-- The wake-up command. -/
theorem pinsAt_powerUp {k : ℕ} (hk : k < 8) :
    pinsAt clk inp (1 + k) = ⟨true, (0xAB#8).getLsbD (7 - k)⟩ := by
  cases k with
  | zero => rfl
  | succ j =>
    obtain ⟨hfsm, hn, hbuffer⟩ := flashAt_powerUp clk inp (show j ≤ 7 by omega)
    have hne : (flashAt clk inp (2 + j)).n ≠ 0 := by omega
    have hbit : ((0x2B#7 ++ 0#24) <<< j).getLsbD 30 = (0xAB#8).getLsbD (7 - (j + 1)) := by
      have hj : j < 7 := by omega
      interval_cases j <;> rfl
    rw [show 1 + (j + 1) = 2 + j by omega, pinsAt, Flash.pins, hfsm, hbuffer, ← hbit]
    exact if_pos hne

theorem flashAt_wait (inp : ℕ → FlashIn aw) {j : ℕ} (hj : j < 2 ^ Flash.timerWidth clk) :
    (flashAt clk inp (10 + j)).fsm = .waitForPowerUp ∧
      (flashAt clk inp (10 + j)).powerUpTimer = 2 ^ Flash.timerWidth clk - 1 - j := by
  induction j with
  | zero =>
    obtain ⟨hfsm, hn, -⟩ := flashAt_powerUp clk inp (j := 7) le_rfl
    have hstep : flashAt clk inp 10 = { flashAt clk inp 9 with
        fsm := .waitForPowerUp, powerUpTimer := 2 ^ Flash.timerWidth clk - 1
        ack := false, err := false } := by
      rw [flashAt_succ]
      simp [Flash.step, hfsm, hn]
    rw [hstep]
    exact ⟨rfl, rfl⟩
  | succ j ih =>
    obtain ⟨hfsm, htimer⟩ := ih (by omega)
    have hne : (flashAt clk inp (10 + j)).powerUpTimer ≠ 0 := by omega
    have hstep : flashAt clk inp (10 + (j + 1)) = { flashAt clk inp (10 + j) with
        powerUpTimer := (flashAt clk inp (10 + j)).powerUpTimer - 1
        ack := false, err := false } := by
      rw [← Nat.add_assoc, flashAt_succ]
      simp [Flash.step, hfsm, hne]
    rw [hstep]
    exact ⟨hfsm, (congrArg (· - 1) htimer).trans (Nat.sub_sub _ j 1)⟩

/-- The timer is wide enough for the delay that the chip needs. -/
theorem delay_le (clk : ℚ) : ⌈clk * 3 / 1000000⌉₊ ≤ 2 ^ Flash.timerWidth clk := by
  unfold Flash.timerWidth Flash.rangeWidth
  generalize ⌈clk * 3 / 1000000⌉₊ = n
  split_ifs with hn
  · rw [hn]
    exact Nat.zero_le _
  · have hlt : n - 1 < 2 ^ (n - 1).size := Nat.lt_size_self _
    have hpow : 2 ^ (n - 1).size ≤ 2 ^ max 1 (n - 1).size :=
      Nat.pow_le_pow_right (by omega) (Nat.le_max_right _ _)
    omega

/-- Behind the wake-up command the chip stays deselected until the timer has run out. -/
theorem pinsAt_wait {t : ℕ} (ht : 9 ≤ t) (htw : t < 10 + 2 ^ Flash.timerWidth clk) :
    (pinsAt clk inp t).cs = false := by
  rcases Nat.lt_or_eq_of_le ht with hlt | rfl
  · obtain ⟨j, rfl⟩ : ∃ j, t = 10 + j := ⟨t - 10, by omega⟩
    rw [pinsAt, Flash.pins, (flashAt_wait inp (show j < _ by omega)).1]
  · obtain ⟨hfsm, hn, -⟩ := flashAt_powerUp clk inp (j := 7) le_rfl
    rw [pinsAt, Flash.pins, hfsm]
    exact congrArg Pins.cs (if_neg (not_not.mpr hn))

variable (clk inp) in
/-- The controller waits, or is idle, or is in a read; then it has selected the chip in
the cycle before, until the last bit of data arrives. -/
inductive Settled (t : ℕ) : Prop where
  | waits (fsm : (flashAt clk inp t).fsm = .waitForPowerUp)
  | idle (fsm : (flashAt clk inp t).fsm = .idle)
  | reads {adr : BitVec aw} {k : ℕ} (transfers : Flash.Transfers adr k (flashAt clk inp t))
      (cs : k ≤ 64 → ∀ u, t = u + 1 → (pinsAt clk inp u).cs = true)

theorem takesRead_of_cs {t : ℕ} (hidle : (flashAt clk inp t).fsm = .idle)
    (hcs : (pinsAt clk inp t).cs = true) : TakesRead clk inp t := by
  unfold pinsAt at hcs
  rw [Flash.pins_idle hidle] at hcs
  obtain ⟨ht, hwe⟩ := Bool.and_eq_true_iff.mp hcs
  exact ⟨hidle, ht, by simpa using hwe⟩

theorem Settled.step {t : ℕ} (h : Settled clk inp t) : Settled clk inp (t + 1) := by
  cases h with
  | waits fsm =>
    by_cases htimer : (flashAt clk inp t).powerUpTimer = 0
    · exact .idle (by rw [flashAt_succ]; simp [Flash.step, fsm, htimer])
    · exact .waits (by rw [flashAt_succ]; simp [Flash.step, fsm, htimer])
  | idle fsm =>
    cases hcs : (pinsAt clk inp t).cs with
    | false => exact .idle (Flash.step_idle_of_not_cs fsm hcs)
    | true =>
      have htakes := takesRead_of_cs fsm hcs
      refine .reads (Flash.transfers_of_takes fsm htakes.takes htakes.read) fun _ u hu => ?_
      obtain rfl : t = u := Nat.succ.inj hu
      exact hcs
  | @reads adr k transfers cs =>
    by_cases hgoes : (inp t).bus.requesting = true ∧ k < 65
    · refine .reads (transfers.step hgoes.1 hgoes.2) fun hk u hu => ?_
      obtain rfl : t = u := Nat.succ.inj hu
      unfold pinsAt
      rw [transfers.pins_asserted hgoes.1 hk]
    · have hend : (inp t).bus.requesting = false ∨ 65 ≤ k := by
        rw [not_and_or] at hgoes
        exact hgoes.imp eq_false_of_ne_true Nat.le_of_not_lt
      exact .idle (transfers.ends hend)

theorem settled (clk : ℚ) (inp : ℕ → FlashIn aw) {t : ℕ} (ht : 10 ≤ t) : Settled clk inp t := by
  induction t, ht using Nat.le_induction with
  | base => exact .waits (flashAt_wait inp (j := 0) (Nat.two_pow_pos _)).1
  | succ t ht ih => exact ih.step

/-- The chip is selected anew only when a read is taken up. -/
theorem takesRead_of_selected {t : ℕ} (ht : 0 < t) (hoff : (pinsAt clk inp t).cs = false)
    (hon : (pinsAt clk inp (t + 1)).cs = true) : TakesRead clk inp (t + 1) := by
  have hlate : 10 ≤ t + 1 := by
    by_contra hearly
    obtain ⟨k, rfl⟩ : ∃ k, t = 1 + k := ⟨t - 1, by omega⟩
    rw [pinsAt_powerUp (by omega)] at hoff
    cases hoff
  cases settled clk inp hlate with
  | waits fsm =>
    rw [pinsAt, Flash.pins, fsm] at hon
    cases hon
  | idle fsm => exact takesRead_of_cs fsm hon
  | @reads adr k transfers cs =>
    rcases Nat.lt_or_ge k 64 with hlt | hge
    · rw [cs hlt.le t rfl] at hoff
      cases hoff
    · rw [pinsAt, transfers.pins_deselected (.inr hge)] at hon
      cases hon

theorem sentBit_eq_commandBit (adr : BitVec 22) (k : ℕ) :
    sentBit adr k = (decide (k < 32) && commandBit adr k) := by
  unfold sentBit commandBit
  cases k with
  | zero => exact (readWord_getLsbD_31 adr).symm
  | succ k =>
    rw [readCommand_getLsbD adr (by omega)]
    simp

/-- Whatever happens on the bus, the controller sends nothing but well-formed frames: first
the wake-up command, behind which the chip has its 3 microseconds, and then reads of the
word that was requested when the chip was selected. A read is cut short only when its
request is withdrawn. -/
theorem flash_sends_frames (clk : ℚ) (inp : ℕ → FlashIn 22) :
    ((pinsAt clk inp 0).cs = false ∧ Frame (pinsAt clk inp) 1 8 ∧
      ∀ k < 8, (pinsAt clk inp (1 + k)).copi = (0xAB#8).getLsbD (7 - k)) ∧
    (∀ t, 9 ≤ t → t < 9 + ⌈clk * 3 / 1000000⌉₊ → (pinsAt clk inp t).cs = false) ∧
    ∀ t, 0 < t → (pinsAt clk inp t).cs = false → (pinsAt clk inp (t + 1)).cs = true →
      (inp (t + 1)).bus.requesting = true ∧ (inp (t + 1)).bus.we = false ∧
      ∃ n ≤ 64, Frame (pinsAt clk inp) (t + 1) n ∧
        (∀ k < n, (pinsAt clk inp (t + 1 + k)).copi =
          (decide (k < 32) && commandBit (inp (t + 1)).bus.adr k)) ∧
        (n < 64 → (inp (t + 1 + n)).bus.requesting = false) := by
  have hwait : ∀ t, 9 ≤ t → t < 9 + ⌈clk * 3 / 1000000⌉₊ → (pinsAt clk inp t).cs = false :=
    fun t ht htw => pinsAt_wait ht (by have := delay_le clk; omega)
  have hdeselected : (pinsAt clk inp 9).cs = false :=
    pinsAt_wait le_rfl (by have := Nat.two_pow_pos (Flash.timerWidth clk); omega)
  refine ⟨⟨rfl, ⟨by omega, ?_, ?_, hdeselected⟩, ?_⟩, hwait, ?_⟩
  · intro t ht
    obtain rfl : 0 = t := Nat.succ.inj ht
    rfl
  · intro k hk
    rw [pinsAt_powerUp hk]
  · intro k hk
    rw [pinsAt_powerUp hk]
  · intro t ht hoff hon
    have h := takesRead_of_selected ht hoff hon
    obtain ⟨n, hpos, hn, hr, hend⟩ := exists_duration inp (t + 1)
    have hpins : ∀ k < n, pinsAt clk inp (t + 1 + k) = ⟨true, sentBit (inp (t + 1)).bus.adr k⟩ :=
      fun k hk => h.pins (by omega) fun j h1 hj => hr j h1 (by omega)
    refine ⟨(Bool.and_eq_true_iff.mp h.takes).1, h.read, n, hn, ⟨hpos, ?_, ?_, ?_⟩, ?_, hend⟩
    · intro u hu
      obtain rfl : t = u := Nat.succ.inj hu
      exact hoff
    · intro k hk
      rw [hpins k hk]
    · obtain ⟨k, rfl⟩ : ∃ k, n = k + 1 := ⟨n - 1, by omega⟩
      refine h.pins_deselected (by omega) (fun j h1 hj => hr j h1 (by omega)) ?_
      rcases Nat.lt_or_eq_of_le hn with hlt | heq
      · exact .inl (hend hlt)
      · exact .inr (by omega)
    · intro k hk
      rw [hpins k hk, sentBit_eq_commandBit]

/-- The command byte and the byte address of a word, in 24 bits. -/
def frameWord (adr : BitVec aw) : BitVec 32 := 0x03#8 ++ (adr ++ 0#2).setWidth 24

theorem frameWord_eq_readWord (adr : BitVec 22) : frameWord adr = readWord adr := by
  rw [frameWord, readWord, BitVec.setWidth_eq]

/-- In a narrower buffer entry the command byte is out of its place. -/
theorem readCommand_getLsbD_25 (adr : BitVec aw) (haw : aw < 22) :
    (Flash.readCommand adr).getLsbD 25 = false := by
  have hbit : ∀ i, 2 ≤ i → (0x03#7).getLsbD i = false := by
    intro i hi
    have hlt : 3 < 2 ^ i := Nat.lt_of_lt_of_le (by omega) (Nat.pow_le_pow_right (by omega) hi)
    exact Nat.testBit_lt_two_pow hlt
  rw [Flash.readCommand, BitVec.getLsbD_setWidth, BitVec.getLsbD_append, BitVec.getLsbD_append]
  simp [show ¬ 23 < aw by omega, hbit (23 - aw) (by omega)]

/-- The 32 bits of command and address are framed correctly exactly for the largest
flash: the buffer takes the command behind the address, at a place that depends on the size. -/
theorem command_framed_iff (haw : aw ≤ 22) {a : ℕ} (h : TakesRead clk inp a)
    (hr : ∀ j, 1 ≤ j → j < 32 → (inp (a + j)).bus.requesting = true) :
    (∀ k < 32, pinsAt clk inp (a + k) = ⟨true, (frameWord (inp a).bus.adr).getLsbD (31 - k)⟩) ↔
      aw = 22 := by
  have hpins : ∀ k < 32, pinsAt clk inp (a + k) = ⟨true, sentBit (inp a).bus.adr k⟩ :=
    fun k hk => h.pins (by omega) fun j h1 hj => hr j h1 (by omega)
  constructor
  · intro hframed
    by_contra hne
    have hbit := congrArg Pins.copi ((hpins 6 (by omega)).symm.trans (hframed 6 (by omega)))
    have hsent : sentBit (inp a).bus.adr 6 = false := readCommand_getLsbD_25 _ (by omega)
    have hcommand : (frameWord (inp a).bus.adr).getLsbD 25 = true := by
      rw [frameWord, BitVec.getLsbD_append]
      rfl
    exact absurd (hsent.symm.trans (hbit.trans hcommand)) Bool.false_ne_true
  · rintro rfl k hk
    rw [hpins k hk, sentBit_eq_commandBit, frameWord_eq_readWord, decide_eq_true hk]
    rfl

/-- A read of word 5 from a flash of any size, requested from reset on. -/
def wordFive (aw : ℕ) : ℕ → FlashIn aw := fun _ =>
  { bus := { adr := 5, datW := 0, sel := 0b1111, cyc := true, stb := true, we := false }
    i1 := false }

theorem wordFive_framed : TakesRead 12000000 (wordFive 22) 74 ∧
    ∀ k < 32, pinsAt 12000000 (wordFive 22) (74 + k) =
      ⟨true, (frameWord (5 : BitVec 22)).getLsbD (31 - k)⟩ := by
  have htakes : TakesRead 12000000 (wordFive 22) 74 := ⟨by decide +kernel, by decide +kernel, rfl⟩
  exact ⟨htakes, (command_framed_iff le_rfl htakes fun _ _ _ => rfl).mpr rfl⟩

/-- A flash with 16-bit word addresses sends six bits of zeros before the command. -/
theorem smallFlash_misframed :
    TakesRead 12000000 (wordFive 16) 74 ∧
    ¬ ∀ k < 32, pinsAt 12000000 (wordFive 16) (74 + k) =
      ⟨true, (frameWord (5 : BitVec 16)).getLsbD (31 - k)⟩ := by
  refine ⟨⟨by decide +kernel, by decide +kernel, rfl⟩, fun h => ?_⟩
  have hsent : (pinsAt 12000000 (wordFive 16) (74 + 6)).copi = false := by decide +kernel
  rw [h 6 (by omega)] at hsent
  exact absurd hsent (by decide)

end Run
end Icicle
