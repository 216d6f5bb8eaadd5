import Icicle.Soc.Flash

/-! Reads through the flash controller. A read that is not withdrawn takes 66 cycles,
and its data is what the chip holds at its address. -/
namespace Icicle
open Wishbone SpiFlash

/-- The command of a read as it is sent: the command byte and the byte address. -/
def readWord (adr : BitVec 22) : BitVec 32 := 0x03#8 ++ (adr ++ 0#2)

theorem readWord_getLsbD_31 (adr : BitVec 22) : (readWord adr).getLsbD 31 = false := by
  unfold readWord
  rw [BitVec.getLsbD_append]
  rfl

/-- The buffer holds all of the command but its first bit. -/
theorem readCommand_getLsbD (adr : BitVec 22) {i : ℕ} (hi : i < 31) :
    (Flash.readCommand adr).getLsbD i = (readWord adr).getLsbD i := by
  rw [Flash.readCommand, readWord, BitVec.getLsbD_setWidth, BitVec.getLsbD_append,
    BitVec.getLsbD_append, BitVec.getLsbD_append, BitVec.getLsbD_append]
  by_cases h2 : i < 2
  · simp [h2, hi, show i < 24 by omega]
  · by_cases h24 : i < 24
    · simp [h2, hi, h24, show i - 2 < 22 by omega]
    · have h : (0x03#7).getLsbD (i - 2 - 22) = (0x03#8).getLsbD (i - 24) := by
        interval_cases i <;> rfl
      simp [h2, hi, h24, show ¬ i - 2 < 22 by omega, h]

/-- The bits of the command, in the order in which they are sent. -/
def commandBit (adr : BitVec 22) (j : ℕ) : Bool := (readWord adr).getLsbD (31 - j)

/-- The data of a read, in the order in which it is received. -/
def readBit (contents : BitVec 24 → BitVec 8) (adr : BitVec 22) : ℕ → Bool :=
  dataBit contents (adr ++ 0#2)

/-- The little-endian word at `adr`. -/
def flashWord (contents : BitVec 24 → BitVec 8) (adr : BitVec 22) : BitVec 32 :=
  contents ((adr ++ 0#2) + 3) ++ contents ((adr ++ 0#2) + 2) ++ contents ((adr ++ 0#2) + 1) ++
    contents (adr ++ 0#2)

/-- Bytes arrive in order, each with its most significant bit first. -/
theorem readBit_byte (contents : BitVec 24 → BitVec 8) (adr : BitVec 22) (b : ℕ) {i : ℕ}
    (hi : i < 8) : readBit contents adr (8 * b + (7 - i)) =
      (contents ((adr ++ 0#2) + BitVec.ofNat 24 b)).getLsbD i := by
  have hdiv : (8 * b + (7 - i)) / 8 = b := by omega
  have hmod : 7 - (8 * b + (7 - i)) % 8 = i := by omega
  unfold readBit dataBit
  rw [hdiv, hmod]

section Word
variable {contents : BitVec 24 → BitVec 8} {adr : BitVec 22} {buffer : BitVec 31}

/-- Before the last bit, the buffer holds the first three bytes. -/
theorem byte_of_received (h : Received buffer 31 (readBit contents adr)) {b : ℕ} (hb : b < 3) :
    buffer.extractLsb' (23 - 8 * b) 8 = contents ((adr ++ 0#2) + BitVec.ofNat 24 b) := by
  apply BitVec.eq_of_getLsbD_eq
  intro i hi
  have hj := h (8 * b + (7 - i)) (by omega)
  rw [readBit_byte contents adr b hi,
    show 31 - 1 - (8 * b + (7 - i)) = 23 - 8 * b + i by omega] at hj
  rw [BitVec.getLsbD_extractLsb', hj]
  simp [hi]

/-- The last bit completes the fourth byte. -/
theorem last_byte_of_received (h : Received buffer 31 (readBit contents adr)) :
    buffer.extractLsb' 0 7 ++ BitVec.ofBool (readBit contents adr 31) =
      contents ((adr ++ 0#2) + BitVec.ofNat 24 3) := by
  apply BitVec.eq_of_getLsbD_eq
  intro i hi
  have hbit := readBit_byte contents adr 3 hi
  rw [BitVec.getLsbD_append, BitVec.getLsbD_ofBool, BitVec.getLsbD_extractLsb', ← hbit]
  by_cases h0 : i < 1
  · simp [show i = 0 by omega]
  · have hj := h (8 * 3 + (7 - i)) (by omega)
    rw [show 31 - 1 - (8 * 3 + (7 - i)) = i - 1 by omega] at hj
    rw [if_neg h0, Nat.zero_add, hj]
    simp [show i - 1 < 7 by omega]

/-- The bytes are reordered when the last bit arrives. -/
theorem word_eq_flashWord (h : Received buffer 31 (readBit contents adr)) :
    Flash.word buffer (readBit contents adr 31) = flashWord contents adr := by
  have h0 := byte_of_received h (show 0 < 3 by omega)
  have h1 := byte_of_received h (show 1 < 3 by omega)
  have h2 := byte_of_received h (show 2 < 3 by omega)
  rw [Flash.word, last_byte_of_received h, h0, h1, h2, flashWord]
  simp

end Word

/-- The chip has received `i` bits of the command. -/
structure Sends (adr : BitVec 22) (i : ℕ) (b : Board) : Prop where
  fsm : b.flash.fsm = .command
  le : i ≤ 31
  n : b.flash.n = 31 - i
  buffer : b.flash.buffer = Flash.readCommand adr <<< i
  cs : b.pins.cs = true
  copi : b.pins.copi = commandBit adr i
  chip : b.chip.Heard i (commandBit adr)

/-- The chip has received the command, and drives the first bit of data next. -/
structure Turns (adr : BitVec 22) (b : Board) : Prop where
  fsm : b.flash.fsm = .dataFirst
  n : b.flash.n = 31
  cs : b.pins.cs = true
  edges : b.chip.edges = 32
  received : b.chip.received = readWord adr

/-- The controller has received `j` bits of data and sampled the next one. It deselects
the chip when the last bit is on its way. -/
structure Delivers (contents : BitVec 24 → BitVec 8) (adr : BitVec 22) (j : ℕ) (b : Board) :
    Prop where
  fsm : b.flash.fsm = .data
  le : j ≤ 31
  n : b.flash.n = 31 - j
  buffer : Received b.flash.buffer j (readBit contents adr)
  i1 : b.i1 = readBit contents adr j
  cs : b.pins.cs = decide (j ≤ 30)
  edges : b.chip.edges = 33 + j
  received : b.chip.received = readWord adr

/-- A read in the `k`-th cycle after it was taken up. -/
inductive Reads (contents : BitVec 24 → BitVec 8) (adr : BitVec 22) : ℕ → Board → Prop where
  | sends {i : ℕ} {b : Board} (h : Sends adr i b) : Reads contents adr (i + 1) b
  | turns {b : Board} (h : Turns adr b) : Reads contents adr 33 b
  | delivers {j : ℕ} {b : Board} (h : Delivers contents adr j b) : Reads contents adr (34 + j) b

section Step
variable {tw : ℕ} {contents : BitVec 24 → BitVec 8} {adr : BitVec 22} {b : Board}
  {p : BoardIn 22}

/-- The first bit of the command is sent in the cycle that takes the request up. -/
theorem sends_of_takes (hfsm : b.flash.fsm = .idle) (ht : b.flash.takes p.bus = true)
    (hwe : p.bus.we = false) (hcs : b.pins.cs = false) :
    Sends p.bus.adr 0 (b.step tw contents p) := by
  have hflash : (b.step tw contents p).flash = { b.flash with
      fsm := .command, buffer := Flash.readCommand p.bus.adr, n := 31, ack := false,
      err := false } := by
    simp [Board.step, Flash.step, hfsm, ht, hwe]
  have hpins : (b.step tw contents p).pins = ⟨true, false⟩ := by
    simp [Board.step, Flash.pins, hfsm, ht, hwe]
  have hchip : (b.step tw contents p).chip = {} := Chip.step_deselected hcs
  refine ⟨by rw [hflash], by omega, by rw [hflash], ?_, by rw [hpins], ?_, ?_⟩
  · rw [hflash, BitVec.shiftLeft_zero]
  · rw [hpins]
    exact (readWord_getLsbD_31 p.bus.adr).symm
  · rw [hchip]
    exact Chip.heard_start _

theorem Sends.step {i : ℕ} (h : Sends adr i b) (hr : p.bus.requesting = true) (hi : i < 31) :
    Sends adr (i + 1) (b.step tw contents p) := by
  have hn : b.flash.n ≠ 0 := by rw [h.n]; omega
  have hflash : (b.step tw contents p).flash = { b.flash with
      buffer := b.flash.buffer <<< 1, n := b.flash.n - 1, ack := false, err := false } := by
    simp [Board.step, Flash.step, h.fsm, hr, hn]
  have hpins : (b.step tw contents p).pins = ⟨true, b.flash.buffer.getLsbD 30⟩ := by
    simp [Board.step, Flash.pins, h.fsm, hr, hn]
  refine ⟨by rw [hflash, ← h.fsm], by omega, ?_, ?_, by rw [hpins], ?_, ?_⟩
  · rw [hflash, h.n]
    exact Nat.sub_sub 31 i 1
  · rw [hflash, h.buffer, BitVec.shiftLeft_add]
  · rw [hpins, h.buffer, getLsbD_last_shiftLeft _ (by omega), readCommand_getLsbD adr (by omega),
      commandBit, show 31 - (i + 1) = 30 - i by omega]
  · exact h.chip.step (by omega) h.cs h.copi

theorem Sends.turns (h : Sends adr 31 b) (hr : p.bus.requesting = true) :
    Turns adr (b.step tw contents p) := by
  have hn : b.flash.n = 0 := h.n
  have hflash : (b.step tw contents p).flash = { b.flash with
      fsm := .dataFirst, n := 31, ack := false, err := false } := by
    simp [Board.step, Flash.step, h.fsm, hr, hn]
  have hchip := h.chip.step (by omega) h.cs h.copi
  refine ⟨by rw [hflash], by rw [hflash], ?_, hchip.edges, ?_⟩
  · simp [Board.step, Flash.pins, h.fsm, hr]
  · exact hchip.received.eq (received_self (readWord adr))

theorem Turns.delivers (h : Turns adr b) (hr : p.bus.requesting = true) :
    Delivers contents adr 0 (b.step tw contents p) := by
  have hflash : (b.step tw contents p).flash = { b.flash with
      fsm := .data, ack := false, err := false } := by
    simp [Board.step, Flash.step, h.fsm, hr]
  have hchip : (b.step tw contents p).chip = _ := Chip.step_selected h.cs h.edges.ge
  refine ⟨by rw [hflash], by omega, by rw [hflash, h.n], Received.zero _ _, ?_, ?_, ?_, ?_⟩
  · have hdrive := Chip.drive_read contents h.cs h.edges.ge h.received
    rw [h.edges] at hdrive
    simp [Board.step, hdrive, readBit]
  · simp [Board.step, Flash.pins, h.fsm, hr]
  · rw [hchip, h.edges]
  · rw [hchip, h.received]

theorem Delivers.step {j : ℕ} (h : Delivers contents adr j b) (hr : p.bus.requesting = true)
    (hj : j < 31) : Delivers contents adr (j + 1) (b.step tw contents p) := by
  have hn : b.flash.n ≠ 0 := by rw [h.n]; omega
  have hcs : b.pins.cs = true := by rw [h.cs]; exact decide_eq_true (by omega)
  have hedges : 32 ≤ b.chip.edges := by rw [h.edges]; omega
  have hflash : (b.step tw contents p).flash = { b.flash with
      buffer := b.flash.buffer.shiftConcat b.i1, n := b.flash.n - 1, ack := false,
      err := false } := by
    simp [Board.step, Flash.step, h.fsm, hr, hn]
  have hchip : (b.step tw contents p).chip = _ := Chip.step_selected hcs hedges
  refine ⟨by rw [hflash, ← h.fsm], by omega, ?_, ?_, ?_, ?_, ?_, ?_⟩
  · rw [hflash, h.n]
    exact Nat.sub_sub 31 j 1
  · rw [hflash, h.i1]
    exact h.buffer.shiftConcat hj
  · have hdrive := Chip.drive_read contents hcs hedges h.received
    rw [h.edges, show 33 + j - 32 = j + 1 by omega] at hdrive
    simp [Board.step, hdrive, readBit]
  · have hlast : (b.flash.n = 1) ↔ (j = 30) := by rw [h.n]; omega
    have hle : j + 1 ≤ 30 ↔ ¬ j = 30 := by omega
    simp [Board.step, Flash.pins, h.fsm, hr, hn, hlast, hle]
  · rw [hchip, h.edges]
    exact Nat.add_assoc 33 j 1
  · rw [hchip, h.received]

/-- The last bit is taken from the input and not from the buffer. -/
theorem Delivers.done (h : Delivers contents adr 31 b) (hr : p.bus.requesting = true) :
    (b.step tw contents p).flash = { b.flash with
      fsm := .idle, ack := true, err := false, datR := flashWord contents adr } ∧
      (b.step tw contents p).pins.cs = false := by
  have hn : b.flash.n = 0 := h.n
  refine ⟨?_, by simp [Board.step, Flash.pins, h.fsm, hn]⟩
  rw [← word_eq_flashWord h.buffer, ← h.i1]
  simp [Board.step, Flash.step, h.fsm, hr, hn]

/-- A read that stays asserted goes on, and is answered in its last cycle. -/
theorem Reads.step {k : ℕ} (h : Reads contents adr k b) (hr : p.bus.requesting = true) :
    Reads contents adr (k + 1) (b.step tw contents p) ∨
      k = 65 ∧ (b.step tw contents p).flash = { b.flash with
        fsm := .idle, ack := true, err := false, datR := flashWord contents adr } ∧
        (b.step tw contents p).pins.cs = false := by
  cases h with
  | sends h =>
    rcases Nat.lt_or_eq_of_le h.le with hi | rfl
    · exact .inl (.sends (h.step hr hi))
    · exact .inl (.turns (h.turns hr))
  | turns h => exact .inl (.delivers (h.delivers hr))
  | @delivers j _ h =>
    rcases Nat.lt_or_eq_of_le h.le with hj | rfl
    · exact .inl (.delivers (h.step hr hj))
    · exact .inr ⟨rfl, h.done hr⟩

/-- The controller is in the middle of a read. -/
def FlashState.reading : FlashState → Bool
  | .command | .dataFirst | .data => true
  | .start | .powerUpFirst | .powerUp | .waitForPowerUp | .idle => false

theorem Reads.reading {k : ℕ} (h : Reads contents adr k b) : b.flash.fsm.reading = true := by
  cases h with
  | sends h => rw [h.fsm]; rfl
  | turns h => rw [h.fsm]; rfl
  | delivers h => rw [h.fsm]; rfl

/-- The controller is idle in the cycle of its answer. -/
theorem idle_of_answer
    (h : ((b.step tw contents p).flash.ack || (b.step tw contents p).flash.err) = true) :
    (b.step tw contents p).flash.fsm = .idle := by
  have hflash : (b.step tw contents p).flash = b.flash.step tw p.bus b.i1 := rfl
  rw [hflash] at h ⊢
  cases hf : b.flash.fsm with
  | start => simp [Flash.step, hf] at h
  | powerUpFirst => simp [Flash.step, hf] at h
  | powerUp => by_cases hn : b.flash.n = 0 <;> simp [Flash.step, hf, hn] at h
  | waitForPowerUp => by_cases hn : b.flash.powerUpTimer = 0 <;> simp [Flash.step, hf, hn] at h
  | idle =>
    by_cases ht : b.flash.takes p.bus = true
    · by_cases hwe : p.bus.we = true
      · simp [Flash.step, hf, ht, hwe]
      · simp [Flash.step, hf, ht, hwe] at h
    · simp [Flash.step, hf, ht]
  | command =>
    by_cases hr : p.bus.requesting = true
    · by_cases hn : b.flash.n = 0 <;> simp [Flash.step, hf, hr, hn] at h
    · simp [Flash.step, hf, hr]
  | dataFirst => simp [Flash.step, hf] at h
  | data =>
    by_cases hr : p.bus.requesting = true
    · by_cases hn : b.flash.n = 0
      · simp [Flash.step, hf, hr, hn]
      · simp [Flash.step, hf, hr, hn] at h
    · simp [Flash.step, hf, hr]

/-- A read that is withdrawn is given up at once. -/
theorem step_withdrawn (h : b.flash.fsm.reading = true) (hr : p.bus.requesting = false) :
    (b.step tw contents p).flash = { b.flash with fsm := .idle, ack := false, err := false } ∧
      (b.step tw contents p).pins.cs = false := by
  have hcases : b.flash.fsm = .command ∨ b.flash.fsm = .dataFirst ∨ b.flash.fsm = .data := by
    cases hf : b.flash.fsm <;> simp [hf, FlashState.reading] at h ⊢
  rcases hcases with hf | hf | hf
  · simp [Board.step, Flash.step, Flash.pins, hf, hr]
  · simp [Board.step, Flash.step, Flash.pins, hf, hr]
  · simp [Board.step, Flash.step, Flash.pins, hf, hr]

/-- An idle controller that takes up no read stays idle and does not select the chip. -/
theorem step_idle (hfsm : b.flash.fsm = .idle) (h : b.flash.takes p.bus = true → p.bus.we = true) :
    (b.step tw contents p).flash.fsm = .idle ∧ (b.step tw contents p).flash.ack = false ∧
      (b.step tw contents p).pins.cs = false := by
  cases ht : b.flash.takes p.bus with
  | false => simp [Board.step, Flash.step, Flash.pins, hfsm, ht]
  | true => simp [Board.step, Flash.step, Flash.pins, hfsm, ht, h ht]

/-- The power-up sequence does not touch the bus. -/
theorem step_powerUp (h : b.flash.fsm.reading = false) (hidle : b.flash.fsm ≠ .idle) :
    (b.step tw contents p).flash.fsm.reading = false ∧
      (b.step tw contents p).flash.ack = false ∧ (b.step tw contents p).flash.err = false ∧
      ((b.step tw contents p).flash.fsm = .idle → (b.step tw contents p).pins.cs = false) := by
  have hcases : b.flash.fsm = .start ∨ b.flash.fsm = .powerUpFirst ∨ b.flash.fsm = .powerUp ∨
      b.flash.fsm = .waitForPowerUp := by
    cases hf : b.flash.fsm <;> simp [hf, FlashState.reading] at h hidle ⊢
  rcases hcases with hf | hf | hf | hf
  · simp [Board.step, Flash.step, hf, FlashState.reading]
  · simp [Board.step, Flash.step, hf, FlashState.reading]
  · by_cases hn : b.flash.n = 0 <;>
      simp [Board.step, Flash.step, hf, hn, FlashState.reading]
  · by_cases hn : b.flash.powerUpTimer = 0 <;>
      simp [Board.step, Flash.step, Flash.pins, hf, hn, FlashState.reading]

end Step

section Run
variable (s : BoardSetup) (inp : ℕ → BoardIn 22)

/-- The controller takes up a read in cycle `a`, and the read is asserted and unanswered
until cycle `t`. -/
structure Asserted (a t : ℕ) : Prop where
  idle : (boardAt s inp a).flash.fsm = .idle
  taken : (boardAt s inp a).flash.takes (inp a).bus = true
  lt : a < t
  pending : ∀ u, a ≤ u → u < t → Wishbone.pending (inp u).bus (responseAt s inp u) = true
  read : ∀ u, a ≤ u → u < t → (inp u).bus.we = false ∧ (inp u).bus.adr = (inp a).bus.adr

/-- What holds at the start of cycle `t`. -/
structure FlashInv (t : ℕ) : Prop where
  deselected : (boardAt s inp t).flash.fsm = .idle → (boardAt s inp t).pins.cs = false
  quiet : ((boardAt s inp t).flash.ack || (boardAt s inp t).flash.err) = true →
    (boardAt s inp t).flash.fsm = .idle
  reads : (boardAt s inp t).flash.fsm.reading = true → ∃ a k, t = a + k ∧ Asserted s inp a t ∧
    Reads s.contents (inp a).bus.adr k (boardAt s inp t)
  ack : (boardAt s inp t).flash.ack = true → ∃ a, t = a + 66 ∧ Asserted s inp a t ∧
    (boardAt s inp t).flash.datR = flashWord s.contents (inp a).bus.adr

variable {s inp} {t : ℕ}

theorem flashInv_zero : FlashInv s inp 0 where
  deselected h := by cases h
  quiet h := by cases h
  reads h := by cases h
  ack h := by cases h

/-- A request that is asserted while a read is under way belongs to the read. -/
theorem Asserted.extend {a : ℕ} (h : Asserted s inp a t)
    (hsteady : Steady (fun u => (inp u).bus) (responseAt s inp))
    (hr : (inp t).bus.requesting = true)
    (hq : ((boardAt s inp t).flash.ack || (boardAt s inp t).flash.err) = false) :
    Asserted s inp a (t + 1) := by
  obtain ⟨v, rfl⟩ : ∃ v, t = v + 1 := ⟨t - 1, by have := h.lt; omega⟩
  have hlt := h.lt
  obtain ⟨hadr, hwe⟩ := hsteady v (h.pending v (by omega) (by omega)) hr
  obtain ⟨hwe', hadr'⟩ := h.read v (by omega) (by omega)
  refine ⟨h.idle, h.taken, by omega, ?_, ?_⟩
  · intro u hu hut
    rcases Nat.lt_succ_iff_lt_or_eq.mp hut with hut | rfl
    · exact h.pending u hu hut
    · simpa [Wishbone.pending, hr, Response.answers, responseAt, Flash.response] using hq
  · intro u hu hut
    rcases Nat.lt_succ_iff_lt_or_eq.mp hut with hut | rfl
    · exact h.read u hu hut
    · exact ⟨hwe.trans hwe', hadr.trans hadr'⟩

theorem asserted_of_takes (hidle : (boardAt s inp t).flash.fsm = .idle)
    (ht : (boardAt s inp t).flash.takes (inp t).bus = true) (hwe : (inp t).bus.we = false) :
    Asserted s inp t (t + 1) := by
  refine ⟨hidle, ht, Nat.lt_succ_self t, ?_, ?_⟩
  · intro u hu hut
    obtain rfl : u = t := by omega
    exact ht
  · intro u hu hut
    obtain rfl : u = t := by omega
    exact ⟨hwe, rfl⟩

/-- A cycle in the middle of a read. -/
theorem FlashInv.step_reading (h : FlashInv s inp t)
    (hsteady : Steady (fun u => (inp u).bus) (responseAt s inp))
    (hread : (boardAt s inp t).flash.fsm.reading = true) : FlashInv s inp (t + 1) := by
  have hnext := boardAt_succ s inp t
  have hquiet : ((boardAt s inp t).flash.ack || (boardAt s inp t).flash.err) = false := by
    by_contra hq
    rw [h.quiet (eq_true_of_ne_false hq)] at hread
    cases hread
  obtain ⟨a, k, htk, hass, hreads⟩ := h.reads hread
  cases hr : (inp t).bus.requesting with
  | true =>
    have hass' := hass.extend hsteady hr hquiet
    rcases hreads.step hr with hreads' | ⟨rfl, hflash, hcs⟩
    · rw [← hnext] at hreads'
      have hnot : (boardAt s inp (t + 1)).flash.fsm ≠ .idle := by
        intro hidle
        have hreading := hreads'.reading
        rw [hidle] at hreading
        cases hreading
      refine ⟨fun hidle => absurd hidle hnot, idle_of_answer, ?_, ?_⟩
      · intro _
        exact ⟨a, k + 1, by omega, hass', hreads'⟩
      · intro hack
        exact absurd (idle_of_answer (Bool.or_eq_true_iff.mpr (.inl hack))) hnot
    · rw [← hnext] at hflash hcs
      refine ⟨fun _ => hcs, idle_of_answer, ?_, ?_⟩
      · intro hr
        rw [hflash] at hr
        cases hr
      · intro _
        exact ⟨a, by omega, hass', by rw [hflash]⟩
  | false =>
    obtain ⟨hflash, hcs⟩ := step_withdrawn hread hr
    rw [← hnext] at hflash hcs
    refine ⟨fun _ => hcs, idle_of_answer, ?_, ?_⟩
    · intro hr
      rw [hflash] at hr
      cases hr
    · intro ha
      rw [hflash] at ha
      cases ha

/-- A cycle of the idle controller. -/
theorem FlashInv.step_idle (h : FlashInv s inp t)
    (hidle : (boardAt s inp t).flash.fsm = .idle) : FlashInv s inp (t + 1) := by
  have hnext := boardAt_succ s inp t
  by_cases hread : (boardAt s inp t).flash.takes (inp t).bus = true ∧ (inp t).bus.we = false
  · have hsends : Sends (inp t).bus.adr 0 (boardAt s inp (t + 1)) :=
      sends_of_takes hidle hread.1 hread.2 (h.deselected hidle)
    refine ⟨?_, idle_of_answer, ?_, ?_⟩
    · intro hf
      rw [hsends.fsm] at hf
      cases hf
    · intro _
      exact ⟨t, 1, rfl, asserted_of_takes hidle hread.1 hread.2, .sends hsends⟩
    · intro hack
      have hf : (boardAt s inp (t + 1)).flash.fsm = .idle :=
        idle_of_answer (Bool.or_eq_true_iff.mpr (.inl hack))
      rw [hsends.fsm] at hf
      cases hf
  · obtain ⟨hfsm, hack, hcs⟩ := Icicle.step_idle hidle fun ht =>
      eq_true_of_ne_false fun hwe => hread ⟨ht, hwe⟩
    rw [← hnext] at hfsm hack hcs
    refine ⟨fun _ => hcs, idle_of_answer, ?_, ?_⟩
    · intro hr
      rw [hfsm] at hr
      cases hr
    · intro ha
      rw [hack] at ha
      cases ha

theorem FlashInv.step (h : FlashInv s inp t)
    (hsteady : Steady (fun u => (inp u).bus) (responseAt s inp)) : FlashInv s inp (t + 1) := by
  by_cases hread : (boardAt s inp t).flash.fsm.reading = true
  · exact h.step_reading hsteady hread
  by_cases hidle : (boardAt s inp t).flash.fsm = .idle
  · exact h.step_idle hidle
  obtain ⟨hreading, hack, herr, hcs⟩ := step_powerUp (eq_false_of_ne_true hread) hidle
  rw [← boardAt_succ] at hreading hack herr hcs
  refine ⟨hcs, idle_of_answer, ?_, ?_⟩
  · intro hr
    rw [hreading] at hr
    cases hr
  · intro ha
    rw [hack] at ha
    cases ha

theorem flashInv (hsteady : Steady (fun u => (inp u).bus) (responseAt s inp)) (t : ℕ) :
    FlashInv s inp t := by
  induction t with
  | zero => exact flashInv_zero
  | succ t ih => exact ih.step hsteady

/-- Every answer of the controller, in every run in which the initiator does not change a
request that it keeps asserted: it answers a read that it took up 66 cycles earlier and
that was asserted all the time, with the word of the chip at the address of the read. -/
theorem read_returns_flashWord (hsteady : Steady (fun u => (inp u).bus) (responseAt s inp))
    (hack : (responseAt s inp t).ack = true) : ∃ a, t = a + 66 ∧
      (boardAt s inp a).flash.fsm = .idle ∧
      (boardAt s inp a).flash.takes (inp a).bus = true ∧
      (∀ u, a ≤ u → u < t → (inp u).bus.requesting = true ∧ (inp u).bus.we = false ∧
        (inp u).bus.adr = (inp a).bus.adr) ∧
      (responseAt s inp t).datR = flashWord s.contents (inp a).bus.adr := by
  obtain ⟨a, hta, hass, hdat⟩ := (flashInv hsteady t).ack hack
  refine ⟨a, hta, hass.idle, hass.taken, fun u hu hut => ?_, hdat⟩
  exact ⟨pending_requesting (hass.pending u hu hut), hass.read u hu hut⟩

/-- Every byte is its own address. -/
def countingFlash : BoardSetup where
  clkFrequency := 1
  contents := fun addr => addr.setWidth 8
  pins := ⟨true, true⟩
  i1 := false
  chip := {}

/-- A read of word 5 that is repeated as soon as it is answered. -/
def steadyRead : ℕ → BoardIn 22 := fun _ =>
  { bus := { adr := 5, datW := 0, sel := 0b1111, cyc := true, stb := true, we := false }
    line := true }

theorem steadyRead_returns : (responseAt countingFlash steadyRead 78).ack = true ∧
    (responseAt countingFlash steadyRead 78).datR = 0x17161514 := by
  have hack : (responseAt countingFlash steadyRead 78).ack = true := by decide +kernel
  obtain ⟨a, -, -, -, -, hdat⟩ := read_returns_flashWord (fun _ _ _ => ⟨rfl, rfl⟩) hack
  have hword : flashWord countingFlash.contents 5 = 0x17161514 := by decide
  exact ⟨hack, hdat.trans hword⟩

/-- A request that was pending in the cycle before an answer is a read if it is
acknowledged, and its data is the word of the chip. -/
theorem flash_acknowledges (hsteady : Steady (fun u => (inp u).bus) (responseAt s inp))
    (hreq : (inp t).bus.requesting = true) (hack : (responseAt s inp t).ack = true) :
    (inp t).bus.we = false ∧
      (responseAt s inp t).datR = flashWord s.contents (inp t).bus.adr := by
  obtain ⟨a, rfl, hass, hdat⟩ := (flashInv hsteady t).ack hack
  have hlast : pending (inp (a + 65)).bus (responseAt s inp (a + 65)) = true :=
    hass.pending (a + 65) (by omega) (by omega)
  obtain ⟨hadr, hwe⟩ := hsteady (a + 65) hlast hreq
  obtain ⟨hwe', hadr'⟩ := hass.read (a + 65) (by omega) (by omega)
  exact ⟨hwe.trans hwe', hdat.trans (congrArg _ (hadr.trans hadr').symm)⟩

theorem err_step {timerWidth : ℕ} {f : Flash} {r : Request 22} {i1 : Bool}
    (h : (f.step timerWidth r i1).err = true) : f.takes r = true ∧ r.we = true := by
  by_cases hidle : f.fsm = .idle
  · unfold Flash.step at h
    rw [hidle] at h
    dsimp only at h
    split_ifs at h with ht hwe
    exact ⟨ht, hwe⟩
  · have hquiet : (f.step timerWidth r i1).err = false := by
      unfold Flash.step
      cases hf : f.fsm <;> first | exact absurd hf hidle | rfl | (dsimp only; split_ifs <;> rfl)
    rw [hquiet] at h
    cases h

theorem ack_step {timerWidth : ℕ} {f : Flash} {r : Request 22} {i1 : Bool}
    (h : (f.step timerWidth r i1).ack = true) : f.fsm = .data ∧ r.requesting = true := by
  by_cases hdata : f.fsm = .data
  · refine ⟨hdata, ?_⟩
    unfold Flash.step at h
    rw [hdata] at h
    dsimp only at h
    split_ifs at h with hr
    exact hr
  · have hquiet : (f.step timerWidth r i1).ack = false := by
      unfold Flash.step
      cases hf : f.fsm <;> first | exact absurd hf hdata | rfl | (dsimp only; split_ifs <;> rfl)
    rw [hquiet] at h
    cases h

/-- An answer of the flash belongs to a request that was pending in the cycle before. -/
theorem flash_pending_of_answers (h : (responseAt s inp (t + 1)).answers = true) :
    pending (inp t).bus (responseAt s inp t) = true := by
  rcases Bool.or_eq_true_iff.mp h with hack | herr
  · obtain ⟨hdata, hreq⟩ : (boardAt s inp t).flash.fsm = .data ∧ (inp t).bus.requesting = true :=
      ack_step hack
    have hnone : (responseAt s inp t).answers = false := by
      by_contra hans
      cases t with
      | zero => exact hans rfl
      | succ t =>
        have hidle : (boardAt s inp (t + 1)).flash.fsm = .idle :=
          idle_of_answer (eq_true_of_ne_false hans)
        rw [hidle] at hdata
        cases hdata
    simp [pending, hreq, hnone]
  · exact (err_step (f := (boardAt s inp t).flash) herr).1

/-- Only writes are refused. -/
theorem flash_refuses (hsteady : Steady (fun u => (inp u).bus) (responseAt s inp))
    (hreq : (inp t).bus.requesting = true) (herr : (responseAt s inp t).err = true) :
    (inp t).bus.we = true := by
  cases t with
  | zero => cases herr
  | succ t =>
    obtain ⟨htakes, hwe⟩ : (boardAt s inp t).flash.takes (inp t).bus = true ∧
        (inp t).bus.we = true := err_step herr
    exact (hsteady t htakes hreq).2.trans hwe

/-- An answer of the controller: reads return the word of the chip, writes are refused. -/
theorem flash_answers (hsteady : Steady (fun u => (inp u).bus) (responseAt s inp))
    (hhand : handshake (inp t).bus (responseAt s inp t) = true) :
    (responseAt s inp t).err = (inp t).bus.we ∧ ((inp t).bus.we = false →
      (responseAt s inp t).datR = flashWord s.contents (inp t).bus.adr) := by
  obtain ⟨hreq, hans⟩ := Bool.and_eq_true_iff.mp hhand
  cases hwe : (inp t).bus.we with
  | false =>
    have herr : (responseAt s inp t).err = false := by
      by_contra he
      have hw := flash_refuses hsteady hreq (eq_true_of_ne_false he)
      rw [hwe] at hw
      cases hw
    have hack : (responseAt s inp t).ack = true := by
      simpa [Response.answers, herr] using hans
    exact ⟨herr, fun _ => (flash_acknowledges hsteady hreq hack).2⟩
  | true =>
    have hack : (responseAt s inp t).ack = false := by
      by_contra ha
      have hw := (flash_acknowledges hsteady hreq (eq_true_of_ne_false ha)).1
      rw [hwe] at hw
      cases hw
    exact ⟨by simpa [Response.answers, hack] using hans, nofun⟩

end Run
end Icicle
