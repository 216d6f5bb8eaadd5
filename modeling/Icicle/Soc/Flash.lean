import Icicle.Library.Clocked
import Icicle.Library.SpiFlash
import Icicle.Library.Wishbone

/-! The SPI flash controller, and a board on which it is connected to a flash chip. -/
namespace Icicle
open Wishbone SpiFlash

inductive FlashState where
  | start | powerUpFirst | powerUp | waitForPowerUp | idle | command | dataFirst | data
  deriving DecidableEq

/-- The registers of the controller; the bus outputs are registers too. -/
structure Flash where
  fsm : FlashState := .start
  buffer : BitVec 31 := 0
  n : ℕ := 0
  powerUpTimer : ℕ := 0
  ack : Bool := false
  err : Bool := false
  datR : BitVec 32 := 0

namespace Flash

/-- The width of `Signal(range(n))`, which has one bit at least unless the range is empty. -/
def rangeWidth (n : ℕ) : ℕ := if n = 0 then 0 else max 1 (Nat.size (n - 1))

/-- The width of `power_up_timer`, which is large enough for 3 microseconds. -/
def timerWidth (clkFrequency : ℚ) : ℕ := rangeWidth ⌈clkFrequency * 3 / 1000000⌉₊

section Step
variable {aw : ℕ} (timerWidth : ℕ) (f : Flash) (r : Request aw)

/-- A request that the idle controller takes up. -/
def takes : Bool := r.requesting && !(f.ack || f.err)

/-- `cs.o` and `copi.o`. -/
def pins : Pins :=
  match f.fsm with
  | .powerUpFirst => ⟨true, true⟩
  | .powerUp => if f.n ≠ 0 then ⟨true, f.buffer.getLsbD 30⟩ else ⟨false, false⟩
  | .idle => if f.takes r && !r.we then ⟨true, false⟩ else ⟨false, false⟩
  | .command =>
    if r.requesting then ⟨true, decide (f.n ≠ 0) && f.buffer.getLsbD 30⟩ else ⟨false, false⟩
  | .dataFirst => ⟨r.requesting, false⟩
  | .data => ⟨r.requesting && decide (f.n ≠ 0) && decide (f.n ≠ 1), false⟩
  | .start | .waitForPowerUp => ⟨false, false⟩

/-- `Cat(C(0, 2), adr, C(0x03, 7))`, as the buffer takes it. -/
def readCommand (adr : BitVec aw) : BitVec 31 := (0x03#7 ++ adr ++ 0#2).setWidth 31

/-- `Cat(buffer[23:31], buffer[15:23], buffer[7:15], i1, buffer[0:7])`. -/
def word (buffer : BitVec 31) (i1 : Bool) : BitVec 32 :=
  buffer.extractLsb' 0 7 ++ BitVec.ofBool i1 ++ buffer.extractLsb' 7 8 ++
    buffer.extractLsb' 15 8 ++ buffer.extractLsb' 23 8

/-- One clock cycle, with the sampled input `cipo.i1`. -/
def step (i1 : Bool) : Flash :=
  let f' := { f with ack := false, err := false }
  match f.fsm with
  | .start => { f' with fsm := .powerUpFirst }
  | .powerUpFirst => { f' with fsm := .powerUp, buffer := 0x2B#7 ++ 0#24, n := 7 }
  | .powerUp =>
    if f.n ≠ 0 then { f' with buffer := f.buffer <<< 1, n := f.n - 1 }
    else { f' with fsm := .waitForPowerUp, powerUpTimer := 2 ^ timerWidth - 1 }
  | .waitForPowerUp =>
    if f.powerUpTimer ≠ 0 then { f' with powerUpTimer := f.powerUpTimer - 1 }
    else { f' with fsm := .idle }
  | .idle =>
    if f.takes r then
      if r.we then { f' with err := true }
      else { f' with fsm := .command, buffer := readCommand r.adr, n := 31 }
    else f'
  | .command =>
    if r.requesting then
      if f.n ≠ 0 then { f' with buffer := f.buffer <<< 1, n := f.n - 1 }
      else { f' with fsm := .dataFirst, n := 31 }
    else { f' with fsm := .idle }
  | .dataFirst => { f' with fsm := if r.requesting then .data else .idle }
  | .data =>
    if r.requesting then
      if f.n ≠ 0 then { f' with buffer := f.buffer.shiftConcat i1, n := f.n - 1 }
      else { f' with fsm := .idle, ack := true, datR := word f.buffer i1 }
    else { f' with fsm := .idle }

def response : Response := ⟨f.ack, f.err, f.datR⟩

end Step
end Flash

/-- The controller with registered outputs and a registered input, and the chip. -/
structure Board where
  flash : Flash
  pins : Pins
  i1 : Bool
  chip : Chip

/-- The bus request in one cycle, and the level of the data line if the chip does not drive it. -/
structure BoardIn (aw : ℕ) where
  bus : Request aw
  line : Bool

/-- The outputs of a cycle are on the pins in the next one; the chip sees one rising
edge a cycle, and what it drives there is sampled for the next one. -/
def Board.step {aw : ℕ} (timerWidth : ℕ) (contents : BitVec 24 → BitVec 8) (b : Board)
    (p : BoardIn aw) : Board where
  flash := b.flash.step timerWidth p.bus b.i1
  pins := b.flash.pins p.bus
  i1 := (b.chip.drive contents b.pins).getD p.line
  chip := b.chip.step b.pins

/-- The clock and the contents of the chip, and what the controller's reset leaves on the
board, which may be anything. -/
structure BoardSetup where
  clkFrequency : ℚ
  contents : BitVec 24 → BitVec 8
  pins : Pins
  i1 : Bool
  chip : Chip

def board (aw : ℕ) (s : BoardSetup) : Clocked (BoardIn aw) Board where
  reset := { flash := {}, pins := s.pins, i1 := s.i1, chip := s.chip }
  step := Board.step (Flash.timerWidth s.clkFrequency) s.contents

section Run
variable {aw : ℕ} (s : BoardSetup) (inp : ℕ → BoardIn aw)

/-- The board at the start of cycle `t`. -/
def boardAt (t : ℕ) : Board := (board aw s).run inp t

theorem boardAt_succ (t : ℕ) : boardAt s inp (t + 1) =
    (boardAt s inp t).step (Flash.timerWidth s.clkFrequency) s.contents (inp t) := rfl

/-- What the controller answers in cycle `t`. -/
def responseAt (t : ℕ) : Response := (boardAt s inp t).flash.response

end Run
end Icicle
