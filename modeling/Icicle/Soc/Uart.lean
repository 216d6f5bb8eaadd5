import Icicle.Library.Fifo

/-! The UART between its CSR elements and the serial transceiver, and the program that
sends back what it receives. -/
namespace Icicle
open Clocked

/-- The queues, and the parameters of the constructor with the clock that the platform gives. -/
structure UartParts where
  fifoDepth : ℕ := 513
  rxFifo : Fifo (BitVec 8) fifoDepth
  txFifo : Fifo (BitVec 8) fifoDepth
  clkFrequency : ℚ
  defaultBaud : ℕ := 9600

structure Uart (p : UartParts) where
  rxFifo : p.rxFifo.State
  txFifo : p.txFifo.State
  divisor : BitVec 16

/-- One cycle of the strobes of the CSR elements `clk_div` and `data`, and of the serial
receiver and transmitter. -/
structure UartIn where
  clkDivWStb : Bool
  clkDivWData : BitVec 16
  dataRStb : Bool
  dataWStb : Bool
  dataWData : BitVec 8
  rxRdy : Bool
  rxData : BitVec 8
  txRdy : Bool

namespace Uart
variable {p : UartParts} (s : Uart p) (i : UartIn)

/-- `serial.rx.ack`. -/
def rxAck : Bool := p.rxFifo.wRdy s.rxFifo

/-- `serial.tx.ack`. -/
def txAck : Bool := p.txFifo.rRdy s.txFifo

/-- `serial.tx.data`. -/
def txData : BitVec 8 := p.txFifo.rData s.txFifo

/-- `Cat(rx_fifo.r_rdy, tx_fifo.w_rdy)`. -/
def status : BitVec 2 :=
  BitVec.ofBool (p.txFifo.wRdy s.txFifo) ++ BitVec.ofBool (p.rxFifo.rRdy s.rxFifo)

def clkDivRData : BitVec 16 := s.divisor

def dataRData : BitVec 8 := p.rxFifo.rData s.rxFifo

def rxIn : FifoIn (BitVec 8) where
  wEn := i.rxRdy && s.rxAck
  wData := i.rxData
  rEn := i.dataRStb

def txIn : FifoIn (BitVec 8) where
  wEn := i.dataWStb
  wData := i.dataWData
  rEn := i.txRdy && s.txAck

def step : Uart p where
  rxFifo := p.rxFifo.step s.rxFifo (s.rxIn i)
  txFifo := p.txFifo.step s.txFifo (s.txIn i)
  divisor := if i.clkDivWStb then i.clkDivWData else s.divisor

theorem status_rx : s.status.getLsbD 0 = p.rxFifo.rRdy s.rxFifo := by
  unfold status
  cases p.txFifo.wRdy s.txFifo <;> cases p.rxFifo.rRdy s.rxFifo <;> rfl

theorem status_tx : s.status.getLsbD 1 = p.txFifo.wRdy s.txFifo := by
  unfold status
  cases p.txFifo.wRdy s.txFifo <;> cases p.rxFifo.rRdy s.rxFifo <;> rfl

end Uart

def uart (p : UartParts) : Clocked UartIn (Uart p) where
  reset :=
    { rxFifo := p.rxFifo.reset
      txFifo := p.txFifo.reset
      divisor := BitVec.ofNat 16 ⌊p.clkFrequency / p.defaultBaud⌋₊ }
  step := Uart.step

section Run
variable (p : UartParts) (inp : ℕ → UartIn)

def uartAt (t : ℕ) : Uart p := (uart p).run inp t

/-- The bytes that the receiver hands over. -/
def received (t : ℕ) : List (BitVec 8) :=
  log (fun u => if (inp u).rxRdy && (uartAt p inp u).rxAck then some (inp u).rxData else none) t

/-- The bytes that are read while the status says that there is one. -/
def readOut (t : ℕ) : List (BitVec 8) :=
  log (fun u => if (inp u).dataRStb && (uartAt p inp u).status.getLsbD 0 then
    some (uartAt p inp u).dataRData else none) t

/-- The bytes that are written while the status says that there is room. -/
def written (t : ℕ) : List (BitVec 8) :=
  log (fun u => if (inp u).dataWStb && (uartAt p inp u).status.getLsbD 1 then
    some (inp u).dataWData else none) t

/-- The bytes that the transmitter takes. -/
def sent (t : ℕ) : List (BitVec 8) :=
  log (fun u => if (inp u).txRdy && (uartAt p inp u).txAck then
    some (uartAt p inp u).txData else none) t

variable {p inp}

theorem uartAt_succ (t : ℕ) : uartAt p inp (t + 1) = (uartAt p inp t).step (inp t) := rfl

theorem received_eq (t : ℕ) :
    received p inp t = readOut p inp t ++ p.rxFifo.contents (uartAt p inp t).rxFifo := by
  have hfifo := p.rxFifo.log_accepted (fun t => (uartAt p inp t).rxFifo)
    (fun t => (uartAt p inp t).rxIn (inp t)) rfl (fun _ => rfl) t
  have haccepted : ∀ u, p.rxFifo.accepted (uartAt p inp u).rxFifo ((uartAt p inp u).rxIn (inp u)) =
      if (inp u).rxRdy && (uartAt p inp u).rxAck then some (inp u).rxData else none := by
    intro u
    unfold Fifo.accepted Uart.rxIn Uart.rxAck
    cases (inp u).rxRdy <;> cases p.rxFifo.wRdy (uartAt p inp u).rxFifo <;> rfl
  have hdelivered : ∀ u,
      p.rxFifo.delivered (uartAt p inp u).rxFifo ((uartAt p inp u).rxIn (inp u)) =
        if (inp u).dataRStb && (uartAt p inp u).status.getLsbD 0 then
          some (uartAt p inp u).dataRData else none := by
    intro u
    rw [Uart.status_rx]
    rfl
  simp only [haccepted, hdelivered] at hfifo
  exact hfifo

theorem written_eq (t : ℕ) :
    written p inp t = sent p inp t ++ p.txFifo.contents (uartAt p inp t).txFifo := by
  have hfifo := p.txFifo.log_accepted (fun t => (uartAt p inp t).txFifo)
    (fun t => (uartAt p inp t).txIn (inp t)) rfl (fun _ => rfl) t
  have haccepted : ∀ u, p.txFifo.accepted (uartAt p inp u).txFifo ((uartAt p inp u).txIn (inp u)) =
      if (inp u).dataWStb && (uartAt p inp u).status.getLsbD 1 then
        some (inp u).dataWData else none := by
    intro u
    rw [Uart.status_tx]
    rfl
  have hdelivered : ∀ u,
      p.txFifo.delivered (uartAt p inp u).txFifo ((uartAt p inp u).txIn (inp u)) =
        if (inp u).txRdy && (uartAt p inp u).txAck then
          some (uartAt p inp u).txData else none := by
    intro u
    unfold Fifo.delivered Uart.txIn Uart.txAck
    cases (inp u).txRdy <;> cases p.txFifo.rRdy (uartAt p inp u).txFifo <;> rfl
  simp only [haccepted, hdelivered] at hfifo
  exact hfifo

variable (p inp) in
theorem readOut_succ (t : ℕ) : readOut p inp (t + 1) = readOut p inp t ++
    if (inp t).dataRStb && (uartAt p inp t).status.getLsbD 0 then
      [(uartAt p inp t).dataRData] else [] := by
  rw [readOut, log_succ]
  split_ifs <;> rfl

variable (p inp) in
theorem written_succ (t : ℕ) : written p inp (t + 1) = written p inp t ++
    if (inp t).dataWStb && (uartAt p inp t).status.getLsbD 1 then
      [(inp t).dataWData] else [] := by
  rw [written, log_succ]
  split_ifs <;> rfl

variable (p inp) in
/-- A byte that is announced stays readable until it is read. -/
theorem status_rx_succ {t : ℕ} (h : (uartAt p inp t).status.getLsbD 0 = true)
    (hr : (inp t).dataRStb = false) : (uartAt p inp (t + 1)).status.getLsbD 0 = true := by
  rw [Uart.status_rx] at h ⊢
  exact p.rxFifo.keepsReadable _ _ h hr

variable (p inp) in
/-- Room that is announced stays until it is used. -/
theorem status_tx_succ {t : ℕ} (h : (uartAt p inp t).status.getLsbD 1 = true)
    (hw : (inp t).dataWStb = false) : (uartAt p inp (t + 1)).status.getLsbD 1 = true := by
  rw [Uart.status_tx] at h ⊢
  exact p.txFifo.keepsWritable _ _ h hw

/-- The UART keeps both streams, in every run: what was received is what was read while the
status announced it and then what the queue holds, and what was written while the status
announced room is what was sent and then what the queue holds. Neither queue overflows. The
divisor is the last one that was written. -/
theorem uart_streams (p : UartParts) (inp : ℕ → UartIn) (t : ℕ) :
    received p inp t = readOut p inp t ++ p.rxFifo.contents (uartAt p inp t).rxFifo ∧
    (p.rxFifo.contents (uartAt p inp t).rxFifo).length ≤ p.fifoDepth ∧
    written p inp t = sent p inp t ++ p.txFifo.contents (uartAt p inp t).txFifo ∧
    (p.txFifo.contents (uartAt p inp t).txFifo).length ≤ p.fifoDepth ∧
    ((∃ u < t, (inp u).clkDivWStb = true ∧
        (∀ v, u < v → v < t → ¬ (inp v).clkDivWStb = true) ∧
        (uartAt p inp t).clkDivRData = (inp u).clkDivWData) ∨
      ((∀ u < t, ¬ (inp u).clkDivWStb = true) ∧
        (uartAt p inp t).clkDivRData = BitVec.ofNat 16 ⌊p.clkFrequency / p.defaultBaud⌋₊)) := by
  refine ⟨received_eq t, p.rxFifo.bounded _, written_eq t, p.txFifo.bounded _, ?_⟩
  refine Clocked.lastWrite (v := fun u => (uartAt p inp u).clkDivRData) (fun u h => ?_)
    (fun u h => ?_) t
  · exact if_pos h
  · exact if_neg h

end Run

/-- The next access of the program: it polls the status until a byte is there, reads it,
polls the status until there is room, and writes it. -/
inductive Echo where
  | waitRx
  | getc
  | waitTx (c : BitVec 8)
  | putc (c : BitVec 8)

namespace Echo

def UART_STATUS_RX_RDY : BitVec 2 := 0x1

def UART_STATUS_TX_RDY : BitVec 2 := 0x2

def dataRStb : Echo → Bool
  | getc => true
  | _ => false

def dataWStb : Echo → Bool
  | putc _ => true
  | _ => false

def dataWData : Echo → BitVec 8
  | putc c => c
  | _ => 0

/-- The access after one that finds the given values in the elements. -/
def next (status : BitVec 2) (data : BitVec 8) : Echo → Echo
  | waitRx => if status &&& UART_STATUS_RX_RDY ≠ 0 then getc else waitRx
  | getc => waitTx data
  | waitTx c => if status &&& UART_STATUS_TX_RDY ≠ 0 then putc c else waitTx c
  | putc _ => waitRx

/-- The byte that has been read and not yet written. -/
def held : Echo → List (BitVec 8)
  | waitTx c | putc c => [c]
  | _ => []

theorem rx_rdy_iff (status : BitVec 2) :
    status &&& UART_STATUS_RX_RDY ≠ 0 ↔ status.getLsbD 0 = true := by
  revert status
  decide

theorem tx_rdy_iff (status : BitVec 2) :
    status &&& UART_STATUS_TX_RDY ≠ 0 ↔ status.getLsbD 1 = true := by
  revert status
  decide

theorem next_waitRx (status : BitVec 2) (data : BitVec 8) :
    waitRx.next status data = if status.getLsbD 0 then getc else waitRx :=
  if_congr (rx_rdy_iff status) rfl rfl

theorem next_waitTx (status : BitVec 2) (data c : BitVec 8) :
    (waitTx c).next status data = if status.getLsbD 1 then putc c else waitTx c :=
  if_congr (tx_rdy_iff status) rfl rfl

end Echo

/-- Whether the program makes its next access in a cycle, and the serial lines. -/
structure EchoIn where
  access : Bool
  rxRdy : Bool
  rxData : BitVec 8
  txRdy : Bool

def Echo.uartIn (e : Echo) (i : EchoIn) : UartIn where
  clkDivWStb := false
  clkDivWData := 0
  dataRStb := i.access && e.dataRStb
  dataWStb := i.access && e.dataWStb
  dataWData := e.dataWData
  rxRdy := i.rxRdy
  rxData := i.rxData
  txRdy := i.txRdy

def echo (p : UartParts) : Clocked EchoIn (Uart p × Echo) where
  reset := ((uart p).reset, .waitRx)
  step := fun (s, e) i =>
    (s.step (e.uartIn i), if i.access then e.next s.status s.dataRData else e)

section Run
variable (p : UartParts) (inp : ℕ → EchoIn)

def echoAt (t : ℕ) : Uart p × Echo := (echo p).run inp t

/-- What the UART sees of the program. -/
def echoUartIn (t : ℕ) : UartIn := (echoAt p inp t).2.uartIn (inp t)

variable {p inp}

theorem echoAt_uart (t : ℕ) : (echoAt p inp t).1 = uartAt p (echoUartIn p inp) t := by
  induction t with
  | zero => rfl
  | succ t ih =>
    rw [uartAt_succ, ← ih]
    rfl

variable (p inp) in
theorem echoAt_succ (t : ℕ) : (echoAt p inp (t + 1)).2 =
    if (inp t).access then (echoAt p inp t).2.next (uartAt p (echoUartIn p inp) t).status
      (uartAt p (echoUartIn p inp) t).dataRData
    else (echoAt p inp t).2 := by
  rw [← echoAt_uart]
  rfl

variable (p inp) in
/-- The program accesses the data when the status has allowed it, and holds what it has read
and not written. -/
structure Echoes (t : ℕ) : Prop where
  getc : (echoAt p inp t).2 = .getc →
    (uartAt p (echoUartIn p inp) t).status.getLsbD 0 = true
  putc : ∀ c, (echoAt p inp t).2 = .putc c →
    (uartAt p (echoUartIn p inp) t).status.getLsbD 1 = true
  bytes : readOut p (echoUartIn p inp) t =
    written p (echoUartIn p inp) t ++ (echoAt p inp t).2.held

theorem Echoes.step {t : ℕ} (h : Echoes p inp t) : Echoes p inp (t + 1) := by
  have hnext := echoAt_succ p inp t
  have hread := readOut_succ p (echoUartIn p inp) t
  have hwrite := written_succ p (echoUartIn p inp) t
  have hrx := status_rx_succ p (echoUartIn p inp) (t := t)
  have htx := status_tx_succ p (echoUartIn p inp) (t := t)
  have hr : (echoUartIn p inp t).dataRStb = ((inp t).access && (echoAt p inp t).2.dataRStb) := rfl
  have hw : (echoUartIn p inp t).dataWStb = ((inp t).access && (echoAt p inp t).2.dataWStb) := rfl
  have hd : (echoUartIn p inp t).dataWData = (echoAt p inp t).2.dataWData := rfl
  rw [hr] at hread hrx
  rw [hw] at hwrite htx
  rw [hd] at hwrite
  obtain ⟨hgetc, hputc, hbytes⟩ := h
  cases ha : (inp t).access with
  | false =>
    rw [ha] at hnext hread hwrite hrx htx
    simp only [Bool.false_and, Bool.false_eq_true, if_false, List.append_nil] at hnext hread hwrite
    refine ⟨fun he => hrx (hgetc (hnext.symm.trans he)) rfl,
      fun c he => htx (hputc c (hnext.symm.trans he)) rfl, ?_⟩
    rw [hread, hwrite, hnext, hbytes]
  | true =>
    rw [ha, if_pos rfl] at hnext
    rw [ha, Bool.true_and] at hread hwrite hrx htx
    cases he : (echoAt p inp t).2 with
    | waitRx =>
      rw [he] at hnext hread hwrite hrx hbytes
      have hstay : readOut p (echoUartIn p inp) (t + 1) =
          written p (echoUartIn p inp) (t + 1) := by
        simpa [Echo.dataRStb, Echo.dataWStb, Echo.held, hread, hwrite] using hbytes
      rw [Echo.next_waitRx] at hnext
      split_ifs at hnext with hs
      · refine ⟨fun _ => hrx hs rfl, ?_, ?_⟩
        · rw [hnext]; nofun
        · rw [hnext, hstay]; exact (List.append_nil _).symm
      · refine ⟨?_, ?_, ?_⟩
        · rw [hnext]; nofun
        · rw [hnext]; nofun
        · rw [hnext, hstay]; exact (List.append_nil _).symm
    | getc =>
      rw [he] at hnext hread hwrite hbytes
      refine ⟨?_, ?_, ?_⟩
      · rw [hnext]; nofun
      · rw [hnext]; nofun
      · simpa [Echo.dataRStb, Echo.dataWStb, Echo.held, Echo.next, hread, hwrite, hnext,
          hgetc he] using hbytes
    | waitTx c =>
      rw [he] at hnext hread hwrite htx hbytes
      have hstay : readOut p (echoUartIn p inp) (t + 1) =
          written p (echoUartIn p inp) (t + 1) ++ [c] := by
        simpa [Echo.dataRStb, Echo.dataWStb, Echo.held, hread, hwrite] using hbytes
      rw [Echo.next_waitTx] at hnext
      split_ifs at hnext with hs
      · refine ⟨?_, fun _ _ => htx hs rfl, ?_⟩
        · rw [hnext]; nofun
        · rw [hnext, hstay]; rfl
      · refine ⟨?_, ?_, ?_⟩
        · rw [hnext]; nofun
        · rw [hnext]; nofun
        · rw [hnext, hstay]; rfl
    | putc c =>
      rw [he] at hnext hread hwrite hbytes
      refine ⟨?_, ?_, ?_⟩
      · rw [hnext]; nofun
      · rw [hnext]; nofun
      · simpa [Echo.dataRStb, Echo.dataWStb, Echo.dataWData, Echo.held, Echo.next, hread, hwrite,
          hnext, hputc c he] using hbytes

/-- The echo program sends back what it receives, in every run, whenever its accesses and
the serial line take place: the bytes that were received are the bytes that were sent,
followed by those in the transmit queue, the one that the program holds, and those in the
receive queue. -/
theorem echo_echoes (p : UartParts) (inp : ℕ → EchoIn) (t : ℕ) :
    received p (echoUartIn p inp) t = sent p (echoUartIn p inp) t ++
      p.txFifo.contents (echoAt p inp t).1.txFifo ++ (echoAt p inp t).2.held ++
      p.rxFifo.contents (echoAt p inp t).1.rxFifo := by
  have hechoes : ∀ u, Echoes p inp u := by
    intro u
    induction u with
    | zero => exact ⟨nofun, nofun, rfl⟩
    | succ u ih => exact ih.step
  rw [echoAt_uart, received_eq, (hechoes t).bytes, written_eq]

end Run
end Icicle
