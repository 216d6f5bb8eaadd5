import Icicle.Library.Bytes
import Icicle.Library.Clocked
import Icicle.Datapath.LoadStore

/-! The load-store unit on a word memory is a flat little-endian memory of bytes. -/
namespace Icicle
open Wishbone Bytes

/-- The size of an access. -/
def MemWidth.size : MemWidth → ℕ
  | .byte => 1
  | .half => 2
  | .word => 4

/-- A value of any width as a word. -/
def extend {w : ℕ} (unsigned : Bool) (x : BitVec w) : BitVec 32 :=
  if unsigned then x.setWidth 32 else x.signExtend 32

/-- The bits above a value are its sign, or zeros if it is unsigned. -/
theorem getLsbD_extend {w : ℕ} (unsigned : Bool) (x : BitVec w) {i : ℕ} (hi : i < 32) :
    (extend unsigned x).getLsbD i =
      if i < w then x.getLsbD i else if unsigned then false else x.getLsbD (w - 1) := by
  unfold extend
  cases unsigned with
  | false =>
    rw [if_neg Bool.false_ne_true, if_neg Bool.false_ne_true, BitVec.getLsbD_signExtend,
      BitVec.msb_eq_getLsbD_last]
    simp [hi]
  | true =>
    rw [if_pos rfl, if_pos rfl, BitVec.getLsbD_setWidth]
    split_ifs with h
    · simp [hi]
    · simp [BitVec.getLsbD_of_ge x i (by omega)]

theorem extend_word (unsigned : Bool) (x : BitVec 32) : extend unsigned x = x := by
  unfold extend
  split_ifs
  · exact BitVec.setWidth_eq x
  · exact BitVec.signExtend_eq x

/-- How a value that is read is put together. -/
theorem extend_eq {w n : ℕ} (hw : n + w = 32) (unsigned : Bool) (x : BitVec w) :
    ((BitVec.ofBool (if unsigned then false else x.getLsbD (w - 1))).signExtend n ++ x).cast hw =
      extend unsigned x := by
  apply BitVec.eq_of_getLsbD_eq
  intro i hi
  rw [getLsbD_extend _ _ hi, BitVec.getLsbD_cast, BitVec.getLsbD_append]
  split_ifs
  · rfl
  · rw [getLsbD_signExtend_ofBool _ (by omega)]
  · rw [getLsbD_signExtend_ofBool _ (by omega)]

namespace WordAlign
variable {m : WordAlign}

/-- An access that is aligned stays in its word. -/
theorem offset_of_aligned {width : MemWidth} (hw : m.width = some width)
    (h : m.misaligned = false) : width.size ∣ m.offset.toNat ∧
      m.offset.toNat + width.size ≤ 4 := by
  unfold misaligned at h
  rw [hw] at h
  generalize m.offset = o at h
  revert h o
  cases width <;> decide

theorem offset_of_word (hw : m.width = some .word) (h : m.misaligned = false) :
    m.offset.toNat = 0 := by
  have hfits : m.offset.toNat + 4 ≤ 4 := (offset_of_aligned hw h).2
  omega

theorem half_shift {o : BitVec 2} (h : 2 ∣ o.toNat) :
    (o.getLsbD 1).toNat * 16 = 8 * o.toNat := by
  revert h o
  decide

/-- A load returns the bytes in its lanes. -/
theorem rdata_eq {width : MemWidth} (hw : m.width = some width) (h : m.misaligned = false)
    {word : BitVec 32} {x : BitVec (8 * width.size)}
    (hx : ∀ b < width.size, Bytes.byte x b = Bytes.byte word (m.offset.toNat + b)) :
    m.rdata word = extend m.unsigned x := by
  obtain ⟨hdvd, -⟩ := offset_of_aligned hw h
  unfold rdata
  rw [hw]
  cases width with
  | byte =>
    have hbyte : m.byte word = x := by
      refine eq_of_byte (n := 1) le_rfl fun b hb => Eq.trans ?_ (hx b hb).symm
      rw [WordAlign.byte, byte_setWidth _ (by omega),
        byte_ushiftRight _ (Nat.mul_comm _ _)]
    rw [← extend_eq (n := 24) rfl, ← hbyte]
    rfl
  | half =>
    have hhalf : m.half word = x := by
      refine eq_of_byte (n := 2) le_rfl fun b hb => Eq.trans ?_ (hx b hb).symm
      rw [half, byte_setWidth _ (by omega), byte_ushiftRight _ (half_shift hdvd)]
    rw [← extend_eq (n := 16) rfl, ← hhalf]
    rfl
  | word =>
    have hword : word = x := by
      refine eq_of_byte (n := 4) le_rfl fun b hb => Eq.trans ?_ (hx b hb).symm
      rw [offset_of_word hw h, Nat.zero_add]
    rw [hword]
    exact (extend_word m.unsigned x).symm

/-- A store selects the lanes of its bytes. -/
theorem mask_getLsbD {width : MemWidth} (hw : m.width = some width) (h : m.misaligned = false)
    {k : ℕ} (hk : k < 4) : m.mask.getLsbD k =
      decide (m.offset.toNat ≤ k ∧ k < m.offset.toNat + width.size) := by
  unfold misaligned at h
  unfold mask
  rw [hw] at h ⊢
  generalize m.offset = o at h ⊢
  obtain ⟨k, rfl⟩ : ∃ f : Fin 4, k = f := ⟨⟨k, hk⟩, rfl⟩
  clear hk
  revert h o k
  cases width <;> decide

/-- A store drives its bytes on the lanes that it selects. -/
theorem byte_wdataAligned {width : MemWidth} (hw : m.width = some width)
    (h : m.misaligned = false) {k : ℕ} (hk : k < 4) (hle : m.offset.toNat ≤ k) :
    Bytes.byte m.wdataAligned k = Bytes.byte m.wdata (k - m.offset.toNat) := by
  obtain ⟨hdvd, -⟩ := offset_of_aligned hw h
  unfold wdataAligned
  rw [hw]
  cases width with
  | byte => exact byte_shiftLeft _ (Nat.mul_comm _ _) hle (by omega)
  | half => exact byte_shiftLeft _ (half_shift hdvd) hle (by omega)
  | word =>
    rw [offset_of_word hw h]
    rfl

/-- An address counts words and the lanes in a word. -/
theorem toNat_addr (a : BitVec 32) :
    a.toNat = 4 * (a.extractLsb' 2 30).toNat + (a.extractLsb' 0 2).toNat := by
  have h := a.isLt
  simp only [BitVec.extractLsb'_toNat, Nat.shiftRight_eq_div_pow]
  omega

theorem misaligned_iff {width : MemWidth} (hw : m.width = some width) :
    m.misaligned = false ↔ width.size ∣ m.addr.toNat := by
  have haddr := toNat_addr m.addr
  have hoffset : width.size ∣ m.addr.toNat ↔ width.size ∣ m.offset.toNat := by
    rw [haddr]
    refine (Nat.dvd_add_right (Nat.dvd_mul_right_of_dvd ?_ _))
    cases width <;> decide
  rw [hoffset]
  unfold misaligned
  rw [hw]
  generalize m.offset = o
  revert o
  cases width <;> decide

/-- The bytes of an aligned access are the lanes from its offset on. -/
theorem lane_iff {width : MemWidth} (hw : m.width = some width) (h : m.misaligned = false)
    (c : BitVec 32) : (c - m.addr).toNat < width.size ↔
      c.extractLsb' 2 30 = m.addr.extractLsb' 2 30 ∧
        m.offset.toNat ≤ (c.extractLsb' 0 2).toNat ∧
        (c.extractLsb' 0 2).toNat < m.offset.toNat + width.size := by
  obtain ⟨-, hfits⟩ := offset_of_aligned hw h
  have ha : m.addr.toNat = 4 * (m.addr.extractLsb' 2 30).toNat + m.offset.toNat :=
    toNat_addr m.addr
  have hc := toNat_addr c
  have hlane := (c.extractLsb' 0 2).isLt
  have hlt := c.isLt
  rw [BitVec.toNat_sub, ← BitVec.toNat_inj]
  omega

/-- The place of a byte in an access. -/
theorem lane_sub {width : MemWidth} (hw : m.width = some width) (h : m.misaligned = false)
    {c : BitVec 32} (hc : (c - m.addr).toNat < width.size) :
    (c - m.addr).toNat = (c.extractLsb' 0 2).toNat - m.offset.toNat := by
  obtain ⟨hword, hle, hlt⟩ := (lane_iff hw h c).mp hc
  have ha : m.addr.toNat = 4 * (m.addr.extractLsb' 2 30).toNat + m.offset.toNat :=
    toNat_addr m.addr
  have hcn := toNat_addr c
  have hclt := c.isLt
  rw [hword] at hcn
  rw [BitVec.toNat_sub]
  omega

end WordAlign

/-- A word memory as it is addressed byte by byte. -/
def bytes (words : BitVec 30 → BitVec 32) (a : BitVec 32) : BitVec 8 :=
  byte (words (a.extractLsb' 2 30)) (a.extractLsb' 0 2).toNat

/-- A load or a store. -/
structure MemOp where
  store : Bool
  width : MemWidth
  unsigned : Bool
  addr : BitVec 32
  wdata : BitVec 32

inductive Outcome where
  | trapped
  | stored
  | loaded (rdata : BitVec 32)
  deriving DecidableEq

namespace MemOp

/-- The unit while the operation is issued. -/
def unit (op : MemOp) : LoadStore where
  width := some op.width
  unsigned := op.unsigned
  addr := op.addr
  wdata := op.wdata
  valid := true
  load := !op.store
  store := op.store

/-- What the unit returns in the cycle in which it is not busy. -/
def outcome (op : MemOp) (p : Response) : Outcome :=
  if op.unit.trap p then .trapped
  else if op.store then .stored
  else .loaded (op.unit.rdata (op.unit.rdataAligned p))

/-- The operation on a memory of bytes. -/
def perform (op : MemOp) (mem : BitVec 32 → BitVec 8) : Outcome × (BitVec 32 → BitVec 8) :=
  if op.width.size ∣ op.addr.toNat then
    if op.store then (.stored, Bytes.store mem op.addr op.width.size op.wdata)
    else (.loaded (extend op.unsigned (load mem op.addr op.width.size)), mem)
  else (.trapped, mem)

variable {op : MemOp} {words : BitVec 30 → BitVec 32}

theorem misaligned_iff : op.unit.misaligned = false ↔ op.width.size ∣ op.addr.toNat :=
  WordAlign.misaligned_iff rfl

/-- The bytes that are loaded are the lanes of the addressed word. -/
theorem byte_load_bytes (words : BitVec 30 → BitVec 32) (h : op.unit.misaligned = false)
    {b : ℕ} (hb : b < op.width.size) :
    byte (load (bytes words) op.addr op.width.size) b =
      byte (words (op.addr.extractLsb' 2 30)) (op.unit.offset.toNat + b) := by
  have hsub : (op.addr + BitVec.ofNat 32 b - op.addr).toNat = b := by
    rw [BitVec.add_comm, BitVec.add_sub_cancel, BitVec.toNat_ofNat]
    have hsize : op.width.size ≤ 4 := by cases op.width <;> decide
    omega
  have hlt : (op.addr + BitVec.ofNat 32 b - op.addr).toNat < op.width.size := hsub.trans_lt hb
  obtain ⟨hword, hle, -⟩ := (WordAlign.lane_iff (m := op.unit.toWordAlign) rfl h _).mp hlt
  have hlane : (op.addr + BitVec.ofNat 32 b - op.addr).toNat =
      ((op.addr + BitVec.ofNat 32 b).extractLsb' 0 2).toNat - op.unit.offset.toNat :=
    WordAlign.lane_sub (m := op.unit.toWordAlign) rfl h hlt
  have haddr : op.unit.addr = op.addr := rfl
  rw [haddr] at hword
  rw [byte_load _ _ hb, bytes, hword]
  congr 1
  omega

/-- The bytes of the word memory after a store. -/
theorem bytes_store (words : BitVec 30 → BitVec 32) (h : op.unit.misaligned = false) :
    bytes (Function.update words (op.addr.extractLsb' 2 30) (mergeLanes op.unit.mask
      (words (op.addr.extractLsb' 2 30)) op.unit.wdataAligned)) =
    Bytes.store (bytes words) op.addr op.width.size op.wdata := by
  funext c
  have hlane := (c.extractLsb' 0 2).isLt
  have hmask := WordAlign.mask_getLsbD (m := op.unit.toWordAlign) rfl h hlane
  have hiff := WordAlign.lane_iff (m := op.unit.toWordAlign) rfl h c
  by_cases hword : c.extractLsb' 2 30 = op.addr.extractLsb' 2 30
  · rw [bytes, hword, Function.update_self, byte_mergeLanes _ _ _ hlane, hmask]
    by_cases hc : (c - op.addr).toNat < op.width.size
    · obtain ⟨-, hle, hlt⟩ := hiff.mp hc
      have hdata := WordAlign.byte_wdataAligned (m := op.unit.toWordAlign) rfl h hlane hle
      rw [if_pos (decide_eq_true ⟨hle, hlt⟩), hdata, Bytes.store_of_lt _ hc,
        ← WordAlign.lane_sub (m := op.unit.toWordAlign) rfl h hc]
      rfl
    · rw [if_neg (by simpa using fun hle hlt => hc (hiff.mpr ⟨hword, hle, hlt⟩)),
        Bytes.store_of_le _ (Nat.le_of_not_lt hc), bytes, hword]
  · have hc : ¬ (c - op.addr).toNat < op.width.size := fun hc => hword (hiff.mp hc).1
    rw [bytes, Function.update_of_ne hword, Bytes.store_of_le _ (Nat.le_of_not_lt hc), bytes]

end MemOp

/-- Whether the memory answers in a cycle, and what is on its data lines if it does not
return a word. -/
structure MemIn where
  ready : Bool
  datR : BitVec 32

/-- A word memory with any wait states. -/
def memoryResponse (words : BitVec 30 → BitVec 32) (r : Request 30) (p : MemIn) : Response where
  ack := r.requesting && p.ready
  err := false
  datR := if r.requesting && p.ready && !r.we then words r.adr else p.datR

/-- Operations that are still to be issued, what the earlier ones returned, and the memory. -/
structure Issuer where
  todo : List MemOp
  outcomes : List Outcome
  words : BitVec 30 → BitVec 32

/-- An operation is issued until the unit is not busy. -/
def Issuer.step (s : Issuer) (p : MemIn) : Issuer :=
  match s.todo with
  | [] => s
  | op :: ops =>
    let r := memoryResponse s.words op.unit.bus p
    let words := update s.words op.unit.bus r
    if op.unit.busy r then { s with words := words }
    else { todo := ops, outcomes := s.outcomes ++ [op.outcome r], words := words }

namespace MemOp
variable {op : MemOp} {words : BitVec 30 → BitVec 32} {p : MemIn}

theorem requesting_iff : op.unit.bus.requesting = true ↔ op.unit.misaligned = false := by
  rw [LoadStore.requesting_iff]
  have hls : (op.unit.load || op.unit.store) = true := by simp [unit]
  have hvalid : op.unit.valid = true := rfl
  simp [hls, hvalid]

/-- A misaligned operation traps at once, without a request. -/
theorem misaligned_step (words : BitVec 30 → BitVec 32) (p : MemIn)
    (h : op.unit.misaligned = true) :
    op.unit.bus.cyc = false ∧ op.unit.busy (memoryResponse words op.unit.bus p) = false ∧
      op.outcome (memoryResponse words op.unit.bus p) = .trapped ∧
      update words op.unit.bus (memoryResponse words op.unit.bus p) = words := by
  have hcyc : op.unit.bus.cyc = false := by simp [LoadStore.bus, h]
  have hhand : handshake op.unit.bus (memoryResponse words op.unit.bus p) = false := by
    simp [handshake, Request.requesting, hcyc]
  have htrap : op.unit.trap (memoryResponse words op.unit.bus p) = true := by
    rw [LoadStore.trap_iff]
    exact ⟨by simp [unit], .inl h⟩
  refine ⟨hcyc, by simp [LoadStore.busy, hcyc], if_pos htrap, ?_⟩
  exact update_of_not_stores (by simp [stores, hhand])

/-- An aligned operation that is answered does not trap. -/
theorem aligned_outcome (h : op.unit.misaligned = false) (words : BitVec 30 → BitVec 32)
    (p : MemIn) : op.outcome (memoryResponse words op.unit.bus p) = if op.store then .stored
      else .loaded (op.unit.rdata (memoryResponse words op.unit.bus p).datR) := by
  have htrap : ¬ op.unit.trap (memoryResponse words op.unit.bus p) = true := by
    rw [LoadStore.trap_iff]
    rintro ⟨-, hm | ⟨-, he⟩⟩
    · exact Bool.false_ne_true (h.symm.trans hm)
    · cases he
  exact if_neg htrap

/-- The cycle that completes an operation does what the operation does on bytes. -/
theorem perform_eq (hbusy : op.unit.busy (memoryResponse words op.unit.bus p) = false) :
    op.perform (bytes words) = (op.outcome (memoryResponse words op.unit.bus p),
      bytes (update words op.unit.bus (memoryResponse words op.unit.bus p))) := by
  cases h : op.unit.misaligned with
  | true =>
    obtain ⟨-, -, hout, hwords⟩ := misaligned_step words p h
    have hdvd : ¬ op.width.size ∣ op.addr.toNat := fun hd =>
      Bool.false_ne_true ((misaligned_iff.mpr hd).symm.trans h)
    rw [perform, if_neg hdvd, hout, hwords]
  | false =>
    have hreq := requesting_iff.mpr h
    have hhand : handshake op.unit.bus (memoryResponse words op.unit.bus p) = true :=
      (handshake_or_pending hreq).resolve_right (by
        rw [← LoadStore.busy_eq_pending, hbusy]
        exact Bool.false_ne_true)
    have hready : p.ready = true := by
      simpa [handshake, memoryResponse, Response.answers, hreq] using hhand
    have hadr : op.unit.bus.adr = op.addr.extractLsb' 2 30 := LoadStore.bus_adr_eq op.unit
    have hwe : op.unit.bus.we = op.store := rfl
    rw [perform, if_pos (misaligned_iff.mp h), aligned_outcome h]
    cases hs : op.store with
    | true =>
      have herr : (memoryResponse words op.unit.bus p).err = false := rfl
      have hstores : stores op.unit.bus (memoryResponse words op.unit.bus p) = true := by
        simp [stores, hhand, hwe, hs, herr]
      rw [update, if_pos hstores, hadr]
      have hbytes := bytes_store words h
      rw [← hbytes]
      rfl
    | false =>
      have hstores : stores op.unit.bus (memoryResponse words op.unit.bus p) = false := by
        simp [stores, hwe, hs]
      have hdat : (memoryResponse words op.unit.bus p).datR =
          words (op.addr.extractLsb' 2 30) := by
        simp [memoryResponse, hreq, hready, hwe, hs, hadr]
      have hrdata := WordAlign.rdata_eq (m := op.unit.toWordAlign) rfl h fun b hb =>
        byte_load_bytes words h hb
      rw [update_of_not_stores hstores, hdat, hrdata]
      rfl

/-- A cycle in which the unit is busy changes nothing. -/
theorem update_of_busy (hbusy : op.unit.busy (memoryResponse words op.unit.bus p) = true) :
    update words op.unit.bus (memoryResponse words op.unit.bus p) = words := by
  rw [LoadStore.busy_eq_pending] at hbusy
  refine update_of_not_stores ?_
  simp [stores, handshake, pending_not_answers hbusy]

/-- The memory is not ready while the unit is busy. -/
theorem not_ready_of_busy (hbusy : op.unit.busy (memoryResponse words op.unit.bus p) = true) :
    p.ready = false := by
  rw [LoadStore.busy_eq_pending] at hbusy
  have hna := pending_not_answers hbusy
  simpa [Response.answers, memoryResponse, pending_requesting hbusy] using hna

end MemOp

/-- Operations one after the other on a memory of bytes. -/
def performAll : List MemOp → (BitVec 32 → BitVec 8) → List Outcome × (BitVec 32 → BitVec 8)
  | [], mem => ([], mem)
  | op :: ops, mem =>
    let first := op.perform mem
    let rest := performAll ops first.2
    (first.1 :: rest.1, rest.2)

theorem performAll_concat (ops : List MemOp) (op : MemOp) (mem : BitVec 32 → BitVec 8) :
    performAll (ops ++ [op]) mem =
      ((performAll ops mem).1 ++ [(op.perform (performAll ops mem).2).1],
        (op.perform (performAll ops mem).2).2) := by
  induction ops generalizing mem with
  | nil => rfl
  | cons first ops ih => simp only [List.cons_append, performAll, ih]

/-- The unit with a word memory, from the first operation on. -/
def issuer (ops : List MemOp) (words : BitVec 30 → BitVec 32) : Clocked MemIn Issuer where
  reset := { todo := ops, outcomes := [], words := words }
  step := Issuer.step

namespace Issuer
variable {s : Issuer} {op : MemOp} {rest : List MemOp} {p : MemIn}

theorem step_of_nil (h : s.todo = []) : s.step p = s := by
  rw [step, h]

theorem step_of_busy (h : s.todo = op :: rest)
    (hbusy : op.unit.busy (memoryResponse s.words op.unit.bus p) = true) : s.step p = s := by
  rw [step, h]
  simp only [hbusy, if_true, MemOp.update_of_busy hbusy]
  rw [← h]

theorem step_of_done (h : s.todo = op :: rest)
    (hbusy : op.unit.busy (memoryResponse s.words op.unit.bus p) = false) : s.step p =
      { todo := rest
        outcomes := s.outcomes ++ [op.outcome (memoryResponse s.words op.unit.bus p)]
        words := update s.words op.unit.bus (memoryResponse s.words op.unit.bus p) } := by
  rw [step, h]
  simp only [hbusy, Bool.false_eq_true, if_false]

/-- The operations that are done did on the bytes what they do there. -/
def Performed (ops : List MemOp) (mem : BitVec 32 → BitVec 8) (s : Issuer) : Prop :=
  ∃ done, ops = done ++ s.todo ∧ (s.outcomes, bytes s.words) = performAll done mem

theorem Performed.step {ops : List MemOp} {mem : BitVec 32 → BitVec 8} (h : Performed ops mem s) :
    Performed ops mem (s.step p) := by
  obtain ⟨done, hops, hdone⟩ := h
  cases htodo : s.todo with
  | nil =>
    rw [step_of_nil htodo]
    exact ⟨done, hops, hdone⟩
  | cons op rest =>
    cases hbusy : op.unit.busy (memoryResponse s.words op.unit.bus p) with
    | true =>
      rw [step_of_busy htodo hbusy]
      exact ⟨done, hops, hdone⟩
    | false =>
      rw [step_of_done htodo hbusy]
      refine ⟨done ++ [op], ?_, ?_⟩
      · rw [hops, htodo, List.append_assoc]
        rfl
      · have hperform := MemOp.perform_eq hbusy
        rw [performAll_concat, ← hdone, hperform]

theorem length_step_le : (s.step p).todo.length ≤ s.todo.length := by
  cases htodo : s.todo with
  | nil => rw [step_of_nil htodo, htodo]
  | cons op rest =>
    cases hbusy : op.unit.busy (memoryResponse s.words op.unit.bus p) with
    | true => rw [step_of_busy htodo hbusy, htodo]
    | false =>
      rw [step_of_done htodo hbusy]
      exact Nat.le_succ _

/-- An operation is done when the memory is ready. -/
theorem length_step_lt (hready : p.ready = true) (h : s.todo ≠ []) :
    (s.step p).todo.length < s.todo.length := by
  cases htodo : s.todo with
  | nil => exact absurd htodo h
  | cons op rest =>
    cases hbusy : op.unit.busy (memoryResponse s.words op.unit.bus p) with
    | true => exact absurd ((MemOp.not_ready_of_busy hbusy).symm.trans hready) Bool.false_ne_true
    | false =>
      rw [step_of_done htodo hbusy]
      exact Nat.lt_succ_self _

end Issuer

section Run
variable (ops : List MemOp) (words : BitVec 30 → BitVec 32) (line : ℕ → MemIn)

theorem performed (t : ℕ) :
    Issuer.Performed ops (bytes words) ((issuer ops words).run line t) :=
  (issuer ops words).run_invariant ⟨[], rfl, rfl⟩ (fun _ _ => Issuer.Performed.step) line t

/-- All operations are done if the memory is ready again and again. -/
theorem done_of_ready (hready : ∀ t, ∃ u, t ≤ u ∧ (line u).ready = true) :
    ∃ t, ((issuer ops words).run line t).todo = [] := by
  have hmono : ∀ t u, t ≤ u → ((issuer ops words).run line u).todo.length ≤
      ((issuer ops words).run line t).todo.length := by
    intro t u htu
    induction u, htu using Nat.le_induction with
    | base => exact le_rfl
    | succ u htu ih => exact Issuer.length_step_le.trans ih
  have hdone : ∀ n t, ((issuer ops words).run line t).todo.length ≤ n →
      ∃ u, ((issuer ops words).run line u).todo = [] := by
    intro n
    induction n with
    | zero => exact fun t ht => ⟨t, List.length_eq_zero_iff.mp (Nat.le_zero.mp ht)⟩
    | succ n ih =>
      intro t ht
      obtain ⟨u, htu, hu⟩ := hready t
      by_cases hnil : ((issuer ops words).run line u).todo = []
      · exact ⟨u, hnil⟩
      · have hlt := Issuer.length_step_lt hu hnil
        have hle := hmono t u htu
        refine ih (u + 1) ?_
        rw [Clocked.run_succ]
        exact Nat.le_of_lt_succ (hlt.trans_le (hle.trans ht))
  exact hdone _ 0 le_rfl

/-- Operations of any kind that are issued through the unit return, and leave in a word
memory, what they do on a memory of bytes; they are all done if the memory is ready again
and again. A misaligned one traps at once and neither asserts a request nor changes
anything. -/
theorem loadStore_refines_bytes :
    (∀ t, ∃ done, ops = done ++ ((issuer ops words).run line t).todo ∧
      (((issuer ops words).run line t).outcomes, bytes ((issuer ops words).run line t).words) =
        performAll done (bytes words)) ∧
    ((∀ t, ∃ u, t ≤ u ∧ (line u).ready = true) → ∃ t, ((issuer ops words).run line t).todo = [] ∧
      (((issuer ops words).run line t).outcomes, bytes ((issuer ops words).run line t).words) =
        performAll ops (bytes words)) ∧
    ∀ t op rest, ((issuer ops words).run line t).todo = op :: rest →
      ¬ op.width.size ∣ op.addr.toNat → op.unit.bus.cyc = false ∧
        (issuer ops words).run line (t + 1) =
          { todo := rest
            outcomes := ((issuer ops words).run line t).outcomes ++ [.trapped]
            words := ((issuer ops words).run line t).words } := by
  refine ⟨performed ops words line, ?_, ?_⟩
  · intro hready
    obtain ⟨t, ht⟩ := done_of_ready ops words line hready
    obtain ⟨done, hops, hdone⟩ := performed ops words line t
    rw [ht, List.append_nil] at hops
    exact ⟨t, ht, hops ▸ hdone⟩
  · intro t op rest htodo hdvd
    have hmis : op.unit.misaligned = true :=
      eq_true_of_ne_false fun h => hdvd (MemOp.misaligned_iff.mp h)
    obtain ⟨hcyc, hbusy, hout, hwords⟩ := MemOp.misaligned_step
      ((issuer ops words).run line t).words (line t) hmis
    refine ⟨hcyc, ?_⟩
    have hstep := Issuer.step_of_done htodo hbusy
    rw [hout, hwords] at hstep
    exact hstep

end Run
end Icicle
