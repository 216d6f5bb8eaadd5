import Icicle.Library.Wishbone

/-! The load-store unit: alignment of bytes and half-words on a word bus, and the
bus handshake. -/
namespace Icicle
open Wishbone

inductive MemWidth where
  | byte | half | word
  deriving DecidableEq

/-- The pattern `3` is no width. -/
def MemWidth.ofBits : BitVec 2 → Option MemWidth
  | 0#2 => some .byte
  | 1#2 => some .half
  | 2#2 => some .word
  | _ => none

structure WordAlign where
  width : Option MemWidth
  unsigned : Bool
  addr : BitVec 32
  wdata : BitVec 32

namespace WordAlign

def offset (m : WordAlign) : BitVec 2 := m.addr.extractLsb' 0 2

def addrAligned (m : WordAlign) : BitVec 32 := m.addr.extractLsb' 2 30 ++ 0#2

def byte (m : WordAlign) (rdataAligned : BitVec 32) : BitVec 8 :=
  (rdataAligned >>> (m.offset.toNat * 8)).setWidth 8

def half (m : WordAlign) (rdataAligned : BitVec 32) : BitVec 16 :=
  (rdataAligned >>> ((m.offset.getLsbD 1).toNat * 16)).setWidth 16

def misaligned (m : WordAlign) : Bool :=
  match m.width with
  | some .byte => false
  | some .half => m.offset.getLsbD 0
  | some .word => m.offset != 0
  | none => false

def mask (m : WordAlign) : BitVec 4 :=
  match m.width with
  | some .byte => 0b1#4 <<< m.offset.toNat
  | some .half => 0b11#4 <<< m.offset.toNat
  | some .word => 0b1111#4
  | none => 0

def wdataAligned (m : WordAlign) : BitVec 32 :=
  match m.width with
  | some .byte => m.wdata <<< (m.offset.toNat * 8)
  | some .half => m.wdata <<< ((m.offset.getLsbD 1).toNat * 16)
  | some .word => m.wdata
  | none => 0

def rdata (m : WordAlign) (rdataAligned : BitVec 32) : BitVec 32 :=
  match m.width with
  | some .byte =>
    let byte := m.byte rdataAligned
    (BitVec.ofBool (if m.unsigned then false else byte.getLsbD 7)).signExtend 24 ++ byte
  | some .half =>
    let half := m.half rdataAligned
    (BitVec.ofBool (if m.unsigned then false else half.getLsbD 15)).signExtend 16 ++ half
  | some .word => rdataAligned
  | none => 0

/-- An aligned word is accessed at its own address. -/
theorem addrAligned_of_word {m : WordAlign} (hw : m.width = some .word)
    (h : m.misaligned = false) : m.addrAligned = m.addr := by
  have h0 : m.addr.extractLsb' 0 2 = 0#2 := by simpa [misaligned, hw, offset] using h
  have happ : m.addr.extractLsb' 2 30 ++ m.addr.extractLsb' 0 2 = m.addr := by
    apply BitVec.eq_of_getLsbD_eq
    intro i hi
    rw [BitVec.getLsbD_append, BitVec.getLsbD_extractLsb', BitVec.getLsbD_extractLsb']
    by_cases h2 : i < 2
    · simp [h2]
    · simp [h2, show i - 2 < 30 by omega, show 2 + (i - 2) = i by omega]
  unfold addrAligned
  rw [← h0, happ]

end WordAlign

structure LoadStore extends WordAlign where
  valid : Bool
  load : Bool
  store : Bool

namespace LoadStore

/-- The wishbone outputs; they do not depend on the answer. -/
def bus (m : LoadStore) : Request 30 :=
  let cyc := m.valid && (m.load || m.store) && !m.misaligned
  { adr := m.addrAligned.extractLsb' 2 30
    datW := m.wdataAligned
    sel := m.mask
    cyc := cyc
    stb := cyc
    we := m.store }

def busy (m : LoadStore) (p : Response) : Bool := m.bus.cyc && m.bus.stb && !(p.ack || p.err)

def fault (m : LoadStore) (p : Response) : Bool := m.bus.cyc && m.bus.stb && p.err

def trap (m : LoadStore) (p : Response) : Bool :=
  (m.load || m.store) && (m.misaligned || m.fault p)

def rdataAligned (_ : LoadStore) (p : Response) : BitVec 32 := p.datR

/-- A unit is busy exactly in the cycles its bus request stays unanswered. -/
theorem busy_eq_pending (m : LoadStore) (p : Response) : m.busy p = pending m.bus p := rfl

theorem requesting_iff (m : LoadStore) : m.bus.requesting = true ↔
    m.valid = true ∧ (m.load || m.store) = true ∧ m.misaligned = false := by
  simp [Request.requesting, bus, and_assoc]

/-- A unit traps for a misaligned access, or for an answer with an error. -/
theorem trap_iff (m : LoadStore) (p : Response) : m.trap p = true ↔ (m.load || m.store) = true ∧
    (m.misaligned = true ∨ handshake m.bus p = true ∧ p.err = true) := by
  have hfault : m.fault p = true ↔ handshake m.bus p = true ∧ p.err = true := by
    simp only [fault, handshake, Request.requesting, Response.answers, Bool.and_eq_true,
      Bool.or_eq_true]
    tauto
  simp only [trap, Bool.and_eq_true, Bool.or_eq_true, hfault]

theorem bus_adr_eq (m : LoadStore) : m.bus.adr = m.addr.extractLsb' 2 30 :=
  BitVec.extractLsb'_append_eq_left

theorem bus_adr (m : LoadStore) : m.bus.adr ++ 0#2 = m.addrAligned := by
  rw [bus_adr_eq, WordAlign.addrAligned]

end LoadStore
end Icicle
