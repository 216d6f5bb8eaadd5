import Mathlib.Tactic
import Icicle.Library.Bytes

/-! A Wishbone bus with a 32-bit data path, seen one cycle at a time: requests,
answers and uninterrupted requests. -/
namespace Wishbone
open Bytes

/-- The signals a bus initiator drives in one cycle; `adr` counts 32-bit words. -/
structure Request (aw : ℕ) where
  adr : BitVec aw
  datW : BitVec 32
  sel : BitVec 4
  cyc : Bool
  stb : Bool
  we : Bool
  deriving DecidableEq

/-- The signals a bus target drives in one cycle. -/
structure Response where
  ack : Bool
  err : Bool
  datR : BitVec 32
  deriving DecidableEq

variable {aw : ℕ}

def Request.requesting (r : Request aw) : Bool := r.cyc && r.stb

def Response.answers (p : Response) : Bool := p.ack || p.err

/-- A cycle that completes a request, with or without an error. -/
def handshake (r : Request aw) (p : Response) : Bool := r.requesting && p.answers

/-- A cycle that asserts a request which is not answered. -/
def pending (r : Request aw) (p : Response) : Bool := r.requesting && !p.answers

theorem pending_requesting {r : Request aw} {p : Response} (h : pending r p = true) :
    r.requesting = true := (Bool.and_eq_true_iff.mp h).1

theorem pending_not_answers {r : Request aw} {p : Response} (h : pending r p = true) :
    p.answers = false := by simpa using (Bool.and_eq_true_iff.mp h).2

theorem handshake_or_pending {r : Request aw} {p : Response} (h : r.requesting = true) :
    handshake r p = true ∨ pending r p = true := by
  cases hp : p.answers <;> simp [handshake, pending, h, hp]

/-- The first cycle of the uninterrupted request that is asserted in a cycle: the
one after the last cycle that was idle or answered. -/
def began (req : ℕ → Request aw) (resp : ℕ → Response) : ℕ → ℕ
  | 0 => 0
  | t + 1 => if pending (req t) (resp t) then began req resp t else t + 1

section Began
variable (req : ℕ → Request aw) (resp : ℕ → Response)

theorem began_le (t : ℕ) : began req resp t ≤ t := by
  induction t with
  | zero => exact le_rfl
  | succ t ih =>
    unfold began
    split <;> omega

/-- Between its first cycle and the present one the request is asserted and unanswered. -/
theorem pending_of_began_le {t u : ℕ} (hu : began req resp t ≤ u) (hut : u < t) :
    pending (req u) (resp u) = true := by
  induction t with
  | zero => omega
  | succ t ih =>
    unfold began at hu
    split at hu
    next hp =>
      rcases Nat.lt_succ_iff_lt_or_eq.mp hut with hlt | rfl
      · exact ih hu hlt
      · exact hp
    next => omega

end Began

/-- The bytes of a word that `sel` selects are taken from `new`. -/
def mergeLanes (sel : BitVec 4) (old new : BitVec 32) : BitVec 32 :=
  let lane (i : ℕ) : BitVec 8 :=
    if sel.getLsbD i then new.extractLsb' (8 * i) 8 else old.extractLsb' (8 * i) 8
  lane 3 ++ lane 2 ++ lane 1 ++ lane 0

theorem byte_mergeLanes (sel : BitVec 4) (old new : BitVec 32) {b : ℕ} (hb : b < 4) :
    byte (mergeLanes sel old new) b = if sel.getLsbD b then byte new b else byte old b :=
  byte_append (fun i => if sel.getLsbD i then byte new i else byte old i) hb

/-- A cycle that completes a write without an error. -/
def stores (r : Request aw) (p : Response) : Bool := handshake r p && r.we && !p.err

/-- The contents of a memory after a cycle; a write takes effect when it is acknowledged. -/
def update (mem : BitVec aw → BitVec 32) (r : Request aw) (p : Response) : BitVec aw → BitVec 32 :=
  if stores r p then Function.update mem r.adr (mergeLanes r.sel (mem r.adr) r.datW) else mem

/-- The contents at the start of each cycle. -/
def contents (req : ℕ → Request aw) (resp : ℕ → Response) (init : BitVec aw → BitVec 32) :
    ℕ → BitVec aw → BitVec 32
  | 0 => init
  | t + 1 => update (contents req resp init t) (req t) (resp t)

theorem update_of_not_stores {mem : BitVec aw → BitVec 32} {r : Request aw} {p : Response}
    (h : stores r p = false) : update mem r p = mem := by simp [update, h]

/-- Every read is answered with the contents in some cycle of its request. -/
def Reads (req : ℕ → Request aw) (resp : ℕ → Response) (mem : ℕ → BitVec aw → BitVec 32) : Prop :=
  ∀ t, handshake (req t) (resp t) = true → (resp t).err = false →
    ∃ u, began req resp t ≤ u ∧ u ≤ t ∧ (resp t).datR = mem u (req t).adr

/-- An initiator that does not change the address or the direction of a request
while it stays asserted and unanswered; it may withdraw the request. -/
def Steady (req : ℕ → Request aw) (resp : ℕ → Response) : Prop :=
  ∀ t, pending (req t) (resp t) = true → (req (t + 1)).requesting = true →
    (req (t + 1)).adr = (req t).adr ∧ (req (t + 1)).we = (req t).we

/-- An initiator that repeats a request until it is answered. -/
def Holds (req : ℕ → Request aw) (resp : ℕ → Response) : Prop :=
  ∀ t, pending (req t) (resp t) = true → req (t + 1) = req t

/-- An initiator that repeats a write until it is answered. -/
def HoldsWrites (req : ℕ → Request aw) (resp : ℕ → Response) : Prop :=
  ∀ t, pending (req t) (resp t) = true → (req t).we = true → req (t + 1) = req t

theorem Holds.steady {req : ℕ → Request aw} {resp : ℕ → Response} (h : Holds req resp) :
    Steady req resp := fun t hp _ => by rw [h t hp]; exact ⟨rfl, rfl⟩

theorem Holds.holdsWrites {req : ℕ → Request aw} {resp : ℕ → Response} (h : Holds req resp) :
    HoldsWrites req resp := fun t hp _ => h t hp

theorem Steady.eq_of_asserted {req : ℕ → Request aw} {resp : ℕ → Response} (h : Steady req resp)
    {t u : ℕ} (htu : t ≤ u) (hreq : ∀ w, t ≤ w → w ≤ u → (req w).requesting = true)
    (hnone : ∀ w, t ≤ w → w < u → handshake (req w) (resp w) = false) :
    (req u).adr = (req t).adr ∧ (req u).we = (req t).we := by
  induction u, htu using Nat.le_induction with
  | base => exact ⟨rfl, rfl⟩
  | succ u htu ih =>
    have hu : (req u).requesting = true := hreq u htu (Nat.le_succ u)
    have hpend : pending (req u) (resp u) = true :=
      (handshake_or_pending hu).resolve_left (by simp [hnone u htu (Nat.lt_succ_self u)])
    obtain ⟨hadr, hwe⟩ := ih (fun w hw hwu => hreq w hw (Nat.le_succ_of_le hwu))
      fun w hw hwu => hnone w hw (Nat.lt_succ_of_lt hwu)
    obtain ⟨hadr', hwe'⟩ := h u hpend (hreq (u + 1) (by omega) le_rfl)
    exact ⟨hadr'.trans hadr, hwe'.trans hwe⟩

end Wishbone
