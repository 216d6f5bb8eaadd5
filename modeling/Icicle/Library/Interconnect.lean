import Icicle.Library.Wishbone

/-! A Wishbone bus that several initiators share and on which several targets sit: the
arbiter and the address decoder, as far as their users rely on them. -/
namespace Wishbone

variable {aw : ℕ}

/-- An arbiter with its documented behaviour: the initiator that owns the bus keeps it while
it asserts its cycle, and an idle owner makes way for one that asserts its own. -/
structure Arbiter (ι : Type*) where
  State : Type
  reset : State
  grant : State → ι
  step : State → (ι → Bool) → State
  keeps : ∀ s cyc, cyc (grant s) = true → grant (step s cyc) = grant s
  yields : ∀ s (cyc : ι → Bool) i, cyc (grant s) = false → cyc i = true →
    cyc (grant (step s cyc)) = true

/-- What an initiator hears of an answer: an acknowledgement reaches the owner only. -/
def answerTo {ι : Type*} [DecidableEq ι] (grant : ι) (p : Response) (i : ι) : Response :=
  if i = grant then p else ⟨false, false, p.datR⟩

section Shared
variable {ι : Type*} {grant : ℕ → ι} {req : ℕ → ι → Request aw} {resp : ℕ → Response}

/-- The owner keeps the bus while it asserts its cycle. -/
def Keeps (grant : ℕ → ι) (req : ℕ → ι → Request aw) : Prop :=
  ∀ t, (req t (grant t)).cyc = true → grant (t + 1) = grant t

theorem Keeps.of_pending (h : Keeps grant req) {t : ℕ}
    (hp : pending (req t (grant t)) (resp t) = true) : grant (t + 1) = grant t :=
  h t (Bool.and_eq_true_iff.mp (pending_requesting hp)).1

variable [DecidableEq ι]

@[simp] theorem answerTo_self (i : ι) (p : Response) : answerTo i p i = p := if_pos rfl

theorem answers_answerTo {g i : ι} {p : Response} (h : (answerTo g p i).answers = true) :
    i = g := by
  by_contra hne
  rw [answerTo, if_neg hne] at h
  cases h

/-- Only the owner completes a request. -/
theorem handshake_answerTo {g i : ι} {r : Request aw} {p : Response}
    (h : handshake r (answerTo g p i) = true) : i = g ∧ handshake r p = true := by
  obtain rfl : i = g := answers_answerTo (Bool.and_eq_true_iff.mp h).2
  rw [answerTo_self] at h
  exact ⟨rfl, h⟩

/-- Steady initiators make a steady bus. -/
theorem Keeps.steady (h : Keeps grant req)
    (hs : ∀ i, Steady (fun t => req t i) fun t => answerTo (grant t) (resp t) i) :
    Steady (fun t => req t (grant t)) resp := by
  intro t hp hr
  have hg : grant (t + 1) = grant t := h.of_pending hp
  dsimp only at hr ⊢
  rw [hg] at hr ⊢
  exact hs (grant t) t (by dsimp only; rwa [answerTo_self]) hr

theorem Keeps.holdsWrites (h : Keeps grant req)
    (hs : ∀ i, HoldsWrites (fun t => req t i) fun t => answerTo (grant t) (resp t) i) :
    HoldsWrites (fun t => req t (grant t)) resp := by
  intro t hp hwe
  have hg : grant (t + 1) = grant t := h.of_pending hp
  dsimp only at hwe ⊢
  rw [hg]
  exact hs (grant t) t (by dsimp only; rwa [answerTo_self]) hwe

end Shared

/-- The words from `base` on that a target answers, as many as it has addresses. -/
structure Window (aw : ℕ) where
  width : ℕ
  base : BitVec aw

namespace Window
variable (w : Window aw)

/-- The address and the base agree above the low bits. -/
def contains (adr : BitVec aw) : Bool := adr >>> w.width == w.base >>> w.width

/-- The address inside the target. -/
def offset (adr : BitVec aw) : BitVec w.width := adr.setWidth w.width

/-- The address at which a word of the target is found. -/
def address (o : BitVec w.width) : BitVec aw :=
  (w.base >>> w.width) <<< w.width ||| o.setWidth aw

theorem getLsbD_of_contains {adr : BitVec aw} (h : w.contains adr = true) {i : ℕ}
    (hi : w.width ≤ i) : adr.getLsbD i = w.base.getLsbD i := by
  have hbit := congrArg (fun x => x.getLsbD (i - w.width)) (beq_iff_eq.mp h)
  simpa [BitVec.getLsbD_ushiftRight, Nat.add_sub_of_le hi] using hbit

theorem getLsbD_address (o : BitVec w.width) {i : ℕ} (hi : i < aw) : (w.address o).getLsbD i =
    if i < w.width then o.getLsbD i else w.base.getLsbD i := by
  simp only [address, BitVec.getLsbD_or, BitVec.getLsbD_shiftLeft, BitVec.getLsbD_ushiftRight,
    BitVec.getLsbD_setWidth, hi, decide_true, Bool.true_and]
  split
  next h => simp [h]
  next h =>
    rw [Nat.add_sub_of_le (Nat.not_lt.mp h), BitVec.getLsbD_of_ge o i (Nat.not_lt.mp h)]
    simp [h]

/-- Inside the window an address is its offset. -/
theorem address_offset {adr : BitVec aw} (h : w.contains adr = true) :
    w.address (w.offset adr) = adr := by
  apply BitVec.eq_of_getLsbD_eq
  intro i hi
  rw [w.getLsbD_address _ hi, offset, BitVec.getLsbD_setWidth]
  split
  next hlt => simp [hlt]
  next hge => exact (w.getLsbD_of_contains h (Nat.not_lt.mp hge)).symm

theorem contains_address (o : BitVec w.width) : w.contains (w.address o) = true := by
  refine beq_iff_eq.mpr (BitVec.eq_of_getLsbD_eq fun i hi => ?_)
  rw [BitVec.getLsbD_ushiftRight, BitVec.getLsbD_ushiftRight]
  by_cases hlt : w.width + i < aw
  · rw [w.getLsbD_address _ hlt, if_neg (by omega)]
  · rw [BitVec.getLsbD_of_ge _ _ (Nat.not_lt.mp hlt), BitVec.getLsbD_of_ge _ _ (Nat.not_lt.mp hlt)]

theorem offset_address (hw : w.width ≤ aw) (o : BitVec w.width) : w.offset (w.address o) = o := by
  apply BitVec.eq_of_getLsbD_eq
  intro i hi
  rw [offset, BitVec.getLsbD_setWidth, w.getLsbD_address _ (by omega), if_pos hi]
  simp [hi]

theorem offset_inj {x y : BitVec aw} (hx : w.contains x = true) (hy : w.contains y = true)
    (h : w.offset x = w.offset y) : x = y := by
  rw [← w.address_offset hx, h, w.address_offset hy]

end Window

/-- A request as a target with fewer addresses sees it. -/
def Request.within (r : Request aw) (w : Window aw) : Request w.width :=
  { r with adr := w.offset r.adr }

/-- A bridge to another bus with its documented behaviour: it acknowledges a request in the
cycle after one in which the request waits. What it is connected to is among its inputs. -/
structure Bridge (aw : ℕ) where
  State : Type
  In : Type
  reset : State
  ack : State → Bool
  datR : State → BitVec 32
  step : State → Request aw → In → State
  ack_reset : ack reset = false
  ack_step : ∀ s r i, ack (step s r i) = true → r.requesting = true ∧ ack s = false

/-- An address decoder with its documented behaviour. The windows are apart. The target in
whose window an address lies sees the request and gives the word that is read; the others
see no cycle. An acknowledgement or an error is passed on, whichever target gives it. -/
structure Decoder {κ : Type*} (window : κ → Window aw) where
  request : Request aw → (k : κ) → Request (window k).width
  answer : Request aw → (κ → Response) → Response
  apart : ∀ {k l adr}, (window k).contains adr = true → (window l).contains adr = true → k = l
  inside : ∀ r k, (window k).contains r.adr = true → request r k = r.within (window k)
  outside : ∀ r k, (window k).contains r.adr = false → (request r k).cyc = false
  ack : ∀ r p, (answer r p).ack = true ↔ ∃ k, (p k).ack = true
  err : ∀ r p, (answer r p).err = true ↔ ∃ k, (p k).err = true
  datR : ∀ r p k, (window k).contains r.adr = true → (answer r p).datR = (p k).datR

/-- While there is a request, no target answers but the one that it is for. -/
def Quiet {κ : Type*} (window : κ → Window aw) (r : Request aw) (p : κ → Response) : Prop :=
  r.requesting = true → ∀ k, (p k).answers = true → (window k).contains r.adr = true

namespace Decoder
variable {κ : Type*} {window : κ → Window aw} (d : Decoder window)

theorem contains_of_requesting {r : Request aw} {k : κ} (h : (d.request r k).requesting = true) :
    (window k).contains r.adr = true := by
  by_contra hc
  simp [Request.requesting, d.outside r k (eq_false_of_ne_true hc)] at h

theorem answers_iff (r : Request aw) (p : κ → Response) :
    (d.answer r p).answers = true ↔ ∃ k, (p k).answers = true := by
  simp only [Response.answers, Bool.or_eq_true, d.ack, d.err, exists_or]

section Quiet
variable {r : Request aw} {p : κ → Response} {k : κ}

include d in
/-- If any target answers a request, it is the one that the request is for. -/
theorem exists_iff (hq : Quiet window r p) (hr : r.requesting = true)
    (hc : (window k).contains r.adr = true) {line : Response → Bool}
    (hline : ∀ x, line x = true → x.answers = true) :
    (∃ l, line (p l) = true) ↔ line (p k) = true := by
  refine ⟨?_, fun h => ⟨k, h⟩⟩
  rintro ⟨l, hl⟩
  obtain rfl : l = k := d.apart (hq hr l (hline _ hl)) hc
  exact hl

/-- The answer to a request is that of its target. -/
theorem answer_eq (hq : Quiet window r p) (hr : r.requesting = true)
    (hc : (window k).contains r.adr = true) : d.answer r p = p k := by
  have hack : (d.answer r p).ack = (p k).ack := by
    rw [Bool.eq_iff_iff, d.ack]
    exact d.exists_iff hq hr hc fun _ h => Bool.or_eq_true_iff.mpr (.inl h)
  have herr : (d.answer r p).err = (p k).err := by
    rw [Bool.eq_iff_iff, d.err]
    exact d.exists_iff hq hr hc fun _ h => Bool.or_eq_true_iff.mpr (.inr h)
  calc d.answer r p
      = ⟨(d.answer r p).ack, (d.answer r p).err, (d.answer r p).datR⟩ := rfl
    _ = p k := by rw [hack, herr, d.datR r p k hc]

/-- What a target sees is what is on the bus. -/
theorem handshake_iff (hq : Quiet window r p) :
    handshake (d.request r k) (p k) = true ↔
      (window k).contains r.adr = true ∧ handshake r (d.answer r p) = true := by
  constructor
  · intro h
    obtain ⟨hr, hans⟩ := Bool.and_eq_true_iff.mp h
    have hc := d.contains_of_requesting hr
    rw [d.inside r k hc] at hr
    exact ⟨hc, Bool.and_eq_true_iff.mpr ⟨hr, (d.answers_iff r p).mpr ⟨k, hans⟩⟩⟩
  · rintro ⟨hc, h⟩
    rw [d.answer_eq hq (Bool.and_eq_true_iff.mp h).1 hc] at h
    rwa [d.inside r k hc]

theorem pending_iff (hq : Quiet window r p) :
    pending (d.request r k) (p k) = true ↔
      (window k).contains r.adr = true ∧ pending r (d.answer r p) = true := by
  constructor
  · intro h
    have hc := d.contains_of_requesting (pending_requesting h)
    rw [d.inside r k hc] at h
    have hr : r.requesting = true := pending_requesting h
    exact ⟨hc, by rwa [d.answer_eq hq hr hc]⟩
  · rintro ⟨hc, h⟩
    rw [d.answer_eq hq (pending_requesting h) hc] at h
    rwa [d.inside r k hc]

/-- A cycle changes a target as it changes the memory behind the whole bus. -/
theorem update_eq (hq : Quiet window r p) {mem : BitVec aw → BitVec 32}
    {target : BitVec (window k).width → BitVec 32}
    (h : ∀ adr, (window k).contains adr = true → mem adr = target ((window k).offset adr))
    {adr : BitVec aw} (hc : (window k).contains adr = true) :
    update mem r (d.answer r p) adr =
      update target (d.request r k) (p k) ((window k).offset adr) := by
  by_cases hk : (window k).contains r.adr = true
  · have hstores : stores (d.request r k) (p k) = stores r (d.answer r p) := by
      rw [d.inside r k hk]
      cases hr : r.requesting with
      | true =>
        rw [d.answer_eq hq hr hk]
        rfl
      | false =>
        have hw : (r.within (window k)).requesting = false := hr
        simp [stores, handshake, hr, hw]
    unfold update
    rw [hstores, d.inside r k hk]
    split_ifs
    · by_cases ha : adr = r.adr
      · subst ha
        simp [Request.within, h _ hk]
      · have ho : (window k).offset adr ≠ (window k).offset r.adr :=
          fun ho => ha ((window k).offset_inj hc hk ho)
        rw [Function.update_of_ne ha, h adr hc]
        exact (Function.update_of_ne ho _ _).symm
    · exact h adr hc
  · have hidle : stores (d.request r k) (p k) = false := by
      simp [stores, handshake, Request.requesting, d.outside r k (eq_false_of_ne_true hk)]
    have hne : adr ≠ r.adr := fun he => hk (he ▸ hc)
    rw [update_of_not_stores hidle, ← h adr hc]
    unfold update
    split_ifs
    · exact Function.update_of_ne hne _ _
    · rfl

end Quiet

section Run
variable {req : ℕ → Request aw} {resp : ℕ → κ → Response}

/-- Behind a steady bus the targets are quiet, if each of them answers only in the cycle
after one in which its own request waits: such a request is still there, or withdrawn. -/
theorem quiet (hs : Steady req fun t => d.answer (req t) (resp t))
    (h0 : ∀ k, (resp 0 k).answers = false)
    (hbehind : ∀ t k, (resp (t + 1) k).answers = true →
      pending (d.request (req t) k) (resp t k) = true) (t : ℕ) :
    Quiet window (req t) (resp t) := by
  induction t with
  | zero =>
    intro _ k hk
    rw [h0 k] at hk
    cases hk
  | succ t ih =>
    intro hr k hk
    obtain ⟨hc, hp⟩ := (d.pending_iff ih).mp (hbehind t k hk)
    rw [(hs t hp hr).1]
    exact hc

/-- A target on a steady bus sees steady requests. -/
theorem steady (hq : ∀ t, Quiet window (req t) (resp t))
    (h : Steady req fun t => d.answer (req t) (resp t)) (k : κ) :
    Steady (fun t => d.request (req t) k) fun t => resp t k := by
  intro t hp hr
  obtain ⟨hc, hp'⟩ := (d.pending_iff (hq t)).mp hp
  have hc' := d.contains_of_requesting hr
  dsimp only at hr ⊢
  rw [d.inside _ _ hc'] at hr
  obtain ⟨hadr, hwe⟩ := h t hp' hr
  rw [d.inside _ _ hc, d.inside _ _ hc']
  exact ⟨congrArg (window k).offset hadr, hwe⟩

theorem holdsWrites (hq : ∀ t, Quiet window (req t) (resp t))
    (h : HoldsWrites req fun t => d.answer (req t) (resp t)) (k : κ) :
    HoldsWrites (fun t => d.request (req t) k) fun t => resp t k := by
  intro t hp hwe
  obtain ⟨hc, hp'⟩ := (d.pending_iff (hq t)).mp hp
  dsimp only at hwe ⊢
  rw [d.inside _ _ hc] at hwe
  rw [h t hp' hwe]

end Run

end Decoder
end Wishbone
