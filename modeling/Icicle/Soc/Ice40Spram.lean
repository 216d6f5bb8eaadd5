import Icicle.Library.Clocked
import Icicle.Library.SbSpram
import Icicle.Library.Wishbone

/-! The memory on a Wishbone bus that is built from four single-port blocks: two in depth
and two in width. -/
namespace Icicle
open Wishbone SbSpram Bytes

/-- The four blocks, by their place in depth and in width, and the register of `ack`. -/
structure Ice40Spram (m : Block) where
  blocks : Fin 2 → Fin 2 → m.State
  ack : Bool

namespace Ice40Spram

/-- `cs` of the blocks at depth `i`. -/
def cs (r : Request 15) (i : Fin 2) : Bool := decide ((r.adr.getLsbD 14).toNat = i)

/-- `i_WREN`, which is the same for all blocks. -/
def wrEn (ack : Bool) (r : Request 15) : Bool := r.cyc && r.stb && !ack && r.we

/-- The inputs of a block; the mask has two bits for each byte. -/
def blockIn (ack : Bool) (r : Request 15) (i j : Fin 2) : SbSpram.Inputs where
  address := r.adr.extractLsb' 0 14
  dataIn := r.datW.extractLsb' (16 * (j : ℕ)) 16
  maskWrEn :=
    let mask (k : ℕ) : BitVec 2 := (BitVec.ofBool (r.sel.getLsbD k)).signExtend 2
    mask ((j : ℕ) * 2 + 1) ++ mask ((j : ℕ) * 2)
  wrEn := wrEn ack r
  chipSelect := cs r i
  standby := false
  sleep := false
  powerOff := true

variable {m : Block}

/-- A half of `dat_r`; the assignment of a later block takes precedence. -/
def half (s : Ice40Spram m) (r : Request 15) (j : Fin 2) : BitVec 16 :=
  if cs r 1 then m.dataOut (s.blocks 1 j) else if cs r 0 then m.dataOut (s.blocks 0 j) else 0

def response (s : Ice40Spram m) (r : Request 15) : Response where
  ack := s.ack
  err := false
  datR := s.half r 1 ++ s.half r 0

def step (s : Ice40Spram m) (r : Request 15) : Ice40Spram m where
  blocks i j := m.step (s.blocks i j) (blockIn s.ack r i j)
  ack := r.cyc && r.stb && !s.ack

/-- The depth of the block that holds a word. -/
def depth (adr : BitVec 15) : Fin 2 := if adr.getLsbD 14 then 1 else 0

/-- The word at `adr` in the blocks. -/
def word (s : Ice40Spram m) (adr : BitVec 15) : BitVec 32 :=
  m.contents (s.blocks (depth adr) 1) (adr.extractLsb' 0 14) ++
    m.contents (s.blocks (depth adr) 0) (adr.extractLsb' 0 14)

theorem cs_iff {r : Request 15} {i : Fin 2} : cs r i = true ↔ i = depth r.adr := by
  unfold cs depth
  cases r.adr.getLsbD 14 <;> fin_cases i <;> simp

theorem half_eq (s : Ice40Spram m) (r : Request 15) (j : Fin 2) :
    s.half r j = m.dataOut (s.blocks (depth r.adr) j) := by
  unfold half
  by_cases h1 : cs r 1 = true
  · rw [if_pos h1, ← cs_iff.mp h1]
  · have h0 : cs r 0 = true := by
      rw [cs_iff] at h1 ⊢
      revert h1
      generalize depth r.adr = d
      fin_cases d <;> simp
    rw [if_neg h1, if_pos h0, ← cs_iff.mp h0]

theorem eq_of_depth {x y : BitVec 15} (hd : depth x = depth y)
    (ha : x.extractLsb' 0 14 = y.extractLsb' 0 14) : x = y := by
  have h14 : x.getLsbD 14 = y.getLsbD 14 := by
    unfold depth at hd
    revert hd
    cases x.getLsbD 14 <;> cases y.getLsbD 14 <;> simp
  apply BitVec.eq_of_getLsbD_eq
  intro i hi
  rcases Nat.lt_succ_iff_lt_or_eq.mp hi with hlt | rfl
  · have hbit := congrArg (fun z => z.getLsbD i) ha
    simpa [hlt] using hbit
  · exact h14

/-- Both bits of the mask for a byte are the bit of `sel`. -/
theorem maskWrEn_getLsbD (ack : Bool) (r : Request 15) (i j : Fin 2) {k : ℕ} (hk : k < 4) :
    (blockIn ack r i j).maskWrEn.getLsbD k = r.sel.getLsbD (j * 2 + k / 2) := by
  simp only [blockIn, BitVec.getLsbD_append]
  by_cases hlow : k < 2
  · rw [if_pos hlow, getLsbD_signExtend_ofBool _ hlow, show k / 2 = 0 by omega, Nat.add_zero]
  · rw [if_neg hlow, getLsbD_signExtend_ofBool _ (by omega), show k / 2 = 1 by omega]

/-- A cycle changes a byte of a block exactly if the block is written there. -/
theorem byte_contents_step (s : Ice40Spram m) (r : Request 15) (i j : Fin 2) (a : BitVec 14)
    {c : ℕ} (hc : c < 2) :
    byte (m.contents ((s.step r).blocks i j) a) c =
      if wrEn s.ack r = true ∧ i = depth r.adr ∧ a = r.adr.extractLsb' 0 14 ∧
          r.sel.getLsbD (j * 2 + c) = true then
        byte r.datW (j * 2 + c)
      else byte (m.contents (s.blocks i j) a) c := by
  have hactive : (blockIn s.ack r i j).active := ⟨rfl, rfl, rfl⟩
  have hstep : (s.step r).blocks i j = m.step (s.blocks i j) (blockIn s.ack r i j) := rfl
  rw [hstep]
  by_cases hcs : cs r i = true
  · cases hwr : wrEn s.ack r with
    | false =>
      rw [(m.read _ _ hactive hcs hwr).1, if_neg (by simp)]
    | true =>
      rw [m.write _ _ hactive hcs hwr]
      by_cases ha : a = r.adr.extractLsb' 0 14
      · have hmask : (blockIn s.ack r i j).maskWrEn.getLsbD (2 * c) =
            r.sel.getLsbD (j * 2 + c) := by
          rw [maskWrEn_getLsbD _ _ _ _ (by omega), Nat.mul_div_cancel_left c (by omega)]
        have hpair : (blockIn s.ack r i j).maskWrEn.getLsbD (2 * c + 1) =
            (blockIn s.ack r i j).maskWrEn.getLsbD (2 * c) := by
          rw [hmask, maskWrEn_getLsbD _ _ _ _ (by omega), show (2 * c + 1) / 2 = c by omega]
        have hdata : byte (blockIn s.ack r i j).dataIn c = byte r.datW (j * 2 + c) := by
          apply BitVec.eq_of_getLsbD_eq
          intro k hk
          rw [getLsbD_byte _ _ hk, getLsbD_byte _ _ hk]
          simp only [blockIn, BitVec.getLsbD_extractLsb']
          rw [decide_eq_true (by omega), Bool.true_and, show
            16 * (j : ℕ) + (8 * c + k) = 8 * ((j : ℕ) * 2 + c) + k by omega]
        have haddr : (blockIn s.ack r i j).address = a := ha.symm
        rw [haddr, Function.update_self, byte_mergeNibbles _ _ hc hpair, hmask, hdata]
        simp [cs_iff.mp hcs, ha]
      · rw [Function.update_of_ne (by exact ha), if_neg (by simp [ha])]
  · have hi : i ≠ depth r.adr := fun h => hcs (cs_iff.mpr h)
    rw [(m.hold _ _ hactive (eq_false_of_ne_true hcs)).1, if_neg (by simp [hi])]

/-- The bytes of a word are spread over two blocks. -/
theorem byte_word (s : Ice40Spram m) (adr : BitVec 15) (j : Fin 2) {c : ℕ} (hc : c < 2) :
    byte (s.word adr) (j * 2 + c) =
      byte (m.contents (s.blocks (depth adr) j) (adr.extractLsb' 0 14)) c := by
  unfold word
  fin_cases j
  · exact (byte_append_low _ _ (by simp; omega)).trans (by simp)
  · exact (byte_append_high (n := 2) _ _ rfl (by simp)).trans (by simp)

/-- A cycle changes a byte exactly if it is written. -/
theorem byte_word_step (s : Ice40Spram m) (r : Request 15) (adr : BitVec 15) {b : ℕ} (hb : b < 4) :
    byte ((s.step r).word adr) b =
      if wrEn s.ack r = true ∧ r.adr = adr ∧ r.sel.getLsbD b = true then byte r.datW b
      else byte (s.word adr) b := by
  obtain ⟨j, c, hc, rfl⟩ : ∃ (j : Fin 2) (c : ℕ), c < 2 ∧ b = j * 2 + c :=
    ⟨⟨b / 2, by omega⟩, b % 2, Nat.mod_lt b (by omega), by simp; omega⟩
  rw [byte_word _ _ _ hc, byte_word _ _ _ hc, byte_contents_step _ _ _ _ _ hc]
  have hiff : (depth adr = depth r.adr ∧ adr.extractLsb' 0 14 = r.adr.extractLsb' 0 14) ↔
      r.adr = adr := by
    constructor
    · rintro ⟨hd, ha⟩
      exact (eq_of_depth hd ha).symm
    · rintro rfl
      exact ⟨rfl, rfl⟩
  simp only [← hiff, and_assoc]

end Ice40Spram

/-- The memory, whose blocks start with any contents. -/
def spram {m : Block} (init : Fin 2 → Fin 2 → m.State) : Clocked (Request 15) (Ice40Spram m) where
  reset := ⟨init, false⟩
  step := Ice40Spram.step

section Run
variable {m : Block} (init : Fin 2 → Fin 2 → m.State) (inp : ℕ → Request 15)

/-- The state of the memory at the start of each cycle. -/
def spramAt (t : ℕ) : Ice40Spram m := (spram init).run inp t

/-- The answer in each cycle. -/
def spramResponse (t : ℕ) : Response := (spramAt init inp t).response (inp t)

/-- A cycle of a write request, which writes byte `b` of the word at `adr`. -/
structure WritesByte (t : ℕ) (adr : BitVec 15) (b : ℕ) : Prop where
  requesting : (inp t).requesting = true
  we : (inp t).we = true
  ack : (spramResponse init inp t).ack = false
  adr : (inp t).adr = adr
  sel : (inp t).sel.getLsbD b = true

variable {init inp}

theorem spramAt_succ (t : ℕ) : spramAt init inp (t + 1) = (spramAt init inp t).step (inp t) := rfl

theorem wrEn_iff {t : ℕ} : Ice40Spram.wrEn (spramAt init inp t).ack (inp t) = true ↔
    (inp t).requesting = true ∧ (inp t).we = true ∧ (spramResponse init inp t).ack = false := by
  simp only [Ice40Spram.wrEn, Request.requesting, spramResponse, Ice40Spram.response,
    Bool.and_eq_true, Bool.not_eq_true']
  tauto

/-- A request is acknowledged in the cycle after the one in which it was pending. -/
theorem spram_ack_succ (t : ℕ) :
    (spramResponse init inp (t + 1)).ack = pending (inp t) (spramResponse init inp t) := by
  simp [spramResponse, spramAt_succ, Ice40Spram.response, Ice40Spram.step, pending,
    Request.requesting, Response.answers]

/-- A cycle changes the bytes that it writes, and no others. -/
theorem spram_byte_succ (t : ℕ) (adr : BitVec 15) {b : ℕ} (hb : b < 4) :
    (WritesByte init inp t adr b →
      byte ((spramAt init inp (t + 1)).word adr) b = byte (inp t).datW b) ∧
    (¬ WritesByte init inp t adr b →
      byte ((spramAt init inp (t + 1)).word adr) b = byte ((spramAt init inp t).word adr) b) := by
  rw [spramAt_succ, Ice40Spram.byte_word_step _ _ _ hb]
  constructor
  · intro h
    exact if_pos ⟨wrEn_iff.mpr ⟨h.requesting, h.we, h.ack⟩, h.adr, h.sel⟩
  · intro h
    refine if_neg fun hc => h ?_
    obtain ⟨hwr, hadr, hsel⟩ := hc
    obtain ⟨hreq, hwe, hack⟩ := wrEn_iff.mp hwr
    exact ⟨hreq, hwe, hack, hadr, hsel⟩

/-- The blocks register the addressed word while a read is pending. -/
theorem datR_of_read {t : ℕ} (hwe : (inp t).we = false) (hadr : (inp (t + 1)).adr = (inp t).adr) :
    (spramResponse init inp (t + 1)).datR = (spramAt init inp t).word (inp t).adr := by
  have hhalf : ∀ j : Fin 2, (spramAt init inp (t + 1)).half (inp (t + 1)) j =
      m.contents ((spramAt init inp t).blocks (Ice40Spram.depth (inp t).adr) j)
        ((inp t).adr.extractLsb' 0 14) := by
    intro j
    rw [Ice40Spram.half_eq, hadr]
    have hread := m.read ((spramAt init inp t).blocks (Ice40Spram.depth (inp t).adr) j)
      (Ice40Spram.blockIn (spramAt init inp t).ack (inp t) (Ice40Spram.depth (inp t).adr) j)
      ⟨rfl, rfl, rfl⟩ (Ice40Spram.cs_iff.mpr rfl)
      (by simp [Ice40Spram.blockIn, Ice40Spram.wrEn, hwe])
    exact hread.2
  rw [spramResponse, Ice40Spram.response, hhalf, hhalf, Ice40Spram.word]

/-- An acknowledged read returns the word in the memory. -/
theorem datR_of_ack (hsteady : Steady inp (spramResponse init inp)) {t : ℕ}
    (hreq : (inp t).requesting = true) (hack : (spramResponse init inp t).ack = true)
    (hwe : (inp t).we = false) :
    (spramResponse init inp t).datR = (spramAt init inp t).word (inp t).adr := by
  cases t with
  | zero => cases hack
  | succ t =>
    rw [spram_ack_succ] at hack
    obtain ⟨hadr, hwe'⟩ := hsteady t hack hreq
    have hread : (inp t).we = false := hwe'.symm.trans hwe
    have hword : (spramAt init inp (t + 1)).word (inp t).adr =
        (spramAt init inp t).word (inp t).adr := by
      refine eq_of_byte (n := 4) (by omega) fun b hb => (spram_byte_succ t _ hb).2 fun h => ?_
      exact Bool.false_ne_true (hread.symm.trans h.we)
    rw [datR_of_read hread hadr, hadr, hword]

/-- A byte of the memory is the one that was written last, or is as it was at the start. -/
theorem spram_lastWrite (t : ℕ) (adr : BitVec 15) {b : ℕ} (hb : b < 4) :
    (∃ u < t, WritesByte init inp u adr b ∧
      (∀ v, u < v → v < t → ¬ WritesByte init inp v adr b) ∧
      byte ((spramAt init inp t).word adr) b = byte (inp u).datW b) ∨
    ((∀ u < t, ¬ WritesByte init inp u adr b) ∧
      byte ((spramAt init inp t).word adr) b = byte ((spram init).reset.word adr) b) :=
  Clocked.lastWrite (v := fun u => byte ((spramAt init inp u).word adr) b)
    (fun u => (spram_byte_succ u adr hb).1) (fun u => (spram_byte_succ u adr hb).2) t

/-- A request that begins in a cycle is pending in it. -/
theorem spram_pending_of_began {t : ℕ} (hbegan : began inp (spramResponse init inp) t = t)
    (hreq : (inp t).requesting = true) : pending (inp t) (spramResponse init inp t) = true := by
  have hack : (spramResponse init inp t).ack = false := by
    cases t with
    | zero => rfl
    | succ t =>
      rw [spram_ack_succ, ← Bool.not_eq_true]
      intro hp
      have hle := began_le inp (spramResponse init inp) t
      rw [began, if_pos hp] at hbegan
      omega
  have herr : (spramResponse init inp t).err = false := rfl
  simp [pending, Response.answers, hreq, hack, herr]

/-- No write follows another one in the same request. -/
theorem not_wrEn_of_began_eq {t u : ℕ} (htu : t < u)
    (ht : Ice40Spram.wrEn (spramAt init inp t).ack (inp t) = true)
    (hbegan : began inp (spramResponse init inp) t = began inp (spramResponse init inp) u) :
    Ice40Spram.wrEn (spramAt init inp u).ack (inp u) = false := by
  obtain ⟨hreq, -, hack⟩ := wrEn_iff.mp ht
  have hpend : ∀ v, t ≤ v → v < u → pending (inp v) (spramResponse init inp v) = true :=
    fun v hv => pending_of_began_le _ _ (by have := began_le inp (spramResponse init inp) t; omega)
  have hack' : (spramResponse init inp (t + 1)).ack = true :=
    (spram_ack_succ t).trans (hpend t le_rfl htu)
  rcases Nat.lt_or_eq_of_le (Nat.succ_le_of_lt htu) with hlt | rfl
  · have hna := pending_not_answers (hpend (t + 1) (Nat.le_succ t) hlt)
    simp [Response.answers, hack'] at hna
  · rw [← Bool.not_eq_true, wrEn_iff]
    rintro ⟨-, -, hna⟩
    exact Bool.false_ne_true (hna.symm.trans hack')

/-- In every run in which the initiator does not change the address or the direction of a
request that it keeps asserted, an acknowledged read returns in each byte what was written
there last. A request that is kept for two cycles is acknowledged in the second; it writes
at most once, and only the bytes that it selects. -/
theorem spram_reads_lastWrite (hsteady : Steady inp (spramResponse init inp)) :
    (∀ t, (inp t).requesting = true → (spramResponse init inp t).ack = true →
      (inp t).we = false → ∀ b < 4,
        (∃ u < t, WritesByte init inp u (inp t).adr b ∧
          (∀ v, u < v → v < t → ¬ WritesByte init inp v (inp t).adr b) ∧
          byte (spramResponse init inp t).datR b = byte (inp u).datW b) ∨
        ((∀ u < t, ¬ WritesByte init inp u (inp t).adr b) ∧
          byte (spramResponse init inp t).datR b =
            byte ((spram init).reset.word (inp t).adr) b)) ∧
    (∀ t, began inp (spramResponse init inp) t = t → (inp t).requesting = true →
      (inp (t + 1)).requesting = true → (spramResponse init inp t).ack = false ∧
        (spramResponse init inp (t + 1)).ack = true) ∧
    (∀ t u, Ice40Spram.wrEn (spramAt init inp t).ack (inp t) = true →
      Ice40Spram.wrEn (spramAt init inp u).ack (inp u) = true →
      began inp (spramResponse init inp) t = began inp (spramResponse init inp) u → t = u) ∧
    (∀ t adr, ∀ b < 4,
      (WritesByte init inp t adr b →
        byte ((spramAt init inp (t + 1)).word adr) b = byte (inp t).datW b) ∧
      (¬ WritesByte init inp t adr b →
        byte ((spramAt init inp (t + 1)).word adr) b =
          byte ((spramAt init inp t).word adr) b)) := by
  refine ⟨fun t hreq hack hwe b hb => ?_, fun t hbegan hreq _ => ?_, fun t u ht hu hbegan => ?_,
    fun t adr b hb => spram_byte_succ t adr hb⟩
  · rw [datR_of_ack hsteady hreq hack hwe]
    exact spram_lastWrite t _ hb
  · have hpend := spram_pending_of_began hbegan hreq
    constructor
    · have hna := pending_not_answers hpend
      simp only [Response.answers, Bool.or_eq_false_iff] at hna
      exact hna.1
    · exact (spram_ack_succ t).trans hpend
  · rcases Nat.lt_trichotomy t u with hlt | heq | hgt
    · exact absurd hu (by simp [not_wrEn_of_began_eq hlt ht hbegan])
    · exact heq
    · exact absurd ht (by simp [not_wrEn_of_began_eq hgt hu hbegan.symm])

/-- Byte 1 of the last word is written, and the word is read. -/
def writeThenRead (t : ℕ) : Request 15 where
  adr := 0x7fff
  datW := 0xddccbbaa
  sel := 0b0010
  cyc := decide (t < 4)
  stb := true
  we := decide (t < 2)

theorem writeThenRead_reads :
    byte (spramResponse (m := Block.ideal) (fun _ _ => (fun _ => 0, 0)) writeThenRead 3).datR 1 =
      0xbb := by
  have hsteady : Steady writeThenRead
      (spramResponse (m := Block.ideal) (fun _ _ => (fun _ => 0, 0)) writeThenRead) := by
    intro t hp hreq
    have ht : t + 1 < 4 := by simpa [writeThenRead, Request.requesting] using hreq
    replace ht : t < 3 := by omega
    interval_cases t
    · exact ⟨rfl, rfl⟩
    · cases hp
    · exact ⟨rfl, rfl⟩
  rcases (spram_reads_lastWrite hsteady).1 3 rfl rfl rfl 1 (by decide) with ⟨u, hu, hw, -, hdat⟩ | h
  · have hbyte : byte 0xddccbbaa#32 1 = 0xbb := by decide
    exact hdat.trans hbyte
  · exact absurd ⟨rfl, rfl, rfl, rfl, rfl⟩ (h.1 0 (by decide))

/-- The blocks hold what has been written up to and in the present cycle: a write is done
when it is acknowledged. -/
theorem spram_word (hsteady : Steady inp (spramResponse init inp))
    (hholds : HoldsWrites inp (spramResponse init inp)) (t : ℕ) :
    (spramAt init inp t).word =
      contents inp (spramResponse init inp) (spram init).reset.word (t + 1) := by
  induction t with
  | zero =>
    have hquiet : stores (inp 0) (spramResponse init inp 0) = false := by
      simp [stores, handshake, Response.answers, spramResponse, Ice40Spram.response, spramAt,
        Clocked.run, spram]
    rw [contents, update_of_not_stores hquiet]
    rfl
  | succ t ih =>
    rw [contents, ← ih]
    have hbyte : ∀ adr, ∀ b < 4,
        (WritesByte init inp t adr b →
          byte ((spramAt init inp (t + 1)).word adr) b = byte (inp t).datW b) ∧
        (¬ WritesByte init inp t adr b →
          byte ((spramAt init inp (t + 1)).word adr) b =
            byte ((spramAt init inp t).word adr) b) := fun adr b hb => spram_byte_succ t adr hb
    have hsame : (∀ adr b, ¬ WritesByte init inp t adr b) →
        (spramAt init inp (t + 1)).word = (spramAt init inp t).word := fun hnone =>
      funext fun adr => eq_of_byte (n := 4) (by omega) fun b hb =>
        (hbyte adr b hb).2 (hnone adr b)
    cases hp : pending (inp t) (spramResponse init inp t) with
    | false =>
      have hack : (spramResponse init inp (t + 1)).ack = false := (spram_ack_succ t).trans hp
      have hquiet : stores (inp (t + 1)) (spramResponse init inp (t + 1)) = false := by
        have herr : (spramResponse init inp (t + 1)).err = false := rfl
        simp [stores, handshake, Response.answers, hack, herr]
      rw [update_of_not_stores hquiet]
      refine hsame fun adr b h => ?_
      have herr : (spramResponse init inp t).err = false := rfl
      simp [pending, Response.answers, h.requesting, h.ack, herr] at hp
    | true =>
      cases hwe : (inp t).we with
      | false =>
        have hquiet : stores (inp (t + 1)) (spramResponse init inp (t + 1)) = false := by
          cases hr : (inp (t + 1)).requesting with
          | false => simp [stores, handshake, hr]
          | true => simp [stores, (hsteady t hp hr).2, hwe]
        rw [update_of_not_stores hquiet]
        refine hsame fun adr b h => ?_
        rw [h.we] at hwe
        cases hwe
      | true =>
        have hreq := pending_requesting hp
        have hack := (Bool.or_eq_false_iff.mp (pending_not_answers hp)).1
        have hack' : (spramResponse init inp (t + 1)).ack = true := (spram_ack_succ t).trans hp
        have hstores : stores (inp t) (spramResponse init inp (t + 1)) = true := by
          have herr : (spramResponse init inp (t + 1)).err = false := rfl
          simp [stores, handshake, Response.answers, hreq, hack', hwe, herr]
        rw [hholds t hp hwe, update, if_pos hstores]
        funext adr
        refine eq_of_byte (n := 4) (by omega) fun b hb => ?_
        obtain ⟨hwritten, hkept⟩ := hbyte adr b hb
        by_cases hadr : adr = (inp t).adr
        · subst hadr
          rw [Function.update_self, byte_mergeLanes _ _ _ hb]
          split_ifs with hsel
          · exact hwritten ⟨hreq, hwe, hack, rfl, hsel⟩
          · exact hkept fun h => hsel h.sel
        · rw [Function.update_of_ne hadr]
          exact hkept fun h => hadr h.adr.symm

/-- An acknowledged read returns the contents of the memory. -/
theorem spram_reads (hsteady : Steady inp (spramResponse init inp))
    (hholds : HoldsWrites inp (spramResponse init inp)) {t : ℕ}
    (hhand : handshake (inp t) (spramResponse init inp t) = true) (hwe : (inp t).we = false) :
    (spramResponse init inp t).datR =
      contents inp (spramResponse init inp) (spram init).reset.word t (inp t).adr := by
  obtain ⟨hreq, hans⟩ := Bool.and_eq_true_iff.mp hhand
  have hack : (spramResponse init inp t).ack = true := by
    have herr : (spramResponse init inp t).err = false := rfl
    simpa [Response.answers, herr] using hans
  have hquiet : stores (inp t) (spramResponse init inp t) = false := by simp [stores, hwe]
  rw [datR_of_ack hsteady hreq hack hwe, spram_word hsteady hholds, contents,
    update_of_not_stores hquiet]

end Run
end Icicle
