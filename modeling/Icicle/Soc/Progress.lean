import Icicle.Core.Liveness
import Icicle.Soc.SystemOnChip

/-! The system on chip does not stop: the flash and the RAM answer, and fetch and memory
access do not keep the bus from each other. -/
namespace Icicle
open Wishbone Clocked

namespace Flash
variable {aw timerWidth : ℕ} {f : Flash} {r : Request aw} {i1 : Bool}

/-- The cycles until the answer to a request that stays asserted. -/
def remaining (timerWidth : ℕ) (f : Flash) : ℕ :=
  match f.fsm with
  | .start => 2 ^ timerWidth + 76
  | .powerUpFirst => 2 ^ timerWidth + 75
  | .powerUp => 2 ^ timerWidth + 67 + f.n
  | .waitForPowerUp => 67 + f.powerUpTimer
  | .idle => 66
  | .command => 34 + f.n
  | .dataFirst => 2 + f.n
  | .data => 1 + f.n

/-- The counters are in range. -/
structure InRange (timerWidth : ℕ) (f : Flash) : Prop where
  n : f.n ≤ 31
  powerUp : f.fsm = .powerUp → f.n ≤ 7
  timer : f.powerUpTimer < 2 ^ timerWidth

theorem remaining_pos (timerWidth : ℕ) (f : Flash) : 0 < f.remaining timerWidth := by
  have hpos := Nat.one_le_two_pow (n := timerWidth)
  unfold remaining
  split <;> omega

theorem InRange.remaining_le (h : InRange timerWidth f) :
    f.remaining timerWidth ≤ 2 ^ timerWidth + 76 := by
  obtain ⟨hn, hp, ht⟩ := h
  have hpos := Nat.one_le_two_pow (n := timerWidth)
  unfold remaining
  split
  case h_3 hf =>
    have := hp hf
    omega
  all_goals omega

theorem InRange.step (h : InRange timerWidth f) : InRange timerWidth (f.step timerWidth r i1) := by
  obtain ⟨hn, hp, ht⟩ := h
  have hpos := Nat.one_le_two_pow (n := timerWidth)
  unfold Flash.step
  cases hf : f.fsm with
  | start => exact ⟨hn, nofun, ht⟩
  | powerUpFirst => exact ⟨show 7 ≤ 31 by omega, fun _ => le_rfl, ht⟩
  | powerUp =>
    have hseven := hp hf
    dsimp only
    split_ifs
    · exact ⟨by dsimp only; omega, fun _ => by dsimp only; omega, ht⟩
    · exact ⟨hn, nofun, by dsimp only; omega⟩
  | waitForPowerUp =>
    dsimp only
    split_ifs
    · exact ⟨hn, nofun, by dsimp only; omega⟩
    · exact ⟨hn, nofun, ht⟩
  | idle =>
    dsimp only
    split_ifs
    · exact ⟨hn, nofun, ht⟩
    · exact ⟨le_rfl, nofun, ht⟩
    · exact ⟨hn, nofun, ht⟩
  | command =>
    dsimp only
    split_ifs
    · exact ⟨by dsimp only; omega, nofun, ht⟩
    · exact ⟨le_rfl, nofun, ht⟩
    · exact ⟨hn, nofun, ht⟩
  | dataFirst =>
    dsimp only
    split_ifs <;> exact ⟨hn, nofun, ht⟩
  | data =>
    dsimp only
    split_ifs
    · exact ⟨by dsimp only; omega, nofun, ht⟩
    · exact ⟨hn, nofun, ht⟩
    · exact ⟨hn, nofun, ht⟩

/-- While a request stays asserted, the answer comes closer with every cycle. -/
theorem remaining_step (hr : r.requesting = true) (hq : (f.ack || f.err) = false) :
    ((f.step timerWidth r i1).ack || (f.step timerWidth r i1).err) = true ∨
      (f.step timerWidth r i1).remaining timerWidth < f.remaining timerWidth := by
  have hpos := Nat.one_le_two_pow (n := timerWidth)
  have htakes : f.takes r = true := by simp [takes, hr, hq]
  unfold remaining Flash.step
  cases hf : f.fsm with
  | start => exact .inr (Nat.lt_succ_self _)
  | powerUpFirst => exact .inr (Nat.lt_succ_self _)
  | powerUp =>
    right
    dsimp only
    split_ifs <;> dsimp only <;> omega
  | waitForPowerUp =>
    right
    dsimp only
    split_ifs <;> dsimp only <;> omega
  | idle =>
    dsimp only
    rw [if_pos htakes]
    split_ifs
    · exact .inl (Bool.or_true _)
    · exact .inr (Nat.lt_succ_self _)
  | command =>
    right
    dsimp only
    rw [if_pos hr]
    split_ifs <;> dsimp only <;> omega
  | dataFirst =>
    right
    dsimp only
    rw [if_pos hr]
    dsimp only
    omega
  | data =>
    dsimp only
    rw [if_pos hr]
    split_ifs
    · right
      dsimp only
      omega
    · exact .inl rfl

end Flash

section Board
variable {aw : ℕ} {s : BoardSetup} {inp : ℕ → BoardIn aw}

variable (s inp) in
theorem flashAt_inRange (t : ℕ) :
    (boardAt s inp t).flash.InRange (Flash.timerWidth s.clkFrequency) := by
  induction t with
  | zero => exact ⟨Nat.zero_le _, nofun, Nat.two_pow_pos _⟩
  | succ t ih => exact ih.step

end Board

theorem flash_remaining {s : BoardSetup} {inp : ℕ → BoardIn 22} {t : ℕ}
    (hr : (inp t).bus.requesting = true) (hq : (responseAt s inp t).answers = false) :
    (responseAt s inp (t + 1)).answers = true ∨
      (boardAt s inp (t + 1)).flash.remaining (Flash.timerWidth s.clkFrequency) <
        (boardAt s inp t).flash.remaining (Flash.timerWidth s.clkFrequency) :=
  Flash.remaining_step hr hq

/-- While a data request waits, fetch asks for nothing. -/
theorem ibus_idle {cfg : Config} {bus : ℕ → CpuIn} {t : ℕ}
    (h : pending (dbusAt cfg bus t) (bus t).dbus = true) : (ibusAt cfg bus t).cyc = false := by
  have hstall : ((stateAt cfg bus t).decodeStage (bus t)).stall = true := by
    rw [Cpu.decodeStage_stall, Cpu.redirect_of_pending h]
    simp [show pending (stateAt cfg bus t).dbus (bus t).dbus = true from h]
  simp [ibusAt, Cpu.ibus, Cpu.fetchLoadStore, Fetch.loadStore, LoadStore.bus, hstall]

theorem dbus_cyc (cfg : Config) (bus : ℕ → CpuIn) (t : ℕ) :
    (dbusAt cfg bus t).requesting = (dbusAt cfg bus t).cyc := Bool.and_self _

section Run
variable (p : SocParts) (inp : ℕ → SocIn p)

/-- A request for an address that is neither in the flash nor in the RAM. -/
def Elsewhere (t : ℕ) : Prop :=
  (busAt p inp t).requesting = true ∧ (window .flash).contains (busAt p inp t).adr = false ∧
    (window .ram).contains (busAt p inp t).adr = false

/-- Whether an initiator waits for an answer. -/
def waits (k : Initiator) (t : ℕ) : Bool :=
  pending (requestAt p inp t k) (answerTo (grantAt p inp t) (respondAt p inp t) k)

/-- The cycles until the owner of the bus is answered. -/
def untilAnswer (k : Initiator) (t : ℕ) : ℕ :=
  if waits p inp k t then
    if (window .ram).contains (busAt p inp t).adr then 1
    else (socAt p inp t).board.flash.remaining (Flash.timerWidth p.board.clkFrequency)
  else 0

/-- The cycles in which a request to the flash or the RAM is answered, if the flash is still
in its power-up sequence. -/
def answerTime : ℕ := 2 ^ Flash.timerWidth p.board.clkFrequency + 76

variable {p inp}

theorem waits_of_grant {k : Initiator} {t : ℕ} (hg : grantAt p inp t = k) :
    waits p inp k t = pending (busAt p inp t) (respondAt p inp t) := by
  subst hg
  rw [waits, answerTo_self]
  rfl

theorem untilAnswer_le (k : Initiator) (t : ℕ) : untilAnswer p inp k t ≤ answerTime p := by
  have hflash := (flashAt_inRange p.board (flashIn p inp) t).remaining_le
  have hpos := Nat.one_le_two_pow (n := Flash.timerWidth p.board.clkFrequency)
  rw [← socAt_board] at hflash
  unfold untilAnswer answerTime
  split_ifs <;> omega

/-- An answer on the bus comes after a cycle in which the bus waits. -/
theorem bus_pending_of_answers {t : ℕ} (h : (respondAt p inp (t + 1)).answers = true) :
    pending (busAt p inp t) (respondAt p inp t) = true := by
  obtain ⟨k, hk⟩ := (p.decoder.answers_iff _ _).mp h
  exact ((p.decoder.pending_iff (targets_quiet p inp t)).mp (target_pending t k hk)).2

/-- The answer to the owner of the bus comes closer with every cycle. -/
theorem untilAnswer_succ {k : Initiator} {t : ℕ} (hg : grantAt p inp t = k)
    (hw : waits p inp k t = true) (hhere : ¬ Elsewhere p inp t) :
    grantAt p inp (t + 1) = k ∧ untilAnswer p inp k (t + 1) < untilAnswer p inp k t := by
  have hpend := (waits_of_grant hg).symm.trans hw
  have hkeep : grantAt p inp (t + 1) = k := (bus_keeps.of_pending hpend).trans hg
  refine ⟨hkeep, ?_⟩
  have hpos : 0 < untilAnswer p inp k t := by
    rw [untilAnswer, if_pos hw]
    split_ifs
    · exact Nat.one_pos
    · exact Flash.remaining_pos _ _
  cases hw' : waits p inp k (t + 1) with
  | false => rwa [untilAnswer, if_neg (by simp [hw'])]
  | true =>
    have hpend' := (waits_of_grant hkeep).symm.trans hw'
    have hadr := (bus_steady t hpend (pending_requesting hpend')).1
    rw [untilAnswer, untilAnswer, if_pos hw, if_pos hw', hadr]
    cases hr : (window .ram).contains (busAt p inp t).adr with
    | true =>
      -- the RAM answers in the second cycle
      have hsub := (p.decoder.pending_iff (targets_quiet p inp _)).mpr ⟨hr, hpend⟩
      have hsub' := (p.decoder.pending_iff (targets_quiet p inp _)).mpr ⟨hadr ▸ hr, hpend'⟩
      rw [targetsAt_ram] at hsub hsub'
      have hack : (spramResponse p.blocks (ramIn p inp) (t + 1)).ack = true :=
        (spram_ack_succ t).trans hsub
      have hnone := pending_not_answers hsub'
      rw [Response.answers, hack] at hnone
      cases hnone
    | false =>
      cases hf : (window .flash).contains (busAt p inp t).adr with
      | false => exact absurd ⟨pending_requesting hpend, hf, hr⟩ hhere
      | true =>
        have hsub := (p.decoder.pending_iff (targets_quiet p inp _)).mpr ⟨hf, hpend⟩
        have hsub' := (p.decoder.pending_iff (targets_quiet p inp _)).mpr ⟨hadr ▸ hf, hpend'⟩
        rw [targetsAt_flash] at hsub hsub'
        rw [socAt_board, socAt_board]
        have hstep := flash_remaining (pending_requesting hsub) (pending_not_answers hsub)
        exact hstep.resolve_left (by simp [pending_not_answers hsub'])

/-- The owner of the bus is answered. -/
theorem owner_answered (k : Initiator) : LeadsTo (Elsewhere p inp)
    (fun t => grantAt p inp t = k) (fun t => ¬ waits p inp k t = true) (answerTime p) := by
  refine LeadsTo.of_measure (untilAnswer p inp k) (fun t hg => ?_) (untilAnswer_le k)
  by_cases hw : waits p inp k t = true
  · by_cases he : Elsewhere p inp t
    · exact .inr (.inl he)
    · exact .inr (.inr (untilAnswer_succ hg hw he))
  · exact .inl hw

theorem waits_ibus (t : ℕ) : waits p inp .ibus t =
    pending (ibusAt socConfig (socAnswers p inp) t) (socAnswers p inp t).ibus := by
  rw [socAnswers_ibus]
  rfl

theorem waits_dbus (t : ℕ) : waits p inp .dbus t =
    pending (dbusAt socConfig (socAnswers p inp) t) (socAnswers p inp t).dbus := by
  rw [socAnswers_dbus]
  rfl

/-- An idle owner makes way. -/
theorem grant_of_idle (k l : Initiator) {t : ℕ} (hkl : k ≠ l) (hg : grantAt p inp t = k)
    (hidle : (requestAt p inp t k).cyc = false) (hcyc : (requestAt p inp t l).cyc = true) :
    grantAt p inp (t + 1) = l := by
  have hgrant : p.arbiter.grant (socAt p inp t).arbiter = k := hg
  have hnext := p.arbiter.yields (socAt p inp t).arbiter (fun i => (requestAt p inp t i).cyc) l
    (by rw [hgrant]; exact hidle) hcyc
  rw [← grant_succ] at hnext
  by_contra hne
  rw [Initiator.eq_of_ne hkl hne, hidle] at hnext
  cases hnext

variable (p inp) in
/-- A data request waits for its answer, and one cycle for the bus at most. -/
theorem dbus_answered : LeadsTo (Elsewhere p inp) (fun _ => True)
    (fun t => ¬ waits p inp .dbus t = true) (answerTime p + 2) := by
  intro t _
  by_cases hw : waits p inp .dbus t = true
  · by_cases hg : grantAt p inp t = .dbus
    · exact (owner_answered .dbus).mono (by omega) t hg
    · have hi : grantAt p inp t = .ibus := Initiator.eq_of_ne (by decide) hg
      rw [waits_dbus] at hw
      have hcyc := (Bool.and_eq_true_iff.mp (pending_requesting hw)).1
      have hg' := grant_of_idle .ibus .dbus (by decide) hi (ibus_idle hw) hcyc
      obtain ⟨u, htu, hun, hu⟩ := owner_answered .dbus (t + 1) hg'
      exact ⟨u, by omega, by omega, hu⟩
  · exact ⟨t, le_rfl, by omega, .inl hw⟩

variable (p inp) in
/-- A fetch that is not withdrawn gets the bus behind the data request that has it. -/
theorem ibus_answered : LeadsTo (Elsewhere p inp) (fun _ => True)
    (fun t => ¬ waits p inp .ibus t = true) (answerTime p + 2) := by
  intro t _
  by_contra hnone
  have hw : ∀ u, t ≤ u → u ≤ t + 2 → waits p inp .ibus u = true := fun u htu hu =>
    by_contra fun hw => hnone ⟨u, htu, by omega, .inl hw⟩
  have howner : ∀ u, t ≤ u → u ≤ t + 2 → grantAt p inp u ≠ .ibus := by
    intro u htu hu hg
    obtain ⟨v, huv, hvn, hv⟩ := owner_answered .ibus u hg
    exact hnone ⟨v, by omega, by omega, hv⟩
  have hdbus : ∀ u, t ≤ u → u ≤ t + 2 → grantAt p inp u = .dbus := fun u htu hu =>
    Initiator.eq_of_ne (by decide) (howner u htu hu)
  -- the data request is answered at `t` and idle at `t + 1`
  have hquiet : ∀ u, t ≤ u → u ≤ t + 2 →
      pending (busAt p inp u) (respondAt p inp u) = false := by
    intro u htu hu
    rw [← waits_of_grant (hdbus u htu hu), waits_dbus, ← Bool.not_eq_true]
    intro hp
    have hidle := ibus_idle hp
    have hcyc := pending_requesting ((waits_ibus u).symm.trans (hw u htu hu))
    rw [Request.requesting, hidle] at hcyc
    cases hcyc
  have hidle : (requestAt p inp (t + 1) .dbus).cyc = false := by
    by_contra hcyc
    have hreq : (busAt p inp (t + 1)).requesting = true := by
      rw [busAt, hdbus (t + 1) (by omega) (by omega)]
      exact (dbus_cyc _ _ _).trans (eq_true_of_ne_false hcyc)
    have hhand := (handshake_or_pending (p := respondAt p inp (t + 1)) hreq).resolve_right
      (by simp [hquiet (t + 1) (by omega) (by omega)])
    have hp := bus_pending_of_answers (Bool.and_eq_true_iff.mp hhand).2
    rw [hquiet t le_rfl (by omega)] at hp
    cases hp
  have hcyc :=
    pending_requesting ((waits_ibus (t + 1)).symm.trans (hw (t + 1) (by omega) (by omega)))
  exact howner (t + 2) (by omega) le_rfl
    (grant_of_idle .dbus .ibus (by decide) (hdbus (t + 1) (by omega) (by omega)) hidle
      (Bool.and_eq_true_iff.mp hcyc).1)

variable (p) in
/-- The cycles between two instructions. -/
def retireTime : ℕ := 2 * (answerTime p + 2) + 6

variable (p inp) in
theorem soc_leadsTo_record : LeadsTo (Elsewhere p inp) (fun _ => True)
    (fun t => recordAt socConfig (socAnswers p inp) t ≠ none) (2 * (answerTime p + 2) + 5) := by
  have hi := ibus_answered p inp
  have hd := dbus_answered p inp
  simp only [waits_ibus] at hi
  simp only [waits_dbus] at hd
  exact leadsTo_retirement hi hd

/-- The system does not stop: in every run, with any arbiter, an instruction retires in each
window of `retireTime` cycles, unless the core asks for an address that is neither in the
flash nor in the RAM. -/
theorem soc_retires_within (p : SocParts) (inp : ℕ → SocIn p) :
    (∀ t, ∃ u, t ≤ u ∧ u < t + retireTime p ∧
      ((socAt p inp (u + 1)).cpu.rvfi.valid = true ∨ Elsewhere p inp u)) ∧
    ∀ n, n ≤ (records socConfig (socAnswers p inp) (n * retireTime p)).length ∨
      ∃ u < n * retireTime p, Elsewhere p inp u := by
  refine ⟨fun t => ?_, fun n => ?_⟩
  · obtain ⟨u, htu, hun, hu⟩ := soc_leadsTo_record p inp t trivial
    refine ⟨u, htu, by unfold retireTime; omega, hu.imp_left fun hr => ?_⟩
    rw [socAt_cpu]
    exact valid_of_record hr
  · by_cases hE : ∃ u < n * retireTime p, Elsewhere p inp u
    · exact .inr hE
    · left
      exact (soc_leadsTo_record p inp).length_log fun t ht he => hE ⟨t, ht, he⟩

end Run
end Icicle
