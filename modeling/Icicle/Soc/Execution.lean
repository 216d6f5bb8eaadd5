import Icicle.Soc.SystemOnChip

/-! The system on chip executes the program in its flash: a hart of RV32I whose memory is
the flash and the RAM at their windows, and that hears anything at other addresses. -/
namespace Icicle
open Wishbone Bytes Icicle.Sequential

section Machine
variable (flash : BitVec 24 → BitVec 8)

/-- Instructions are fetched from the flash, which refuses writes. Another address answers
as given. -/
def socStorage (x : Answered) : Storage where
  imem adr :=
    if (window .flash).contains adr then some (flashWord flash ((window .flash).offset adr))
    else if x.fetch.err then none
    else some x.fetch.datR
  faults adr _ we :=
    if (window .flash).contains adr then we
    else if (window .ram).contains adr then false
    else x.data.err

/-- The words that are read. -/
def socWords (ram : BitVec 15 → Word) (x : Answered) (adr : BitVec 30) : Word :=
  if (window .flash).contains adr then flashWord flash ((window .flash).offset adr)
  else if (window .ram).contains adr then ram ((window .ram).offset adr)
  else x.data.datR

/-- The hart and its RAM. -/
structure SocMachine where
  hart : Rv32i.Hart
  ram : BitVec 15 → Word

/-- The words of the RAM in a memory. -/
def ramOf (mem : Rv32i.Memory) (o : BitVec 15) : Word :=
  load mem ((window .ram).address o ++ 0#2) 4

/-- One instruction, with what is answered at addresses outside the flash and the RAM. -/
def socNext (h : SocMachine) (x : Answered) : Rv32i.Step × SocMachine :=
  let (s, after) := Rv32i.Machine.next (socStorage flash x).platform socConfig.handler
    ⟨h.hart, bytes (socWords flash h.ram x)⟩
  (s, ⟨after.hart, ramOf after.mem⟩)

theorem load_bytes (words : BitVec 30 → Word) (adr : BitVec 30) :
    load (bytes words) (adr ++ 0#2) 4 = words adr := by
  set op : MemOp :=
    { store := false, width := .word, unsigned := false, addr := adr ++ 0#2, wdata := 0 } with hop
  have hoffset : op.unit.offset = 0#2 := BitVec.extractLsb'_append_eq_right
  have hadr : op.addr.extractLsb' 2 30 = adr := BitVec.extractLsb'_append_eq_left
  have haligned : op.unit.misaligned = false := bne_eq_false_iff_eq.mpr hoffset
  refine eq_of_byte (n := 4) (by omega) fun b hb => ?_
  have hbyte := MemOp.byte_load_bytes words haligned hb
  rw [hoffset, hadr] at hbyte
  exact hbyte.trans (congrArg (byte (words adr)) (Nat.zero_add b))

end Machine

theorem not_flash_of_ram {adr : BitVec 30} (h : (window .ram).contains adr = true) :
    (window .flash).contains adr = false :=
  eq_false_of_ne_true fun hf => absurd (window_unique hf h) (by decide)

section Run
variable (p : SocParts) (inp : ℕ → SocIn p)

/-- The contents of the RAM, in which a write is done when it is acknowledged. -/
def ramAt (t : ℕ) : BitVec 15 → Word :=
  contents (ramIn p inp) (spramResponse p.blocks (ramIn p inp)) (spram p.blocks).reset.word t

variable {p inp}

/-- A request that the core completes is completed on the bus. -/
theorem handshake_bus {t : ℕ} {k : Initiator}
    (h : handshake (requestAt p inp t k)
      (answerTo (grantAt p inp t) (respondAt p inp t) k) = true) :
    grantAt p inp t = k ∧ busAt p inp t = requestAt p inp t k ∧
      handshake (busAt p inp t) (respondAt p inp t) = true := by
  obtain ⟨rfl, hhand⟩ := handshake_answerTo h
  exact ⟨rfl, rfl, hhand⟩

/-- A completed request in the window of the flash. -/
theorem flash_on_bus {t : ℕ} (hc : (window .flash).contains (busAt p inp t).adr = true)
    (hhand : handshake (busAt p inp t) (respondAt p inp t) = true) :
    (respondAt p inp t).err = (busAt p inp t).we ∧ ((busAt p inp t).we = false →
      (respondAt p inp t).datR =
        flashWord p.board.contents ((window .flash).offset (busAt p inp t).adr)) := by
  have hsub := (p.decoder.handshake_iff (targets_quiet p inp _)).mpr ⟨hc, hhand⟩
  rw [targetsAt_flash] at hsub
  have hflash := flash_answers flashIn_steady (t := t) hsub
  have hin : (flashIn p inp t).bus = (busAt p inp t).within (window .flash) :=
    p.decoder.inside _ _ hc
  rw [hin, ← targetsAt_flash, ← respondAt_eq (Bool.and_eq_true_iff.mp hhand).1 hc] at hflash
  exact hflash

/-- A completed request in the window of the RAM. -/
theorem ram_on_bus {t : ℕ} (hc : (window .ram).contains (busAt p inp t).adr = true)
    (hhand : handshake (busAt p inp t) (respondAt p inp t) = true) :
    (respondAt p inp t).err = false ∧ ((busAt p inp t).we = false →
      (respondAt p inp t).datR =
        ramAt p inp t ((window .ram).offset (busAt p inp t).adr)) := by
  have hresp : respondAt p inp t = spramResponse p.blocks (ramIn p inp) t := by
    rw [← targetsAt_ram]
    exact respondAt_eq (Bool.and_eq_true_iff.mp hhand).1 hc
  have hin : ramIn p inp t = (busAt p inp t).within (window .ram) := p.decoder.inside _ _ hc
  have hsub := (p.decoder.handshake_iff (targets_quiet p inp _)).mpr ⟨hc, hhand⟩
  rw [targetsAt_ram] at hsub
  rw [hresp]
  refine ⟨rfl, fun hwe => ?_⟩
  have hread := spram_reads ramIn_steady ramIn_holdsWrites (t := t) hsub (by rw [hin]; exact hwe)
  rw [hread, hin]
  rfl

variable (p inp) in
/-- The flash and the RAM answer the core as the memory of the hart does. -/
theorem soc_gives (c u : ℕ) :
    Gives socConfig (socAnswers p inp)
      (socStorage p.board.contents (answered (socAnswers p inp) (c, u)))
      (socWords p.board.contents (ramAt p inp u) (answered (socAnswers p inp) (c, u))) c u where
  fetch hhand := by
    rw [socAnswers_ibus] at hhand
    obtain ⟨hg, hbus, hhand⟩ := handshake_bus (k := .ibus) hhand
    have hadr : (ibusAt socConfig (socAnswers p inp) c).adr = (busAt p inp c).adr := by
      rw [hbus]
      rfl
    have hresp : (socAnswers p inp c).ibus = respondAt p inp c := by
      rw [socAnswers_ibus, hg, answerTo_self]
    have hx : (answered (socAnswers p inp) (c, u)).fetch = respondAt p inp c := hresp
    rw [hadr, hresp]
    unfold socStorage
    dsimp only
    rw [hx]
    split_ifs with hc herr herr
    · have hwe := (flash_on_bus hc hhand).1
      rw [herr, hbus] at hwe
      cases hwe
    · have hwe : (busAt p inp c).we = false := by rw [hbus]; rfl
      rw [(flash_on_bus hc hhand).2 hwe]
    · rfl
    · rfl
  data hhand := by
    rw [socAnswers_dbus] at hhand
    obtain ⟨hg, hbus, hhand⟩ := handshake_bus (k := .dbus) hhand
    have hreq : dbusAt socConfig (socAnswers p inp) u = busAt p inp u := by rw [hbus]; rfl
    have hresp : (socAnswers p inp u).dbus = respondAt p inp u := by
      rw [socAnswers_dbus, hg, answerTo_self]
    have hx : (answered (socAnswers p inp) (c, u)).data = respondAt p inp u := hresp
    rw [hreq, hresp]
    unfold socStorage socWords
    dsimp only
    rw [hx]
    split_ifs with hf hr
    · obtain ⟨herr, hdat⟩ := flash_on_bus hf hhand
      exact ⟨herr, fun _ => hdat⟩
    · obtain ⟨herr, hdat⟩ := ram_on_bus hr hhand
      exact ⟨herr, fun _ => hdat⟩
    · exact ⟨rfl, fun _ _ => rfl⟩

/-- What the data bus does to the memory of the hart is what the bus does to the RAM. -/
theorem ramOf_update (x : Answered) (u : ℕ) :
    ramOf (bytes (update (socWords p.board.contents (ramAt p inp u) x)
      (dbusAt socConfig (socAnswers p inp) u) (socAnswers p inp u).dbus)) =
      ramAt p inp (u + 1) := by
  have hwords : ∀ adr, (window .ram).contains adr = true →
      socWords p.board.contents (ramAt p inp u) x adr =
        ramAt p inp u ((window .ram).offset adr) := by
    intro adr hc
    simp [socWords, hc, not_flash_of_ram hc]
  have hsucc : ramAt p inp (u + 1) =
      update (ramAt p inp u) (ramIn p inp u) (targetsAt p inp u .ram) := by
    rw [targetsAt_ram]
    rfl
  funext o
  have hc := (window .ram).contains_address o
  have ho : (window .ram).offset ((window .ram).address o) = o :=
    (window .ram).offset_address (by decide) o
  rw [ramOf, load_bytes, hsucc]
  have hbus := p.decoder.update_eq (k := .ram) (targets_quiet p inp u) hwords hc
  rw [ho] at hbus
  refine Eq.trans ?_ hbus
  rw [socAnswers_dbus]
  by_cases hg : grantAt p inp u = .dbus
  · have hreq : busAt p inp u = dbusAt socConfig (socAnswers p inp) u := by
      rw [busAt, hg]
      rfl
    rw [hg, answerTo_self, hreq, respondAt, hreq]
  · have hi : grantAt p inp u = .ibus := Initiator.eq_of_ne (by decide) hg
    have hwe : (busAt p inp u).we = false := by rw [busAt, hi]; rfl
    have hread : ∀ q, stores (busAt p inp u) q = false := fun q => by simp [stores, hwe]
    have hdeaf : stores (dbusAt socConfig (socAnswers p inp) u)
        (answerTo (grantAt p inp u) (respondAt p inp u) .dbus) = false := by
      rw [answerTo, if_neg (Ne.symm hg)]
      simp [stores, handshake, Response.answers]
    rw [update_of_not_stores hdeaf, update_of_not_stores (hread _)]

/-- A store is in writeback in the cycle after its answer. -/
theorem stores_of_bubble {cfg : Config} {bus : ℕ → CpuIn} {t : ℕ}
    (hb : (stateAt cfg bus (t + 1)).mw.state = .bubble) :
    stores (dbusAt cfg bus t) (bus t).dbus = false := by
  by_contra hs
  have hhand : handshake (dbusAt cfg bus t) (bus t).dbus = true := by
    by_contra hh
    simp [stores, eq_false_of_ne_true hh] at hs
  obtain ⟨hreq, hans⟩ := Bool.and_eq_true_iff.mp hhand
  have hx : (stateAt cfg bus t).xm.state ≠ .bubble := by
    have hv := ((LoadStore.requesting_iff _).mp hreq).1
    rw [beq_iff_eq.mp hv]
    decide
  have hp : pending (dbusAt cfg bus t) (bus t).dbus = false := by simp [pending, hans]
  have hdepart := departure_of_answered hx hp
  rw [departure, retirement_eq_none.mpr hb] at hdepart
  cases hdepart

variable (p inp) in
/-- The RAM before the token in writeback. -/
def ramBefore (t : ℕ) : BitVec 15 → Word :=
  if (stateAt socConfig (socAnswers p inp) t).mw.state = .bubble then ramAt p inp t
  else ramAt p inp (t - 1)

theorem ramAt_succ_of_not_stores {u : ℕ} (h : stores (dbusAt socConfig (socAnswers p inp) u)
    (socAnswers p inp u).dbus = false) : ramAt p inp (u + 1) = ramAt p inp u := by
  rw [← ramOf_update ⟨⟨false, false, 0⟩, ⟨false, false, 0⟩⟩ u, update_of_not_stores h]
  funext o
  have hc := (window .ram).contains_address o
  have ho : (window .ram).offset ((window .ram).address o) = o :=
    (window .ram).offset_address (by decide) o
  rw [ramOf, load_bytes, socWords, not_flash_of_ram hc, hc, if_neg Bool.false_ne_true, if_pos rfl]
  exact congrArg (ramAt p inp u) ho

theorem ramBefore_succ (t : ℕ) : ramBefore p inp (t + 1) = ramAt p inp t := by
  unfold ramBefore
  split_ifs with hb
  · exact ramAt_succ_of_not_stores (stores_of_bubble hb)
  · rfl

variable (p) in
def socReset : SocMachine where
  hart := ⟨socConfig.resetVector, Rv32i.Regs.reset⟩
  ram := (spram p.blocks).reset.word

variable (p inp) in
/-- The hart that has executed what has retired before cycle `t`. -/
def hartAt (t : ℕ) : SocMachine :=
  (Clocked.play (socNext p.board.contents) (socReset p)
    ((executionCycles socConfig (socAnswers p inp) t).map (answered (socAnswers p inp)))).2

variable (p inp) in
/-- The records up to a cycle are what the hart executes, and its state is that of the core and
of the RAM before the token in writeback. -/
theorem soc_simulates (t : ℕ) :
    let run := Clocked.play (socNext p.board.contents) (socReset p)
      ((executionCycles socConfig (socAnswers p inp) t).map (answered (socAnswers p inp)))
    List.Forall₂ (RVFI.Reports socConfig.handler) (records socConfig (socAnswers p inp) t) run.1 ∧
      List.Forall₂ (fun x s => Transacted socConfig (socAnswers p inp) x.1 x.2 s)
        (executionCycles socConfig (socAnswers p inp) t) run.1 ∧
      (stateAt socConfig (socAnswers p inp) t).pcW = (hartAt p inp t).hart.pc ∧
      (stateAt socConfig (socAnswers p inp) t).regs.regs = (hartAt p inp t).hart.regs.x ∧
      ramBefore p inp t = (hartAt p inp t).ram :=
  executes_of_retirements (socNext p.board.contents) (a := socReset p)
    (R := fun t h => (stateAt socConfig (socAnswers p inp) t).pcW = h.hart.pc ∧
      (stateAt socConfig (socAnswers p inp) t).regs.regs = h.hart.regs.x ∧
      ramBefore p inp t = h.ram)
    ⟨pcW_reset socConfig (socAnswers p inp), rfl, rfl⟩
    (fun u h hR hn => by
      refine ⟨(pcW_succ_of_none hn).trans hR.1, (regs_succ_of_none hn).trans hR.2.1, ?_⟩
      rw [ramBefore_succ, ← hR.2.2, ramBefore, if_pos (retirement_eq_none.mp hn)])
    (fun u h r hR hr => by
      obtain ⟨hpc, hregs, hram⟩ := hR
      rw [ramBefore_succ] at hram
      obtain ⟨hreports, htrans, hpc', hregs', hmem⟩ :=
        retirement_executes hr (soc_gives p inp _ u) hpc hregs
      rw [hram] at hreports htrans hpc' hregs' hmem
      refine ⟨hreports, htrans, hpc', hregs', ?_⟩
      rw [ramBefore_succ, ← ramOf_update (answered (socAnswers p inp)
        ((tagsAt socConfig (socAnswers p inp) u).xm, u)) u, hram, ← hmem]) t

/-- With no token behind it that could store, the RAM is the one of the hart. -/
theorem ram_of_quiet {t : ℕ} (hw : (socAt p inp t).cpu.mw.state = .bubble)
    (hx : (socAt p inp t).cpu.xm.state = .bubble) :
    (socAt p inp t).ram.word = (hartAt p inp t).ram := by
  rw [socAt_cpu] at hw hx
  have hidle : stores (dbusAt socConfig (socAnswers p inp) t)
      (socAnswers p inp t).dbus = false := by
    have hreq : (dbusAt socConfig (socAnswers p inp) t).requesting = false := by
      unfold dbusAt Cpu.dbus
      rw [MemoryAccess.requesting_eq, XM.accesses, hx]
      rfl
    simp [stores, handshake, hreq]
  have hword : (socAt p inp t).ram.word = ramAt p inp (t + 1) := by
    rw [socAt_ram]
    exact spram_word ramIn_steady ramIn_holdsWrites t
  rw [hword, ramAt_succ_of_not_stores hidle, ← (soc_simulates p inp t).2.2.2.2, ramBefore,
    if_pos hw]

/-- The system executes the program in its flash: in every run, with any arbiter and any
answers of the CSR bridge, the RVFI records are the instructions of a hart that fetches the
words of the flash, reads what is in the flash and what was last stored in the RAM, and
traps when it writes to the flash. Their accesses are made once each and in order, those to
the CSR bridge included, and no others are answered. Once the pipeline is empty behind the
last of them, the RAM holds what the hart has stored. -/
theorem soc_executes (p : SocParts) (inp : ℕ → SocIn p) (t : ℕ) :
    ∃ cycles : List (ℕ × ℕ), cycles.Pairwise (fun x y => x.1 < y.1 ∧ x.2 < y.2) ∧
      (∀ u, u + 1 < t → handshake (requestAt p inp u .dbus) (socAnswers p inp u).dbus = true →
        u ∈ cycles.map Prod.snd) ∧
      let run := Clocked.play (socNext p.board.contents) (socReset p)
        (cycles.map (answered (socAnswers p inp)))
      List.Forall₂ (RVFI.Reports socConfig.handler) (records socConfig (socAnswers p inp) t) run.1 ∧
        List.Forall₂ (fun x s => Transacted socConfig (socAnswers p inp) x.1 x.2 s) cycles run.1 ∧
        (socAt p inp t).cpu.pcW = run.2.hart.pc ∧
        (socAt p inp t).cpu.regs.regs = run.2.hart.regs.x ∧
        ((socAt p inp t).cpu.mw.state = .bubble → (socAt p inp t).cpu.xm.state = .bubble →
          (socAt p inp t).ram.word = run.2.ram) := by
  refine ⟨executionCycles socConfig (socAnswers p inp) t, executionCycles_pairwise t,
    fun u hu => mem_executionCycles hu, ?_⟩
  obtain ⟨hrecords, htrans, hpc, hregs, -⟩ := soc_simulates p inp t
  refine ⟨hrecords, htrans, ?_, ?_, ram_of_quiet⟩
  · rw [socAt_cpu]
    exact hpc
  · rw [socAt_cpu]
    exact hregs

end Run
end Icicle
