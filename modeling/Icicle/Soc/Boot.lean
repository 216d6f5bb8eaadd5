import Icicle.Soc.Progress
import Icicle.Soc.Start

/-! The system boots: with the startup code in its flash it arrives at `main`, whatever the
arbiter does and whatever the rest of the system answers. -/
namespace Icicle
open Wishbone Clocked Icicle.Sequential
open Rv32i (byteAddress)

section Run
variable {p : SocParts} {inp : ℕ → SocIn p} {l : Layout}

/-- While the startup code runs, the core asks for the flash and the RAM only. -/
theorem here_of_safe {t : ℕ} (h : l.Safe p.board.contents (hartAt p inp (t + 1))) :
    ¬ Elsewhere p inp t := by
  rintro ⟨hreq, hflash, hram⟩
  obtain ⟨-, -, hpc, hregs, -⟩ := soc_simulates p inp (t + 1)
  have hhart : (hartAt p inp (t + 1)).hart.pc = (stateAt socConfig (socAnswers p inp) t).pcM := by
    rw [← hpc, stateAt_succ, Cpu.pcW_step]
  cases hg : grantAt p inp t with
  | ibus =>
    have hbus : busAt p inp t = ibusAt socConfig (socAnswers p inp) t := by
      rw [busAt, hg]
      rfl
    rw [hbus] at hreq hflash
    obtain ⟨k, hk, hmain, hk'⟩ := h.pc
    have hvalid := ((LoadStore.requesting_iff _).mp hreq).1
    have hstate : (stateAt socConfig (socAnswers p inp) t).pf.state = .valid := by
      have hfetch := (Bool.and_eq_true_iff.mp hvalid).1
      exact beq_iff_eq.mp hfetch
    have hpf : (stateAt socConfig (socAnswers p inp) t).pcF =
        (stateAt socConfig (socAnswers p inp) t).pf.pcRdata := by
      rw [Cpu.pcF, hstate, if_neg (by decide)]
    obtain ⟨j, hj, hF⟩ := (core_chained socConfig (socAnswers p inp) t).pcF_near
    rw [← hhart, hk', Rv32i.byteAddress_add, hpf] at hF
    have hadr : (ibusAt socConfig (socAnswers p inp) t).adr =
        (stateAt socConfig (socAnswers p inp) t).pf.pcRdata.extractLsb' 2 30 :=
      BitVec.extractLsb'_append_eq_left
    rw [hadr, hF, Rv32i.extractLsb'_byteAddress,
      flash_contains (show startWord + k + j < 2 ^ 22 by unfold startWord; omega)] at hflash
    cases hflash
  | dbus =>
    have hbus : busAt p inp t = dbusAt socConfig (socAnswers p inp) t := by
      rw [busAt, hg]
      rfl
    rw [hbus] at hreq hflash hram
    obtain ⟨h', hmoves⟩ := h.moves
    set c := (tagsAt socConfig (socAnswers p inp) t).xm
    set x := answered (socAnswers p inp) (c, t)
    obtain ⟨acc, hacc, hadr⟩ := access_of_requesting
      (socWords p.board.contents (hartAt p inp (t + 1)).ram x) (soc_gives p inp c t).fetch hpc hregs
      hreq (hmoves.completes x)
    have hinside := hmoves.inside x acc hacc
    rw [← hadr] at hinside
    rcases hinside with hi | hi
    · rw [hi] at hflash
      cases hflash
    · rw [hi] at hram
      cases hram

/-- What retires from a cycle on is executed by the hart of that cycle. -/
theorem retires_from (p : SocParts) (inp : ℕ → SocIn p) {t u : ℕ} (h : t ≤ u) :
    ∃ is boot, records socConfig (socAnswers p inp) u =
        records socConfig (socAnswers p inp) t ++ boot ∧ is.length = boot.length ∧
      let run := play (socNext p.board.contents) (hartAt p inp t) is
      List.Forall₂ (RVFI.Reports socConfig.handler) boot run.1 ∧ hartAt p inp u = run.2 := by
  have hrecords : ∀ v, records socConfig (socAnswers p inp) v =
      (log (executionAt socConfig (socAnswers p inp)) v).map fun x => x.1.1 := by
    intro v
    have he : recordAt socConfig (socAnswers p inp) =
        fun w => (executionAt socConfig (socAnswers p inp) w).map fun x => x.1.1 := by
      funext w
      rw [recordAt_eq, executionAt, Option.map_map]
      rfl
    rw [records, he, log_map]
  obtain ⟨ys, hys⟩ := log_isPrefix_of_le (executionAt socConfig (socAnswers p inp)) h
  refine ⟨(ys.map fun x => x.1.2).map (answered (socAnswers p inp)), ys.map fun x => x.1.1, ?_,
    by simp only [List.length_map], ?_⟩
  · rw [hrecords, hrecords, ← hys, List.map_append]
  · obtain ⟨ht, -⟩ := soc_simulates p inp t
    obtain ⟨hu, -⟩ := soc_simulates p inp u
    have hcycles : executionCycles socConfig (socAnswers p inp) u =
        executionCycles socConfig (socAnswers p inp) t ++ ys.map fun x => x.1.2 := by
      rw [executionCycles, ← hys, List.map_append]
      rfl
    rw [hcycles, List.map_append, play_append, hrecords u, ← hys, List.map_append,
      ← hrecords t] at hu
    refine ⟨?_, by rw [hartAt, hcycles, List.map_append, play_append]; rfl⟩
    have hdrop := List.forall₂_drop (records socConfig (socAnswers p inp) t).length hu
    rw [List.drop_left, ht.length_eq, List.drop_left] at hdrop
    exact hdrop

section Boot
variable (hl : l.Loaded p.board.contents) {t : ℕ}
  (ht : (stateAt socConfig (socAnswers p inp) t).pcW = socConfig.resetVector)
include hl ht

theorem runs_from : l.Runs p.board.contents l.steps
    (l.Started p.board.contents (hartAt p inp t).ram) (hartAt p inp t) :=
  runs_start hl ((soc_simulates p inp t).2.2.1.symm.trans ht)

/-- Until the startup code is through, the core is on its way. -/
theorem safe_from {u : ℕ} (htu : t ≤ u)
    (hu : (records socConfig (socAnswers p inp) u).length <
      (records socConfig (socAnswers p inp) t).length + l.steps) :
    l.Safe p.board.contents (hartAt p inp u) := by
  obtain ⟨is, boot, hrecords, hlen, -, hhart⟩ := retires_from p inp htu
  rw [hrecords, List.length_append] at hu
  rw [hhart]
  exact (runs_from hl ht).safe_of_length (by omega)

/-- The startup code gets through, in as many cycles as its instructions need. -/
theorem steps_le_records : (records socConfig (socAnswers p inp) t).length + l.steps ≤
    (records socConfig (socAnswers p inp) (t + l.steps * retireTime p)).length := by
  by_contra hlt
  refine hlt ((soc_leadsTo_record p inp).length_log_add t fun u htu hu => ?_)
  have hmono := length_log_mono (recordAt socConfig (socAnswers p inp))
    (show u + 1 ≤ t + l.steps * retireTime p from hu)
  exact here_of_safe (safe_from hl ht (by omega) (hmono.trans_lt (Nat.lt_of_not_le hlt)))

/-- The startup code puts out no traps. -/
theorem boots_of_length {u : ℕ} (htu : t ≤ u)
    (hu : (records socConfig (socAnswers p inp) u).length =
      (records socConfig (socAnswers p inp) t).length + l.steps) :
    (∃ boot, records socConfig (socAnswers p inp) u =
        records socConfig (socAnswers p inp) t ++ boot ∧
      boot.length = l.steps ∧ ∀ r ∈ boot, r.trap = false) ∧
      l.Started p.board.contents (hartAt p inp t).ram (hartAt p inp u) := by
  obtain ⟨is, boot, hrecords, hlen, hreports, hhart⟩ := retires_from p inp htu
  rw [hrecords, List.length_append] at hu
  have hboot : boot.length = l.steps := by omega
  have hruns := runs_from hl ht
  refine ⟨⟨boot, hrecords, hboot, fun r hr => ?_⟩, ?_⟩
  · have htraps : boot.map RVFI.trap =
        (play (socNext p.board.contents) (hartAt p inp t) is).1.map Rv32i.Step.raises := by
      rw [← List.forall₂_eq_eq_eq, List.forall₂_map_left_iff, List.forall₂_map_right_iff]
      exact hreports.imp fun _ _ h => h.trap
    have hmem : r.trap ∈ boot.map RVFI.trap := List.mem_map_of_mem hr
    rw [htraps] at hmem
    obtain ⟨s, hs, hraises⟩ := List.mem_map.mp hmem
    rw [← hraises]
    refine hruns.outputs (fun s => s.raises = false) (fun b hb x => ?_) (by omega) s hs
    obtain ⟨b', hmoves⟩ := hb.moves
    exact hmoves.completes x
  · rw [hhart]
    exact hruns.play_of_length (by omega)

end Boot

/-- The system boots, at reset and whenever it comes back to the reset vector, as it does
after a trap: with the startup code in the flash, within `retireTime` cycles for each of its
instructions the core has retired them, none with a trap, and is at `main`; its stack pointer
is at the end of the RAM, and in the RAM `.bss` is cleared, `.data` is a copy of its image
in the flash and the rest is as it was. -/
theorem soc_boots (p : SocParts) (inp : ℕ → SocIn p) (l : Layout)
    (hl : l.Loaded p.board.contents) {t : ℕ}
    (ht : (socAt p inp t).cpu.pcW = socConfig.resetVector) :
    ∃ u, t ≤ u ∧ u ≤ t + l.steps * retireTime p ∧
      (∃ boot, records socConfig (socAnswers p inp) u =
          records socConfig (socAnswers p inp) t ++ boot ∧
        boot.length = l.steps ∧ ∀ r ∈ boot, r.trap = false) ∧
      (socAt p inp u).cpu.pcW = byteAddress l.main ∧
      (socAt p inp u).cpu.regs.regs Start.sp = Layout.stack_top ∧
      (socAt p inp u).ram.word = l.initialised p.board.contents (hartAt p inp t).ram := by
  rw [socAt_cpu] at ht
  have hpos : 0 < l.steps := by unfold Layout.steps; omega
  obtain ⟨u, huT, r, hr, hlen⟩ := exists_of_lt_length_log
    (show (records socConfig (socAnswers p inp) t).length + (l.steps - 1) <
      (records socConfig (socAnswers p inp) (t + l.steps * retireTime p)).length from
      lt_of_lt_of_le (by omega) (steps_le_records hl ht))
  have hlen' : (records socConfig (socAnswers p inp) u).length =
      (records socConfig (socAnswers p inp) t).length + (l.steps - 1) := hlen
  have hsucc : (records socConfig (socAnswers p inp) (u + 1)).length =
      (records socConfig (socAnswers p inp) t).length + l.steps := by
    rw [records, log_succ_some hr, List.length_append, List.length_singleton, hlen]
    omega
  have htu : t ≤ u := by
    by_contra hlt
    have hmono : (records socConfig (socAnswers p inp) (u + 1)).length ≤
        (records socConfig (socAnswers p inp) t).length :=
      length_log_mono (recordAt socConfig (socAnswers p inp)) (by omega)
    omega
  obtain ⟨hboot, hstarted⟩ := boots_of_length hl ht (Nat.le_succ_of_le htu) hsucc
  obtain ⟨-, -, hpc, hregs, -⟩ := soc_simulates p inp (u + 1)
  -- `main` is not the word behind the call, so nothing younger is left in the pipeline
  obtain ⟨hw, hx⟩ : (stateAt socConfig (socAnswers p inp) (u + 1)).mw.state = .bubble ∧
      (stateAt socConfig (socAnswers p inp) (u + 1)).xm.state = .bubble := by
    obtain ⟨r', hr', -⟩ := Option.map_eq_some_iff.mp ((recordAt_eq u).symm.trans hr)
    refine quiet_of_jump hr' ?_
    obtain ⟨k, hk, hmain, hk'⟩ := (safe_from hl ht htu (by omega)).pc
    have hmainFlash := l.mainFlash
    rw [← pcW_succ_of_some hr', hpc, hstarted.pc, pcW_of_retirement hr',
      (soc_simulates p inp u).2.2.1, hk', Rv32i.byteAddress_succ, Ne,
      Rv32i.byteAddress_inj (by omega) (by omega)]
    omega
  refine ⟨u + 1, by omega, huT, hboot, ?_, ?_, ?_⟩
  · rw [socAt_cpu, hpc, hstarted.pc]
  · rw [socAt_cpu, hregs, hstarted.sp]
  · rw [ram_of_quiet (by rw [socAt_cpu]; exact hw) (by rw [socAt_cpu]; exact hx), hstarted.ram]

end Run

/-- The startup code as it is assembled for one word in each section, an endless loop as
`main`, and the image of `.data`. -/
def sampleCode : List Word :=
  [0x3ff00297, 0x00428293, 0x3ff00317, 0x00030313, 0x00628863, 0x0002a023, 0x00428293,
    0xfe629ce3, 0x00000297, 0x04428293, 0x3ff00317, 0xfd830313, 0x3ff00397, 0xfd438393,
    0x00730c63, 0x0002ae03, 0x01c32023, 0x00428293, 0x00430313, 0xfe7318e3, 0x3ff20117,
    0xfb010113, 0x008000ef, 0x0000006f, 0x0000006f, 0x12345678]

def sampleLayout : Layout where
  data := 0
  dataWords := 1
  bss := 1
  bssWords := 1
  dataFlash := startWord + 25
  main := startWord + 24
  relaxed := true
  ordered := by decide
  ram := by decide
  flash := by decide
  text := by decide
  mainFlash := by decide
  near := by decide

def sampleParts : SocParts where
  arbiter := takingTurns
  decoder := maskingCycles
  bridge := takingBytes
  block := .ideal
  blocks := fun _ _ => (fun _ => 0xffff, 0)
  board :=
    { countingFlash with
      clkFrequency := 12000000
      contents := fun a =>
        Bytes.byte (sampleCode.getD (a.toNat / 4 - startWord) 0) (a.toNat % 4) }

/-- The bus behind the bridge gives zeros, and nothing but the chip pulls the data line down. -/
def sampleIn : ℕ → SocIn sampleParts := fun _ => ⟨0#8, true⟩

theorem sampleLayout_loaded : sampleLayout.Loaded sampleParts.board.contents := by
  have hall : ∀ k < 24, startWord + k < 2 ^ 22 ∧
      Rv32i.decode (flashWord sampleParts.board.contents (BitVec.ofNat 22 (startWord + k))) =
        sampleLayout.start[k]? := by decide +kernel
  intro k i hi
  have hk : k < 24 := (List.getElem?_eq_some_iff.mp hi).1
  exact ⟨(hall k hk).1, (hall k hk).2.trans hi⟩

theorem sample_boots :
    ∃ u ≤ 23 * retireTime sampleParts,
      (socAt sampleParts sampleIn u).cpu.pcW = 0x00100060 ∧
      (socAt sampleParts sampleIn u).ram.word 0 = 0x12345678 ∧
      (socAt sampleParts sampleIn u).ram.word 1 = 0 := by
  obtain ⟨u, -, hu, -, hpc, -, hram⟩ := soc_boots sampleParts sampleIn
    sampleLayout sampleLayout_loaded (t := 0) (by decide)
  refine ⟨u, by rwa [Nat.zero_add] at hu, hpc, ?_, ?_⟩
  · rw [hram]
    decide +kernel
  · rw [hram]
    decide +kernel

theorem sample_first (x : Answered) :
    (socNext sampleParts.board.contents (socReset sampleParts) x).1 =
      { before := ⟨(socReset sampleParts).hart,
          bytes (socWords sampleParts.board.contents (socReset sampleParts).ram x)⟩
        insn := some 0x3ff00297
        outcome := .ok
          { nextPc := 0x00100004, write := some (Start.t0, 0x40000000), access := none
            data := 0 } } := by
  have hword : flashWord sampleParts.board.contents 0x040000 = 0x3ff00297 := by decide +kernel
  have hdecode : Rv32i.decode 0x3ff00297 = some (.auipc Start.t0 0x3ff00) := by decide
  have hc : (window .flash).contains ((0x00100000 : Word).extractLsb' 2 30) = true := by decide
  have himem : (socStorage sampleParts.board.contents x).platform.imem 0x00100000 =
      some 0x3ff00297 := by
    unfold Storage.platform socStorage
    dsimp only
    rw [if_pos hc]
    exact congrArg some hword
  have hfetch : (socReset sampleParts).hart.fetch
      (socStorage sampleParts.board.contents x).platform = .ok 0x3ff00297 := by
    have hpc : (socReset sampleParts).hart.pc = 0x00100000 := rfl
    rw [Rv32i.Hart.fetch, hpc, if_pos (by decide), himem]
  unfold socNext Rv32i.Machine.next Rv32i.Machine.step
  dsimp only
  rw [hfetch]
  unfold Rv32i.Hart.execute Rv32i.Instruction.ofWord
  dsimp only
  rw [hdecode]
  rfl

/-- The system starts with `auipc t0, 0x3ff00`. -/
theorem sample_executes :
    ∃ r rest, records socConfig (socAnswers sampleParts sampleIn) (23 * retireTime sampleParts) =
        r :: rest ∧ r.pcRdata = 0x00100000 ∧ r.insn = 0x3ff00297 ∧ r.trap = false ∧
      (r.rdAddr, r.rdWdata) = (Start.t0, 0x40000000) := by
  obtain ⟨cycles, -, -, hreports, -⟩ :=
    soc_executes sampleParts sampleIn (23 * retireTime sampleParts)
  have hlen : (records socConfig (socAnswers sampleParts sampleIn) 0).length +
      sampleLayout.steps ≤ (records socConfig (socAnswers sampleParts sampleIn)
        (0 + sampleLayout.steps * retireTime sampleParts)).length :=
    steps_le_records sampleLayout_loaded rfl
  have hsteps : sampleLayout.steps = 23 := by decide
  rw [Nat.zero_add, hsteps] at hlen
  cases hr : records socConfig (socAnswers sampleParts sampleIn) (23 * retireTime sampleParts) with
  | nil =>
    rw [hr] at hlen
    cases hlen
  | cons r rest =>
    rw [hr] at hreports
    cases cycles with
    | nil => cases hreports
    | cons x cycles =>
      obtain ⟨hfirst, -⟩ := List.forall₂_cons.mp hreports
      rw [sample_first] at hfirst
      exact ⟨r, rest, rfl, hfirst.pcRdata, hfirst.insn, hfirst.trap, hfirst.rd⟩

theorem sample_retires : ∃ u < retireTime sampleParts,
    (socAt sampleParts sampleIn (u + 1)).cpu.rvfi.valid = true := by
  obtain ⟨u, -, hu, hvalid | helse⟩ := (soc_retires_within sampleParts sampleIn).1 0
  · exact ⟨u, by omega, hvalid⟩
  · by_cases hnone : (records socConfig (socAnswers sampleParts sampleIn) (u + 1)).length = 0
    · refine absurd helse (here_of_safe (safe_from sampleLayout_loaded (t := 0) rfl (by omega) ?_))
      rw [hnone]
      decide
    · obtain ⟨v, hvu, r, hr, -⟩ := exists_of_lt_length_log (Nat.pos_of_ne_zero hnone)
      refine ⟨v, by omega, ?_⟩
      rw [socAt_cpu]
      exact valid_of_record (by rw [hr]; exact Option.some_ne_none _)

end Icicle
