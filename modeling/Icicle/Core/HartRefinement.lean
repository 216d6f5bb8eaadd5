import Icicle.Core.HartStep
import Icicle.Core.Refinement

/-! The core is a hart of RV32I: the RVFI records of a run are the instructions that the
hart of the manual executes, on a memory or on whatever the buses answer. -/
namespace Icicle
open Wishbone Bytes Icicle.Sequential

section Run
variable {cfg : Config} {bus : ℕ → CpuIn} {m : Storage} {init : BitVec 30 → Word}

/-- The machine at the reset vector, with registers that are zero. -/
def hartReset (cfg : Config) (mem : Rv32i.Memory) : Rv32i.Machine where
  hart := { pc := cfg.resetVector, regs := Rv32i.Regs.reset }
  mem := mem

variable (cfg bus m init) in
/-- The core at the start of cycle `t` has retired what leads to the machine `h`. -/
def Executes (t : ℕ) (h : Rv32i.Machine) : Prop :=
  ∃ a x0, Simulates cfg bus m init t a ∧ h = a.machine x0

theorem executes_reset : Executes cfg bus m init 0 (hartReset cfg (bytes init)) :=
  ⟨Arch.reset cfg init, rfl, simulates_reset, rfl⟩

theorem Executes.stutter (henv : Environment cfg bus m init) {t : ℕ} {h : Rv32i.Machine}
    (hh : Executes cfg bus m init t h) (hn : retirement cfg bus t = none) :
    Executes cfg bus m init (t + 1) h := by
  obtain ⟨a, x0, hsim, rfl⟩ := hh
  exact ⟨a, x0, hsim.stutter henv hn, rfl⟩

theorem Executes.retire (henv : Environment cfg bus m init) {t : ℕ} {h : Rv32i.Machine}
    (hh : Executes cfg bus m init t h) {r : Retirement} (hr : retirement cfg bus t = some r) :
    r.rvfi.Reports cfg.handler (h.next m.platform cfg.handler).1 ∧
      Executes cfg bus m init (t + 1) (h.next m.platform cfg.handler).2 := by
  obtain ⟨a, x0, hsim, rfl⟩ := hh
  obtain ⟨hrvfi, hsim'⟩ := hsim.retire henv hr
  obtain ⟨x0', hnext⟩ := next_machine cfg (m := m) x0
  refine ⟨?_, (next cfg m a).2, x0', hsim', hnext.symm⟩
  rw [hrvfi]
  exact record_reports x0

/-- The data memory behind the token in writeback, if there is one. -/
theorem Executes.dmem {t : ℕ} {h : Rv32i.Machine} (hh : Executes cfg bus m init t h) :
    bytes (dmemAt cfg bus init t) = if (stateAt cfg bus t).mw.state = .bubble then h.mem
      else (h.next m.platform cfg.handler).2.mem := by
  obtain ⟨a, x0, hsim, rfl⟩ := hh
  split
  next hb =>
    rw [hsim.idle hb]
    rfl
  next hb =>
    obtain ⟨v₁, v₂, p, hmw, hp, hdmem⟩ := hsim.token hb
    obtain ⟨x0', hnext⟩ := next_machine cfg (m := m) x0
    have hupdate : update a.dmem (unit m a v₁ v₂).bus p = (next cfg m a).2.dmem :=
      unit_update_eq (hsim.agrees hb hmw).observes hp
    rw [← hnext, hdmem, hupdate]
    rfl

variable (cfg m init) in
/-- The hart after `n` instructions. -/
def hartAfter (n : ℕ) : Rv32i.Machine :=
  Clocked.after (Rv32i.Machine.next m.platform cfg.handler) (hartReset cfg (bytes init)) n

theorem executes_run (henv : Environment cfg bus m init) (t : ℕ) :
    List.Forall₂ (RVFI.Reports cfg.handler) (records cfg bus t)
      (Clocked.trace (Rv32i.Machine.next m.platform cfg.handler) (hartReset cfg (bytes init))
        (records cfg bus t).length) ∧
    Executes cfg bus m init t (hartAfter cfg m init (records cfg bus t).length) :=
  Clocked.log_simulates (e := recordAt cfg bus)
    (S := RVFI.Reports cfg.handler) (R := Executes cfg bus m init)
    (Rv32i.Machine.next m.platform cfg.handler) executes_reset
    (fun u h hh he => hh.stutter henv (by simpa [recordAt_eq] using he))
    (fun u h w hh he => by
      rw [recordAt_eq] at he
      obtain ⟨r, hr, rfl⟩ := Option.map_eq_some_iff.mp he
      exact hh.retire henv hr) t

/-- The core executes RV32I: with any wait states of the two buses, its RVFI records are the
instructions of the manual, one after the other, and its registers and its data memory are
those of the hart. The memory is ahead by the token in writeback at most. -/
theorem records_report_hart (henv : Environment cfg bus m init) (t : ℕ) :
    List.Forall₂ (RVFI.Reports cfg.handler) (records cfg bus t)
      (Clocked.trace (Rv32i.Machine.next m.platform cfg.handler) (hartReset cfg (bytes init))
        (records cfg bus t).length) ∧
    (stateAt cfg bus t).pcW = (hartAfter cfg m init (records cfg bus t).length).hart.pc ∧
    (stateAt cfg bus t).regs.regs =
      (hartAfter cfg m init (records cfg bus t).length).hart.regs.x ∧
    bytes (dmemAt cfg bus init t) = (hartAfter cfg m init ((records cfg bus t).length +
      if (stateAt cfg bus t).mw.state = .bubble then 0 else 1)).mem := by
  obtain ⟨htrace, hexec⟩ := executes_run henv t
  have hmem := hexec.dmem
  obtain ⟨a, x0, hsim, ha⟩ := hexec
  refine ⟨htrace, ?_, ?_, ?_⟩
  · rw [hsim.pc, ha]
    rfl
  · rw [hsim.regs, ha]
    rfl
  · rw [hmem]
    split_ifs <;> rfl

/-- `storeAndLoad` leaves the 5 that it stores and loads in `x2` of the hart. -/
theorem storeAndLoad_executes :
    (records {} (answersAt {} storeAndLoad (fun _ => 0) alternate) 15).length = 4 ∧
      (hartAfter {} storeAndLoad (fun _ => 0) 4).hart.regs.x 2 = 5 := by
  have hlen : (records {} (answersAt {} storeAndLoad (fun _ => 0) alternate) 15).length = 4 := by
    decide +kernel
  have hregs := (records_report_hart
    (system_environment {} storeAndLoad (fun _ => 0) alternate) 15).2.2.1
  rw [hlen] at hregs
  refine ⟨hlen, ?_⟩
  rw [← hregs]
  decide +kernel

end Run

namespace Sequential
variable {cfg : Config} {m : Storage} {a : Arch} {v₁ v₂ : Word} {p : Response}

/-- The bytes that a request stores, once it is answered. -/
def stored (r : Request 30) (p : Response) (b : Word) : Option (BitVec 8) :=
  if stores r p && (b.extractLsb' 2 30 == r.adr && r.sel.getLsbD (b.extractLsb' 0 2).toNat) then
    some (byte r.datW (b.extractLsb' 0 2).toNat)
  else none

theorem unit_stores (hobs : Insn.Observes (operands m a v₁ v₂) (insn m a))
    (hp : Answers m a.dmem (unit m a v₁ v₂).bus p) (hstore : (insn m a).control.memStore = true) :
    stores (unit m a v₁ v₂).bus p = !trap m a := by
  have hwe : (unit m a v₁ v₂).bus.we = (insn m a).control.memStore := by rw [unit_eq]; rfl
  have hacc : accesses m a = true := by simp [accesses, hstore]
  obtain ⟨-, hadr, hmask, -, -⟩ := unit_access hobs hacc
  have hsel : (unit m a v₁ v₂).bus.sel = (insn m a).align.mask := hmask
  have hreq := unit_requesting hobs
  rw [trap_of_accesses hacc, Bool.not_not, stores, handshake, hreq, hwe, hstore]
  cases hacs : access m a with
  | false => rfl
  | true =>
    have hans := hp.answers (hreq.trans hacs)
    have herr := hp.err (hreq.trans hacs)
    rw [hadr, hsel, hwe] at herr
    rw [hans, herr, error, hacs]
    rfl

/-- What the record says about stores is what the bus carried. -/
theorem record_stored (hobs : Insn.Observes (operands m a v₁ v₂) (insn m a))
    (hp : Answers m a.dmem (unit m a v₁ v₂).bus p) :
    (record cfg m a).writes = stored (unit m a v₁ v₂).bus p := by
  funext b
  have hmask : (record cfg m a).memWmask =
      if !trap m a && (insn m a).control.memStore then (insn m a).align.mask else 0 := rfl
  have hwe : (unit m a v₁ v₂).bus.we = (insn m a).control.memStore := by rw [unit_eq]; rfl
  cases hstore : (insn m a).control.memStore with
  | false =>
    rw [hstore, Bool.and_false] at hmask
    rw [RVFI.writes_of_mask hmask]
    simp [stored, stores, hwe, hstore]
  | true =>
    have hacc : accesses m a = true := by simp [accesses, hstore]
    obtain ⟨-, hadr, hsel, -, -⟩ := unit_access hobs hacc
    have hdat : (unit m a v₁ v₂).bus.datW = (insn m a).align.wdataAligned := unit_wdata hobs hstore
    rw [hstore, Bool.and_true] at hmask
    rw [stored, unit_stores hobs hp hstore]
    cases ht : trap m a with
    | true =>
      rw [ht] at hmask
      rw [RVFI.writes_of_mask hmask]
      rfl
    | false =>
      have haddr : (record cfg m a).memAddr = (insn m a).align.addrAligned := by
        simp [record, ht, hacc]
      have hwdata : (record cfg m a).memWdata = (insn m a).align.wdataAligned := by
        simp [record, ht, hstore]
      rw [ht] at hmask
      rw [RVFI.writes, RVFI.selects, hmask, haddr, hwdata, hadr, hdat]
      rw [show (unit m a v₁ v₂).bus.sel = (insn m a).align.mask from hsel]
      rfl

end Sequential

section Answers
variable (cfg : Config) (bus : ℕ → CpuIn)

/-- The request that was answered in cycle `c` is the fetch of an instruction, and the one
in cycle `u` its access. A request without an access of the instruction is refused. -/
structure Transacted (c u : ℕ) (s : Rv32i.Step) : Prop where
  fetch : 4 ∣ s.before.hart.pc.toNat → handshake (ibusAt cfg bus c) (bus c).ibus = true ∧
    (ibusAt cfg bus c).adr ++ 0#2 = s.before.hart.pc
  access : ∀ a, s.access = some a → handshake (dbusAt cfg bus u) (bus u).dbus = true ∧
    (dbusAt cfg bus u).adr ++ 0#2 = Rv32i.alignDown a.address ∧
    (dbusAt cfg bus u).we = a.isStore ∧ (dbusAt cfg bus u).sel = a.lanes
  quiet : s.access = none → handshake (dbusAt cfg bus u) (bus u).dbus = true →
    (bus u).dbus.err = true
  writes : s.writes = stored (dbusAt cfg bus u) (bus u).dbus

/-- A storage that gives the answers of cycle `c` to a fetch and of cycle `u` to an access. -/
structure Gives (m : Storage) (dmem : BitVec 30 → Word) (c u : ℕ) : Prop where
  fetch : handshake (ibusAt cfg bus c) (bus c).ibus = true →
    m.imem (ibusAt cfg bus c).adr =
      if (bus c).ibus.err then none else some (bus c).ibus.datR
  data : handshake (dbusAt cfg bus u) (bus u).dbus = true →
    (bus u).dbus.err = m.faults (dbusAt cfg bus u).adr (dbusAt cfg bus u).sel
        (dbusAt cfg bus u).we ∧
      ((bus u).dbus.err = false → (dbusAt cfg bus u).we = false →
        (bus u).dbus.datR = dmem (dbusAt cfg bus u).adr)

variable {cfg bus} {c u : ℕ} {m : Storage} {a : Arch} {v₁ v₂ : Word}

theorem Gives.answers {dmem : BitVec 30 → Word} (h : Gives cfg bus m dmem c u)
    (hp : pending (dbusAt cfg bus u) (bus u).dbus = false) :
    Answers m dmem (dbusAt cfg bus u) (bus u).dbus := by
  have hhand : (dbusAt cfg bus u).requesting = true →
      handshake (dbusAt cfg bus u) (bus u).dbus = true := fun hreq =>
    (handshake_or_pending hreq).resolve_right (by simp [hp])
  refine ⟨?_, ?_, ?_⟩
  · intro hreq
    exact (Bool.and_eq_true_iff.mp (hhand hreq)).2
  · intro hreq
    exact (h.data (hhand hreq)).1
  · intro hreq
    exact (h.data (hhand hreq)).2

/-- What fetch accepts, for any storage that gives the answer. -/
theorem Accepted.eq_fd {i : FD} (h : Accepted cfg bus c i) (ha : a.pc = i.pcRdata)
    (hm : handshake (ibusAt cfg bus c) (bus c).ibus = true → m.imem (ibusAt cfg bus c).adr =
      if (bus c).ibus.err then none else some (bus c).ibus.datR) : i = fd m a := by
  have hpc : a.pc = (stateAt cfg bus c).pf.pcRdata := by
    rw [ha, h.token]
    rfl
  have hadr : (ibusAt cfg bus c).adr = a.pc.extractLsb' 2 30 := by rw [h.ibus_adr, ha]
  rw [hadr] at hm
  unfold fd
  cases ht : (Fetch.loadStore (stateAt cfg bus c).pf false false).trap (bus c).ibus with
  | false =>
    obtain ⟨hhand, herr, -, hinsn⟩ := h.word ht
    obtain ⟨-, hfault, hstate⟩ := Fetch.token_of_not_trap ht
    rw [← h.token] at hfault hstate
    have hal : a.pc.extractLsb' 0 2 = 0#2 := by
      rw [hpc]
      simp only [LoadStore.trap, Bool.and_eq_false_iff, Bool.or_eq_false_iff] at ht
      rcases ht with ht | ht
      · exact absurd ht (by simp [Fetch.loadStore])
      · exact bne_eq_false_iff_eq.mp ht.1
    have hfetched : fetched m a = some (bus c).ibus.datR := by
      unfold fetched
      rw [if_pos hal, hm hhand, herr]
      rfl
    rw [hfetched]
    exact FD.ext (by rw [hstate, h.valid]) ha.symm hinsn hfault
  | true =>
    have hbus : ibusAt cfg bus c = (Fetch.loadStore (stateAt cfg bus c).pf false false).bus :=
      h.ibus_eq
    obtain ⟨hinsn, hfault, hstate⟩ := Fetch.token_of_trap h.valid ht
    rw [← h.token] at hinsn hfault hstate
    have hfetched : fetched m a = none := by
      unfold fetched
      rcases ((LoadStore.trap_iff _ _).mp ht).2 with hmis | ⟨hhand, herr⟩
      · exact if_neg (by rw [hpc]; exact bne_iff_ne.mp hmis)
      · rw [hm (by rwa [hbus]), if_pos herr, ite_self]
    rw [hfetched]
    exact FD.ext hstate ha.symm hinsn hfault

/-- Operands that are what the registers of a machine hold. -/
theorem agrees_of_operands
    (h : ∀ o ∈ (executed (fd m a) v₁ v₂).operands, o.reads → o.data = a.regs o.rs) :
    Insn.Agrees (operands m a v₁ v₂) (insn m a) := by
  have hoperands : (executed (fd m a) v₁ v₂).operands =
      [⟨(insn m a).control.rs1Ren, (insn m a).control.rs1, v₁⟩,
        ⟨(insn m a).control.rs2Ren, (insn m a).control.rs2, v₂⟩] := by
    rw [← control_fd]
    rfl
  rw [hoperands] at h
  refine ⟨rfl, rfl, ?_, ?_⟩
  · intro hren
    exact h ⟨(insn m a).control.rs1Ren, (insn m a).control.rs1, v₁⟩ (by simp) hren
  · intro hren
    exact h ⟨(insn m a).control.rs2Ren, (insn m a).control.rs2, v₂⟩ (by simp) hren

/-- The operands of the token in writeback, for any state with the registers of the core. -/
theorem agrees_of_mw {t : ℕ} {p : Response}
    (hregs : (stateAt cfg bus t).regs.regs = a.regs) (hb : (stateAt cfg bus t).mw.state ≠ .bubble)
    (hmw : (stateAt cfg bus t).mw = MemoryAccess.token cfg (executed (fd m a) v₁ v₂) p) :
    Insn.Agrees (operands m a v₁ v₂) (insn m a) := by
  have hread := (core_interlocked cfg bus t).mw hb
  rw [hmw, MemoryAccess.token_operands, hregs] at hread
  exact agrees_of_operands hread

/-- A fetch that is accepted has been answered, unless its address is misaligned. -/
theorem Accepted.transacted {i : FD} (h : Accepted cfg bus c i)
    (hal : 4 ∣ i.pcRdata.toNat) : handshake (ibusAt cfg bus c) (bus c).ibus = true ∧
      (ibusAt cfg bus c).adr ++ 0#2 = i.pcRdata := by
  have hbus : ibusAt cfg bus c = (Fetch.loadStore (stateAt cfg bus c).pf false false).bus :=
    h.ibus_eq
  have hpc : i.pcRdata = (stateAt cfg bus c).pf.pcRdata := by
    rw [h.token]
    rfl
  refine ⟨?_, ?_⟩
  · cases ht : (Fetch.loadStore (stateAt cfg bus c).pf false false).trap (bus c).ibus with
    | false => exact (h.word ht).1
    | true =>
      rcases ((LoadStore.trap_iff _ _).mp ht).2 with hmis | ⟨hhand, -⟩
      · have hzero : i.pcRdata.extractLsb' 0 2 = 0#2 := (aligned_iff _).mpr hal
        rw [hpc] at hzero
        exact absurd hzero (bne_iff_ne.mp hmis)
      · rwa [hbus]
  · rw [h.ibus_adr]
    exact Rv32i.alignDown_of_dvd hal

/-- The access of an instruction that does not trap is answered in the cycle in which it
leaves memory access. -/
theorem transacted_access (x0 : a.regs 0 = 0) (hbus : dbusAt cfg bus u = (unit m a v₁ v₂).bus)
    (hpend : pending (dbusAt cfg bus u) (bus u).dbus = false)
    (hobs : Insn.Observes (operands m a v₁ v₂) (insn m a)) {acc : Rv32i.Access}
    (hacc : ((a.machine x0).step m.platform).access = some acc) :
    handshake (dbusAt cfg bus u) (bus u).dbus = true ∧
      (dbusAt cfg bus u).adr ++ 0#2 = Rv32i.alignDown acc.address ∧
      (dbusAt cfg bus u).we = acc.isStore ∧ (dbusAt cfg bus u).sel = acc.lanes := by
  have ht : trap m a = false := by
    by_contra ht
    obtain ⟨x, hx⟩ := outcome_of_trap x0 (eq_true_of_ne_false ht)
    rw [Rv32i.Step.access, hx] at hacc
    cases hacc
  obtain ⟨i, -, himp, haccess⟩ := step_access x0 ht
  have hmakes := himp.makes (haccess.symm.trans hacc)
  have hload : Sequential.accesses m a = true := by
    rw [Sequential.accesses, hmakes.memLoad, hmakes.memStore]
    cases acc.isStore <;> rfl
  obtain ⟨-, hadr, hmask, -⟩ := unit_access hobs hload
  have hreq := (unit_requesting hobs).trans ((access_of_not_trap ht).2 hload).1
  rw [hbus] at hpend ⊢
  refine ⟨(handshake_or_pending hreq).resolve_right (by simp [hpend]), ?_, ?_, ?_⟩
  · rw [hadr, adr, hmakes.adr]
    rfl
  · rw [← hmakes.memStore, unit_eq]
    rfl
  · exact hmask.trans (hmakes.mask (aligned_of_not_trap ht hmakes))

/-- An answer without an error completes an access of the instruction. -/
theorem refused_of_no_access (x0 : a.regs 0 = 0)
    (hbus : dbusAt cfg bus u = (unit m a v₁ v₂).bus)
    (hp : Answers m a.dmem (unit m a v₁ v₂).bus (bus u).dbus)
    (hobs : Insn.Observes (operands m a v₁ v₂) (insn m a))
    (hnone : ((a.machine x0).step m.platform).access = none)
    (hhand : handshake (dbusAt cfg bus u) (bus u).dbus = true) : (bus u).dbus.err = true := by
  have hreq := (Bool.and_eq_true_iff.mp hhand).1
  rw [hbus] at hreq
  have hacs := (unit_requesting hobs).symm.trans hreq
  have hacc : Sequential.accesses m a = true := by
    unfold access at hacs
    rw [Bool.and_eq_true, Bool.and_eq_true] at hacs
    exact hacs.1.2
  by_contra herr
  have ht : trap m a = false := by
    obtain ⟨-, hadr, hmask, -, -⟩ := unit_access hobs hacc
    have hsel : (unit m a v₁ v₂).bus.sel = (insn m a).align.mask := hmask
    have hwe : (unit m a v₁ v₂).bus.we = (insn m a).control.memStore := by rw [unit_eq]; rfl
    have hfault := hp.err hreq
    rw [hadr, hsel, hwe, eq_false_of_ne_true herr] at hfault
    rw [trap_of_accesses hacc, error, hacs, ← hfault]
    rfl
  obtain ⟨i, -, himp, haccess⟩ := step_access x0 ht
  have hquiet := himp.noAccess (haccess.symm.trans hnone)
  simp [Sequential.accesses, hquiet] at hacc

/-- What retires is the next instruction of a machine whose storage gives the answers that
its fetch and its access had. -/
theorem retirement_executes {r : Retirement} (hr : retirement cfg bus (u + 1) = some r)
    {dmem : BitVec 30 → Word} (hgives : Gives cfg bus m dmem (tagsAt cfg bus u).xm u)
    {h : Rv32i.Hart} (hpc : (stateAt cfg bus (u + 1)).pcW = h.pc)
    (hregs : (stateAt cfg bus (u + 1)).regs.regs = h.regs.x) :
    let (s, after) := Rv32i.Machine.next m.platform cfg.handler ⟨h, bytes dmem⟩
    r.rvfi.Reports cfg.handler s ∧ Transacted cfg bus (tagsAt cfg bus u).xm u s ∧
      (stateAt cfg bus (u + 2)).pcW = after.hart.pc ∧
      (stateAt cfg bus (u + 2)).regs.regs = after.hart.regs.x ∧
      after.mem = bytes (update dmem (dbusAt cfg bus u) (bus u).dbus) := by
  obtain ⟨hb, ht, hv⟩ := retirement_eq_some.mp hr
  have hdepart : departure cfg bus u = some ((stateAt cfg bus u).xm, r) := by
    rw [departure, hr]
    rfl
  obtain ⟨hxb, hpend, -, htoken, -⟩ := departure_eq_some.mp hdepart
  obtain ⟨i, v₁, v₂, hacc, hx⟩ := (traced cfg bus u).xm hxb
  set a : Arch :=
    { pc := h.pc
      regs := h.regs.x
      dmem := dmem
      order := (stateAt cfg bus (u + 1)).rvfi.order } with hadef
  have x0 : a.regs 0 = 0 := h.regs.x0
  have hmw : (stateAt cfg bus (u + 1)).mw =
      MemoryAccess.token cfg (executed i v₁ v₂) (bus u).dbus := by
    rw [← ht, htoken, hx]
  have hpci : a.pc = i.pcRdata := by
    rw [hadef, ← hpc, Cpu.pcW, if_neg hb, hmw]
    rfl
  obtain rfl : i = fd m a := hacc.eq_fd hpci hgives.fetch
  have hag := agrees_of_mw hregs hb hmw
  have hbus : dbusAt cfg bus u = (unit m a v₁ v₂).bus := by
    unfold dbusAt Cpu.dbus
    rw [hx]
    rfl
  have hp : Answers m a.dmem (unit m a v₁ v₂).bus (bus u).dbus := by
    have hanswers := hgives.answers hpend
    rwa [hbus] at hanswers
  have hnext : Rv32i.Machine.next m.platform cfg.handler ⟨h, bytes dmem⟩ =
      ((a.machine x0).step m.platform, ((a.machine x0).next m.platform cfg.handler).2) := rfl
  obtain ⟨x0', hmachine⟩ := next_machine cfg (m := m) x0
  rw [hnext]
  refine ⟨?_, ⟨fun hal => ?_, fun acc hacc' => ?_, fun hnone => ?_, ?_⟩, ?_, ?_, ?_⟩
  · rw [hv, hmw, token_record_eq hag hp rfl]
    exact record_reports x0
  · rw [step_before] at hal ⊢
    have hpc' : (a.machine x0).hart.pc = (fd m a).pcRdata := hpci
    rw [hpc'] at hal ⊢
    exact hacc.transacted hal
  · exact transacted_access x0 hbus hpend hag.observes hacc'
  · exact refused_of_no_access x0 hbus hp hag.observes hnone
  · have hstored : (record cfg m a).writes = stored (unit m a v₁ v₂).bus (bus u).dbus :=
      record_stored hag.observes hp
    rw [hbus, ← hstored]
    exact (record_writes x0).symm
  · rw [pcW_succ_of_some hr, ht, hmw, token_pcWdata_eq hag.observes hp, ← hmachine]
    rfl
  · rw [← hmachine]
    funext k
    rw [stateAt_succ, Cpu.step_regs, hregs, hmw]
    exact token_write_eq hag.observes hp k
  · have hupdate : update a.dmem (unit m a v₁ v₂).bus (bus u).dbus = (next cfg m a).2.dmem :=
      unit_update_eq hag.observes hp
    rw [← hmachine, hbus, hupdate]
    rfl

/-- A request on the data bus is the access of the next instruction to retire, if that
instruction completes. -/
theorem access_of_requesting (dmem : BitVec 30 → Word)
    (hfetch : handshake (ibusAt cfg bus (tagsAt cfg bus u).xm)
        (bus (tagsAt cfg bus u).xm).ibus = true →
      m.imem (ibusAt cfg bus (tagsAt cfg bus u).xm).adr =
        if (bus (tagsAt cfg bus u).xm).ibus.err then none
        else some (bus (tagsAt cfg bus u).xm).ibus.datR)
    {h : Rv32i.Hart} (hpc : (stateAt cfg bus (u + 1)).pcW = h.pc)
    (hregs : (stateAt cfg bus (u + 1)).regs.regs = h.regs.x)
    (hreq : (dbusAt cfg bus u).requesting = true)
    (hok : (Rv32i.Machine.step m.platform ⟨h, bytes dmem⟩).raises = false) :
    ∃ acc, (Rv32i.Machine.step m.platform ⟨h, bytes dmem⟩).access = some acc ∧
      (dbusAt cfg bus u).adr = acc.address.extractLsb' 2 30 := by
  have hxb : (stateAt cfg bus u).xm.state ≠ .bubble := by
    have hv := ((LoadStore.requesting_iff _).mp hreq).1
    rw [beq_iff_eq.mp hv]
    decide
  obtain ⟨i, v₁, v₂, hacc, hx⟩ := (traced cfg bus u).xm hxb
  set a : Arch := { pc := h.pc, regs := h.regs.x, dmem := dmem, order := 0 } with hadef
  have x0 : a.regs 0 = 0 := h.regs.x0
  have hpci : a.pc = i.pcRdata := by
    rw [hadef, ← hpc, stateAt_succ, Cpu.pcW_step, Cpu.pcM, if_neg hxb, hx]
    rfl
  obtain rfl : i = fd m a := hacc.eq_fd hpci hfetch
  have hread := (core_interlocked cfg bus u).mem cfg (bus u) hxb
  rw [hx, ← stateAt_succ, hregs] at hread
  have hobs := (agrees_of_operands hread).observes
  have hbus : dbusAt cfg bus u = (unit m a v₁ v₂).bus := by
    unfold dbusAt Cpu.dbus
    rw [hx]
    rfl
  rw [hbus] at hreq ⊢
  have hacs := (unit_requesting hobs).symm.trans hreq
  have haccesses : Sequential.accesses m a = true := by
    unfold access at hacs
    rw [Bool.and_eq_true, Bool.and_eq_true] at hacs
    exact hacs.1.2
  have hstep : Rv32i.Machine.step m.platform ⟨h, bytes dmem⟩ = (a.machine x0).step m.platform := rfl
  rw [hstep] at hok ⊢
  have ht : trap m a = false := by
    by_contra ht
    obtain ⟨x, hx⟩ := outcome_of_trap x0 (eq_true_of_ne_false ht)
    rw [Rv32i.Step.raises, hx] at hok
    cases hok
  obtain ⟨i, -, himp, haccess⟩ := step_access x0 ht
  cases hia : i.access (insn m a).rs1Rdata with
  | none =>
    have hquiet := himp.noAccess hia
    simp [Sequential.accesses, hquiet] at haccesses
  | some acc =>
    refine ⟨acc, haccess.trans hia, ?_⟩
    rw [(unit_access hobs haccesses).2.1, adr, (himp.makes hia).adr]

/-- What the buses answered to the fetch and to the access of an instruction. -/
structure Answered where
  fetch : Response
  data : Response

namespace Answered

/-- The storage that gives these answers and no others. -/
def storage (x : Answered) : Storage where
  imem _ := if x.fetch.err then none else some x.fetch.datR
  faults _ _ _ := x.data.err

def dmem (x : Answered) : BitVec 30 → Word := fun _ => x.data.datR

end Answered

variable (bus) in
/-- The answers in the given cycles. -/
def answered (x : ℕ × ℕ) : Answered := ⟨(bus x.1).ibus, (bus x.2).dbus⟩

theorem answered_gives (c u : ℕ) :
    Gives cfg bus (answered bus (c, u)).storage (answered bus (c, u)).dmem c u :=
  ⟨fun _ => rfl, fun _ => ⟨rfl, fun _ _ => rfl⟩⟩

variable (cfg bus) in
/-- The instruction that retires in cycle `t`: its record, the cycles of its fetch and of
its access, and what was answered in them. -/
def executionAt (t : ℕ) : Option ((RVFI × ℕ × ℕ) × Answered) :=
  (retirement cfg bus t).map fun r =>
    let c := (tagsAt cfg bus (t - 1)).xm
    ((r.rvfi, c, t - 1), answered bus (c, t - 1))

theorem tags_of_retirement {r : Retirement} (hr : retirement cfg bus (u + 1) = some r) :
    (tagsAt cfg bus (u + 1)).mw = (tagsAt cfg bus u).xm := by
  have hdepart : departure cfg bus u = some ((stateAt cfg bus u).xm, r) := by
    rw [departure, hr]
    rfl
  obtain ⟨-, hpend, -⟩ := departure_eq_some.mp hdepart
  exact Cpu.tags_redirect hpend (tagsAt cfg bus u) u

variable (cfg bus) in
/-- The cycles of the fetch and of the access of each instruction that has retired. -/
def executionCycles (t : ℕ) : List (ℕ × ℕ) :=
  (Clocked.log (executionAt cfg bus) t).map fun x => x.1.2

/-- Fetches and accesses are answered in program order. -/
theorem executionCycles_pairwise (t : ℕ) :
    (executionCycles cfg bus t).Pairwise fun x y => x.1 < y.1 ∧ x.2 < y.2 := by
  rw [executionCycles, ← Clocked.log_map]
  refine Clocked.log_pairwise (fun u v a b huv ha hb => ?_) t
  obtain ⟨_, ha', rfl⟩ := Option.map_eq_some_iff.mp ha
  obtain ⟨_, hb', rfl⟩ := Option.map_eq_some_iff.mp hb
  obtain ⟨ra, hra, rfl⟩ := Option.map_eq_some_iff.mp ha'
  obtain ⟨rb, hrb, rfl⟩ := Option.map_eq_some_iff.mp hb'
  cases u with
  | zero => exact absurd rfl (retirement_eq_some.mp hra).1
  | succ u =>
    cases v with
    | zero => omega
    | succ v =>
      have hlt := tags_mw_lt huv (retirement_eq_some.mp hra).1 (retirement_eq_some.mp hrb).1
      rw [tags_of_retirement hra, tags_of_retirement hrb] at hlt
      exact ⟨hlt, Nat.lt_of_succ_lt_succ huv⟩

/-- Every answer of the data bus is the one to an instruction that retires. -/
theorem mem_executionCycles {t : ℕ} (hu : u + 1 < t)
    (hhand : handshake (dbusAt cfg bus u) (bus u).dbus = true) :
    u ∈ (executionCycles cfg bus t).map Prod.snd := by
  obtain ⟨hreq, hans⟩ := Bool.and_eq_true_iff.mp hhand
  have hx : (stateAt cfg bus u).xm.state ≠ .bubble := by
    have hv := ((LoadStore.requesting_iff _).mp hreq).1
    rw [beq_iff_eq.mp hv]
    nofun
  have hp : pending (dbusAt cfg bus u) (bus u).dbus = false := by simp [pending, hans]
  have hdepart := departure_of_answered hx hp
  obtain ⟨r, hr, -⟩ := Option.map_eq_some_iff.mp hdepart
  have hexec : executionAt cfg bus (u + 1) = some ((r.rvfi, (tagsAt cfg bus u).xm, u),
      answered bus ((tagsAt cfg bus u).xm, u)) := by
    rw [executionAt, hr]
    rfl
  rw [executionCycles, List.map_map]
  exact List.mem_map.mpr ⟨_, Clocked.mem_log.mpr ⟨u + 1, hu, hexec⟩, rfl⟩

/-- A machine that is given, instruction by instruction, what the buses answered: if each
retirement is one of its steps, the records are what it executes. -/
theorem executes_of_retirements {A : Type*} (next : A → Answered → Rv32i.Step × A) {a : A}
    {R : ℕ → A → Prop} (h0 : R 0 a)
    (hstutter : ∀ t b, R t b → retirement cfg bus t = none → R (t + 1) b)
    (hstep : ∀ u b r, R (u + 1) b → retirement cfg bus (u + 1) = some r →
      let c := (tagsAt cfg bus u).xm
      let (s, b') := next b (answered bus (c, u))
      r.rvfi.Reports cfg.handler s ∧ Transacted cfg bus c u s ∧ R (u + 2) b') (t : ℕ) :
    let run := Clocked.play next a ((executionCycles cfg bus t).map (answered bus))
    List.Forall₂ (RVFI.Reports cfg.handler) (records cfg bus t) run.1 ∧
      List.Forall₂ (fun x s => Transacted cfg bus x.1 x.2 s) (executionCycles cfg bus t) run.1 ∧
      R t run.2 := by
  obtain ⟨hplay, hR⟩ := Clocked.log_plays (e := executionAt cfg bus)
    (S := fun x s => RVFI.Reports cfg.handler x.1 s ∧ Transacted cfg bus x.2.1 x.2.2 s)
    (R := R) next h0
    (fun u b hR he => hstutter u b hR (Option.map_eq_none_iff.mp he))
    (fun u b w x hR he => by
      obtain ⟨r, hr, hw⟩ := Option.map_eq_some_iff.mp he
      cases u with
      | zero => exact absurd rfl (retirement_eq_some.mp hr).1
      | succ u =>
        obtain ⟨rfl, rfl⟩ := Prod.mk.inj hw
        obtain ⟨hreports, htrans, hR'⟩ := hstep u b r hR hr
        exact ⟨⟨hreports, htrans⟩, hR'⟩) t
  have hrecords : records cfg bus t =
      (Clocked.log (executionAt cfg bus) t).map fun x => x.1.1 := by
    have he : recordAt cfg bus = fun u => (executionAt cfg bus u).map fun x => x.1.1 := by
      funext u
      rw [recordAt_eq, executionAt, Option.map_map]
      rfl
    rw [records, he, Clocked.log_map]
  have hanswers : (Clocked.log (executionAt cfg bus) t).map Prod.snd =
      (executionCycles cfg bus t).map (answered bus) := by
    rw [executionCycles, List.map_map]
    refine List.map_congr_left fun x hx => ?_
    obtain ⟨u, -, hu⟩ := Clocked.mem_log.mp hx
    obtain ⟨r, -, rfl⟩ := Option.map_eq_some_iff.mp hu
    rfl
  rw [hanswers] at hplay hR
  refine ⟨?_, ?_, hR⟩
  · rw [hrecords]
    rw [List.forall₂_map_left_iff] at hplay ⊢
    exact hplay.imp fun _ _ h => h.1
  · rw [executionCycles]
    rw [List.forall₂_map_left_iff] at hplay ⊢
    exact hplay.imp fun _ _ h => h.2

/-- One instruction of a hart that is given the answers. -/
def hartNext (cfg : Config) (h : Rv32i.Hart) (x : Answered) : Rv32i.Step × Rv32i.Hart :=
  let (s, after) := Rv32i.Machine.next x.storage.platform cfg.handler ⟨h, bytes x.dmem⟩
  (s, after.hart)

theorem regs_succ_of_none {t : ℕ} (hn : retirement cfg bus t = none) :
    (stateAt cfg bus (t + 1)).regs.regs = (stateAt cfg bus t).regs.regs := by
  funext k
  rw [stateAt_succ, Cpu.step_regs, Cpu.writes_of_bubble (retirement_eq_none.mp hn)]
  rfl

/-- The core executes RV32I on any answers of the two buses: its RVFI records are the
instructions of a hart that is given, instruction by instruction, what the buses answered to
its own fetch and its own access, in cycles that are in program order. Nothing else is
answered on the data bus. -/
theorem records_execute (cfg : Config) (bus : ℕ → CpuIn) (t : ℕ) :
    ∃ cycles : List (ℕ × ℕ), cycles.Pairwise (fun x y => x.1 < y.1 ∧ x.2 < y.2) ∧
      (∀ u, u + 1 < t → handshake (dbusAt cfg bus u) (bus u).dbus = true →
        u ∈ cycles.map Prod.snd) ∧
      let run := Clocked.play (hartNext cfg) ⟨cfg.resetVector, Rv32i.Regs.reset⟩
        (cycles.map (answered bus))
      List.Forall₂ (RVFI.Reports cfg.handler) (records cfg bus t) run.1 ∧
        List.Forall₂ (fun x s => Transacted cfg bus x.1 x.2 s) cycles run.1 ∧
        (stateAt cfg bus t).pcW = run.2.pc ∧ (stateAt cfg bus t).regs.regs = run.2.regs.x := by
  refine ⟨executionCycles cfg bus t, executionCycles_pairwise t,
    fun u hu => mem_executionCycles hu, ?_⟩
  refine executes_of_retirements (hartNext cfg)
    (R := fun t h => (stateAt cfg bus t).pcW = h.pc ∧ (stateAt cfg bus t).regs.regs = h.regs.x)
    ⟨pcW_reset cfg bus, rfl⟩ ?_ ?_ t
  · intro u h hR hn
    exact ⟨(pcW_succ_of_none hn).trans hR.1, (regs_succ_of_none hn).trans hR.2⟩
  · intro u h r hR hr
    obtain ⟨hreports, htrans, hpc, hregs, -⟩ :=
      retirement_executes hr (answered_gives _ u) hR.1 hR.2
    exact ⟨hreports, htrans, hpc, hregs⟩

end Answers
end Icicle
