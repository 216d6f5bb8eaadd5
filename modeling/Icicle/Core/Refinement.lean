import Icicle.Core.System
import Icicle.Core.Interlock
import Icicle.Core.SideEffects
import Icicle.Core.ControlFlow

/-! The pipeline refines the sequential machine: what retires is what the sequential
machine executes, whatever the wait states of the two buses. -/
namespace Icicle
open Wishbone

namespace Sequential

section Token
variable {cfg : Config} {m : Storage} {a : Arch} {v₁ v₂ : Word} {p : Response}

/-- The unit of the data access of the instruction in the pipeline. -/
def unit (m : Storage) (a : Arch) (v₁ v₂ : Word) : LoadStore :=
  MemoryAccess.loadStore (executed (fd m a) v₁ v₂)

theorem unit_eq : unit m a v₁ v₂ =
    { toWordAlign := (operands m a v₁ v₂).align
      valid := legal m a
      load := (insn m a).control.memLoad
      store := (insn m a).control.memStore } := executed_units.2.2.2

theorem align_eq (hobs : Insn.Observes (operands m a v₁ v₂) (insn m a))
    (hacc : accesses m a = true) :
    (operands m a v₁ v₂).align = { (insn m a).align with wdata := v₂ } := by
  have haddr := hobs.address hacc
  unfold Insn.align
  rw [haddr]
  rfl

/-- An access of the instruction is made at the same place in the pipeline. -/
theorem unit_access (hobs : Insn.Observes (operands m a v₁ v₂) (insn m a))
    (hacc : accesses m a = true) :
    (unit m a v₁ v₂).misaligned = (insn m a).align.misaligned ∧
      (unit m a v₁ v₂).bus.adr = adr m a ∧ (unit m a v₁ v₂).mask = (insn m a).align.mask ∧
      (unit m a v₁ v₂).addrAligned = (insn m a).align.addrAligned ∧
      ∀ d, (unit m a v₁ v₂).rdata d = (insn m a).align.rdata d := by
  have halign := align_eq hobs hacc
  have hunit : (unit m a v₁ v₂).toWordAlign = { (insn m a).align with wdata := v₂ } := by
    rw [unit_eq, halign]
  refine ⟨by rw [hunit]; rfl, ?_, by rw [hunit]; rfl, by rw [hunit]; rfl,
    fun d => by rw [hunit]; rfl⟩
  unfold LoadStore.bus
  rw [hunit]
  rfl

theorem unit_requesting (hobs : Insn.Observes (operands m a v₁ v₂) (insn m a)) :
    (unit m a v₁ v₂).bus.requesting = access m a := by
  have hreq : (unit m a v₁ v₂).bus.requesting =
      (legal m a && accesses m a && !(unit m a v₁ v₂).misaligned) := by
    simp only [Request.requesting, LoadStore.bus, Bool.and_self, unit_eq]
    rfl
  rw [hreq, access]
  cases hacc : accesses m a with
  | false => simp
  | true => rw [(unit_access hobs hacc).1]

theorem unit_trap (hobs : Insn.Observes (operands m a v₁ v₂) (insn m a))
    (hp : Answers m a.dmem (unit m a v₁ v₂).bus p) : (unit m a v₁ v₂).trap p = memTrap m a := by
  have htrap : (unit m a v₁ v₂).trap p = (accesses m a &&
      ((unit m a v₁ v₂).misaligned || ((unit m a v₁ v₂).bus.requesting && p.err))) := by
    rw [unit_eq]
    rfl
  rw [htrap, memTrap]
  cases hacc : accesses m a with
  | false => rfl
  | true =>
    obtain ⟨hmis, hadr, hmask, -, -⟩ := unit_access hobs hacc
    rw [hmis, unit_requesting hobs, error]
    cases hreq : access m a with
    | false => rfl
    | true =>
      have herr := hp.err ((unit_requesting hobs).trans hreq)
      have hsel : (unit m a v₁ v₂).bus.sel = (insn m a).align.mask := hmask
      have hwe : (unit m a v₁ v₂).bus.we = (insn m a).control.memStore := by rw [unit_eq]; rfl
      rw [herr, hadr, hsel, hwe]

theorem stage_trap_eq (hobs : Insn.Observes (operands m a v₁ v₂) (insn m a))
    (hp : Answers m a.dmem (unit m a v₁ v₂).bus p) :
    (MemoryAccess.stage (executed (fd m a) v₁ v₂) p).trap = trap m a := by
  have hbranch : (operands m a v₁ v₂).branch.trap = (insn m a).branch.trap := by
    rw [Branch.trap, Branch.trap, hobs.taken]
    cases ht : (insn m a).branch.taken with
    | false => rfl
    | true =>
      have hu := hobs.target (hobs.taken.trans ht)
      have hmis : (operands m a v₁ v₂).branch.misaligned = (insn m a).branch.misaligned := by
        change (operands m a v₁ v₂).branchTargetMux.unrounded.getLsbD 1 = _
        rw [hu]
        rfl
      rw [hmis]
  rw [MemoryAccess.stage_trap, executed_units.1, hbranch,
    show MemoryAccess.loadStore (executed (fd m a) v₁ v₂) = unit m a v₁ v₂ from rfl,
    unit_trap hobs hp, executed_state, trap]
  cases legal m a <;> simp

theorem token_state_eq (hobs : Insn.Observes (operands m a v₁ v₂) (insn m a))
    (hp : Answers m a.dmem (unit m a v₁ v₂).bus p) :
    (MemoryAccess.token cfg (executed (fd m a) v₁ v₂) p).state =
      if trap m a then .trap else .valid := by
  have hx : (executed (fd m a) v₁ v₂).state = if legal m a then .valid else .trap :=
    executed_state
  rw [MemoryAccess.token_state, Stage.passed, stage_trap_eq hobs hp]
  cases ht : trap m a with
  | true => rfl
  | false =>
    have hl : legal m a = true := by
      by_contra hl
      simp [trap, eq_false_of_ne_true hl] at ht
    rw [hl] at hx
    simpa [MemoryAccess.stage] using hx

theorem token_pcWdata_eq (hobs : Insn.Observes (operands m a v₁ v₂) (insn m a))
    (hp : Answers m a.dmem (unit m a v₁ v₂).bus p) :
    (MemoryAccess.token cfg (executed (fd m a) v₁ v₂) p).pcWdata = pcWdata cfg m a := by
  have hx : ((executed (fd m a) v₁ v₂).state == .valid) = legal m a := by
    rw [executed_state]
    cases legal m a <;> rfl
  have hpc : (executed (fd m a) v₁ v₂).pcRdata = a.pc := fd_pcRdata
  rw [MemoryAccess.token_pcWdata, MemoryAccess.pcWdata, stage_trap_eq hobs hp, hx,
    executed_units.1, executed_units.2.2.1, hpc, hobs.taken, pcWdata]
  cases ht : (insn m a).branch.taken with
  | false => simp
  | true =>
    have hu := hobs.target (hobs.taken.trans ht)
    rw [BranchTargetMux.target, hu]
    rfl

/-- An instruction that does not trap is legal and performs its access. -/
theorem access_of_not_trap (ht : trap m a = false) : legal m a = true ∧
    (accesses m a = true → access m a = true ∧ error m a = false) := by
  simp only [trap, Bool.or_eq_false_iff, Bool.not_eq_false'] at ht
  obtain ⟨⟨hl, -⟩, hm⟩ := ht
  refine ⟨hl, fun hacc => ?_⟩
  unfold memTrap at hm
  rw [hacc, Bool.true_and, Bool.or_eq_false_iff] at hm
  exact ⟨by simp [access, hl, hacc, hm.1], hm.2⟩

theorem consistent : Control.Consistent (insn m a).control.toControlSwitch :=
  Control.ofInsn_consistent _

/-- What the memory answers to a load that does not trap. -/
theorem unit_datR (hobs : Insn.Observes (operands m a v₁ v₂) (insn m a))
    (hp : Answers m a.dmem (unit m a v₁ v₂).bus p) (ht : trap m a = false)
    (hload : (insn m a).control.memLoad = true) : p.datR = a.dmem (adr m a) := by
  have hacc : accesses m a = true := by simp [accesses, hload]
  obtain ⟨hreq, herror⟩ := (access_of_not_trap ht).2 hacc
  obtain ⟨-, hadr, hmask, -, -⟩ := unit_access hobs hacc
  have hreq' := (unit_requesting hobs).trans hreq
  have hwe : (unit m a v₁ v₂).bus.we = (insn m a).control.memStore := by rw [unit_eq]; rfl
  have hstore : (insn m a).control.memStore = false := by
    by_contra hs
    have hload' := consistent.exclusive (eq_true_of_ne_false hs)
    rw [hload] at hload'
    cases hload'
  have herr : p.err = false := by
    have hsel : (unit m a v₁ v₂).bus.sel = (insn m a).align.mask := hmask
    rw [hp.err hreq', hadr, hsel, hwe]
    simpa [error, hreq] using herror
  rw [hp.datR hreq' herr (hwe.trans hstore), hadr]

theorem executed_wdataSel (i : FD) :
    (executed i v₁ v₂).wdataSel = (Decode.control i).wdataSel := rfl

theorem token_rdWdata_eq (hobs : Insn.Observes (operands m a v₁ v₂) (insn m a))
    (hp : Answers m a.dmem (unit m a v₁ v₂).bus p) (hw : writes m a = true) :
    Writeback.rdWdata (MemoryAccess.token cfg (executed (fd m a) v₁ v₂) p) = rdWdata m a := by
  obtain ⟨ht, hwen⟩ : trap m a = false ∧ (insn m a).control.rdWen = true := by
    simpa [writes] using hw
  obtain ⟨hlegal, -⟩ := access_of_not_trap ht
  have hill : (insn m a).control.illegal = false := by
    unfold legal at hlegal
    rw [Bool.and_eq_true, Bool.not_eq_true'] at hlegal
    exact hlegal.2
  have hsel : (executed (fd m a) v₁ v₂).wdataSel = (insn m a).control.wdataSel := by
    rw [executed_wdataSel, control_fd]
  rw [MemoryAccess.token_rdWdata, hsel, executed_units.2.1, hobs.result hill hwen, rdWdata]
  cases hs : (insn m a).control.wdataSel with
  | aluResult => simp only [WDataMux.rdWdata]
  | memRdata =>
    have hload := consistent.wdataSel hs
    have hacc : accesses m a = true := by simp [accesses, hload]
    obtain ⟨-, -, -, -, hrdata⟩ := unit_access hobs hacc
    have hunit := hrdata p.datR
    rw [unit_datR hobs hp ht hload] at hunit
    rw [unit_datR hobs hp ht hload, ← hunit]
    rfl

/-- The data of a store is the same in the pipeline. -/
theorem unit_wdata (hobs : Insn.Observes (operands m a v₁ v₂) (insn m a))
    (hstore : (insn m a).control.memStore = true) :
    (unit m a v₁ v₂).wdataAligned = (insn m a).align.wdataAligned := by
  have hacc : accesses m a = true := by simp [accesses, hstore]
  have hv : v₂ = (insn m a).rs2Rdata := hobs.wdata hstore
  have hunit : (unit m a v₁ v₂).toWordAlign = (insn m a).align := by
    rw [unit_eq]
    dsimp only
    rw [align_eq hobs hacc, hv]
    rfl
  rw [hunit]

/-- The record that the token leaves is the record of the sequential machine. -/
theorem token_record_eq (hag : Insn.Agrees (operands m a v₁ v₂) (insn m a))
    (hp : Answers m a.dmem (unit m a v₁ v₂).bus p) {r : RVFI} (hr : r.order = a.order) :
    Writeback.record (MemoryAccess.token cfg (executed (fd m a) v₁ v₂) p) r = record cfg m a := by
  have hobs := hag.observes
  set tok := MemoryAccess.token cfg (executed (fd m a) v₁ v₂) p with htokdef
  set c := (insn m a).control with hc
  have hctrl : Decode.control (fd m a) = c := control_fd
  have hvalid : (tok.state == .valid) = !trap m a := by
    rw [htokdef, token_state_eq hobs hp]
    cases trap m a <;> rfl
  have htrap : (tok.state == .trap) = trap m a := by
    rw [htokdef, token_state_eq hobs hp]
    cases trap m a <;> rfl
  have hrd : tok.rd = c.rd ∧ tok.rdWen = c.rdWen := by rw [← hctrl]; exact ⟨rfl, rfl⟩
  have hrs1 : tok.rs1 = c.rs1 ∧ tok.rs1Ren = c.rs1Ren ∧ tok.rs1Rdata = v₁ := by
    rw [← hctrl]; exact ⟨rfl, rfl, rfl⟩
  have hrs2 : tok.rs2 = c.rs2 ∧ tok.rs2Ren = c.rs2Ren ∧ tok.rs2Rdata = v₂ := by
    rw [← hctrl]; exact ⟨rfl, rfl, rfl⟩
  have hmem : tok.memLoad = c.memLoad ∧ tok.memStore = c.memStore := by
    rw [← hctrl]; exact ⟨rfl, rfl⟩
  have hunit : tok.memAddrAligned = (unit m a v₁ v₂).addrAligned ∧
      tok.memMask = (unit m a v₁ v₂).mask ∧ tok.memRdataAligned = p.datR ∧
      tok.memWdataAligned = (unit m a v₁ v₂).wdataAligned := ⟨rfl, rfl, rfl, rfl⟩
  have hfault : tok.memFault = ((fetched m a).isNone || memTrap m a) := by
    rw [← fd_memFault, ← unit_trap hobs hp]; rfl
  have hpcs : tok.insn = (insn m a).insn ∧ tok.pcRdata = a.pc ∧ tok.pcWdata = pcWdata cfg m a :=
    ⟨fd_insn, fd_pcRdata, token_pcWdata_eq hobs hp⟩
  -- the fields that are masked agree where they show
  have hdata1 : (if c.rs1Ren then v₁ else 0) = if c.rs1Ren then (insn m a).rs1Rdata else 0 := by
    split
    next hren => exact hag.rs1 (.inl hren)
    next => rfl
  have hdata2 : (if c.rs2Ren then v₂ else 0) = if c.rs2Ren then (insn m a).rs2Rdata else 0 := by
    split
    next hren => exact hag.rs2 (.inl hren)
    next => rfl
  have hwrites : (!trap m a && c.rdWen) = writes m a := rfl
  have hrdWdata : (if writes m a then Writeback.rdWdata tok else 0) =
      if writes m a then rdWdata m a else 0 := by
    split
    next hw => exact token_rdWdata_eq hobs hp hw
    next => rfl
  have hmasked : ∀ {α : Type} (b : Bool) (x y : α) (z : α),
      (trap m a = false → b = true → x = y) →
      (if !trap m a && b then x else z) = if !trap m a && b then y else z := by
    intro α b x y z h
    split
    next hb =>
      rw [Bool.and_eq_true, Bool.not_eq_true'] at hb
      exact h hb.1 hb.2
    next => rfl
  have hload : c.memLoad = true → accesses m a = true := fun h => by simp [accesses, ← hc, h]
  have hstore : c.memStore = true → accesses m a = true := fun h => by simp [accesses, ← hc, h]
  have haddr := hmasked (c.memLoad || c.memStore) (unit m a v₁ v₂).addrAligned
    (insn m a).align.addrAligned 0 fun _ h => (unit_access hobs h).2.2.2.1
  have hrmask := hmasked c.memLoad (unit m a v₁ v₂).mask (insn m a).align.mask 0
    fun _ h => (unit_access hobs (hload h)).2.2.1
  have hwmask := hmasked c.memStore (unit m a v₁ v₂).mask (insn m a).align.mask 0
    fun _ h => (unit_access hobs (hstore h)).2.2.1
  have hrdata := hmasked c.memLoad p.datR (a.dmem (adr m a)) 0 fun ht h => unit_datR hobs hp ht h
  have hwdata := hmasked c.memStore (unit m a v₁ v₂).wdataAligned (insn m a).align.wdataAligned 0
    fun _ h => unit_wdata hobs h
  have haccesses : accesses m a = (c.memLoad || c.memStore) := rfl
  unfold Writeback.record record
  simp only [hvalid, htrap, hr, hrd, hrs1, hrs2, hmem, hunit, hfault, hpcs, hdata1, hdata2, hwrites,
    hrdWdata, haddr, hrmask, hwmask, hrdata, hwdata, haccesses, ← hc]

/-- The write of the token to the register file. -/
theorem token_write_eq (hobs : Insn.Observes (operands m a v₁ v₂) (insn m a))
    (hp : Answers m a.dmem (unit m a v₁ v₂).bus p) (r : BitVec 5) :
    (if (MemoryAccess.token cfg (executed (fd m a) v₁ v₂) p).writes r then
      Writeback.rdWdata (MemoryAccess.token cfg (executed (fd m a) v₁ v₂) p) else a.regs r) =
      (next cfg m a).2.regs r := by
  set tok := MemoryAccess.token cfg (executed (fd m a) v₁ v₂) p with htokdef
  have hrd : tok.rd = (insn m a).control.rd ∧ tok.rdWen = (insn m a).control.rdWen := by
    rw [← control_fd]; exact ⟨rfl, rfl⟩
  have hvalid : (tok.state == .valid) = !trap m a := by
    rw [htokdef, token_state_eq hobs hp]
    cases trap m a <;> rfl
  have hw : tok.writes r = (writes m a && r == (insn m a).control.rd) := by
    unfold MW.writes writesTo
    rw [hvalid, hrd.1, hrd.2, writes]
  have hnext : (next cfg m a).2.regs = if writes m a then
      Function.update a.regs (insn m a).control.rd (rdWdata m a) else a.regs := rfl
  rw [hw, hnext]
  cases hwr : writes m a with
  | false => rfl
  | true =>
    rw [Bool.true_and, if_pos rfl, Function.update_apply]
    simp only [beq_iff_eq]
    split
    next => exact token_rdWdata_eq hobs hp hwr
    next => rfl

/-- A memory instruction traps exactly if it makes no access or a faulty one. -/
theorem trap_of_accesses (hacc : accesses m a = true) :
    trap m a = !(access m a && !error m a) := by
  have hbranch : (insn m a).branch.trap = false := by
    have hnever := consistent.branchOp hacc
    simp only [Branch.trap, Branch.taken, Insn.branch, hnever, Bool.false_and]
  rw [trap, hbranch, memTrap, hacc, error, access, hacc]
  cases legal m a <;> cases (insn m a).align.misaligned <;> simp

/-- The access of the token changes the memory as the sequential machine does. -/
theorem unit_update_eq (hobs : Insn.Observes (operands m a v₁ v₂) (insn m a))
    (hp : Answers m a.dmem (unit m a v₁ v₂).bus p) :
    update a.dmem (unit m a v₁ v₂).bus p = (next cfg m a).2.dmem := by
  have hwe : (unit m a v₁ v₂).bus.we = (insn m a).control.memStore := by rw [unit_eq]; rfl
  have hnext : (next cfg m a).2.dmem = if !trap m a && (insn m a).control.memStore then
      Function.update a.dmem (adr m a) (mergeLanes (insn m a).align.mask (a.dmem (adr m a))
        (insn m a).align.wdataAligned) else a.dmem := rfl
  rw [hnext, update]
  cases hstore : (insn m a).control.memStore with
  | false => simp [stores, hwe, hstore]
  | true =>
    have hacc : accesses m a = true := by simp [accesses, hstore]
    obtain ⟨-, hadr, hmask, -, -⟩ := unit_access hobs hacc
    have hsel : (unit m a v₁ v₂).bus.sel = (insn m a).align.mask := hmask
    have hdat : (unit m a v₁ v₂).bus.datW = (insn m a).align.wdataAligned := unit_wdata hobs hstore
    have hstores : stores (unit m a v₁ v₂).bus p = !trap m a := by
      have hreq := unit_requesting hobs
      rw [trap_of_accesses hacc, Bool.not_not, stores, handshake, hreq, hwe, hstore]
      cases hacs : access m a with
      | false => rfl
      | true =>
        have hans := hp.answers (hreq.trans hacs)
        have herr := hp.err (hreq.trans hacs)
        rw [hadr, hsel, hwe] at herr
        rw [hans, herr, error, hacs]
        rfl
    rw [hstores, hadr, hsel, hdat, Bool.and_true]

end Token
end Sequential

section Run
open Icicle.Sequential
variable (cfg : Config) (bus : ℕ → CpuIn) (m : Storage) (init : BitVec 30 → Word)

variable {cfg bus m init} {t : ℕ} {a : Arch}

/-- The request of a fetch is for the word that holds its address. -/
theorem Accepted.ibus_adr {c : ℕ} {i : FD} (h : Accepted cfg bus c i) :
    (ibusAt cfg bus c).adr = i.pcRdata.extractLsb' 2 30 := by
  have hbus : ibusAt cfg bus c = (Fetch.loadStore (stateAt cfg bus c).pf false false).bus :=
    h.ibus_eq
  rw [hbus, LoadStore.bus_adr_eq, h.token]
  rfl

/-- A fetch that does not trap has read the word that the sequential machine fetches. -/
theorem Environment.fetched_of_not_trap (henv : Environment cfg bus m init) {c : ℕ} {i : FD}
    (h : Accepted cfg bus c i) {a : Arch} (ha : a.pc = i.pcRdata)
    (ht : (Fetch.loadStore (stateAt cfg bus c).pf false false).trap (bus c).ibus = false) :
    fetched m a = some (bus c).ibus.datR := by
  obtain ⟨hhand, herr, -, -⟩ := h.word ht
  have hal : a.pc.extractLsb' 0 2 = 0#2 := by
    have hpc : i.pcRdata = (stateAt cfg bus c).pf.pcRdata := by rw [h.token]; rfl
    simp only [LoadStore.trap, Bool.and_eq_false_iff, Bool.or_eq_false_iff] at ht
    rcases ht with ht | ht
    · exact absurd ht (by simp [Fetch.loadStore])
    · rw [ha, hpc]
      exact bne_eq_false_iff_eq.mp ht.1
  obtain ⟨hsome, hword⟩ := henv.ibus c hhand
  rw [herr, h.ibus_adr, ← ha] at hsome
  rw [h.ibus_adr, ← ha] at hword
  unfold fetched
  rw [if_pos hal]
  cases him : m.imem (a.pc.extractLsb' 2 30) with
  | none =>
    rw [him] at hsome
    cases hsome
  | some w => rw [hword w him]

/-- A fetch traps where the sequential machine cannot fetch. -/
theorem Environment.fetched_of_trap (henv : Environment cfg bus m init) {c : ℕ} {i : FD}
    (h : Accepted cfg bus c i) {a : Arch} (ha : a.pc = i.pcRdata)
    (ht : (Fetch.loadStore (stateAt cfg bus c).pf false false).trap (bus c).ibus = true) :
    fetched m a = none := by
  have hpc : i.pcRdata = (stateAt cfg bus c).pf.pcRdata := by rw [h.token]; rfl
  have hbus : ibusAt cfg bus c = (Fetch.loadStore (stateAt cfg bus c).pf false false).bus :=
    h.ibus_eq
  rcases ((LoadStore.trap_iff _ _).mp ht).2 with hmis | ⟨hhand, herr⟩
  · have hal : a.pc.extractLsb' 0 2 ≠ 0#2 := by
      rw [ha, hpc]
      exact bne_iff_ne.mp hmis
    exact if_neg hal
  · rw [← hbus] at hhand
    have hnone := (henv.ibus c hhand).1
    rw [herr, h.ibus_adr, ← ha, eq_comm, Option.isNone_iff_eq_none] at hnone
    unfold fetched
    rw [hnone, ite_self]

/-- What fetch accepts is what the sequential machine fetches. -/
theorem Environment.accepted (henv : Environment cfg bus m init) {c : ℕ} {i : FD}
    (h : Accepted cfg bus c i) {a : Arch} (ha : a.pc = i.pcRdata) : i = fd m a := by
  unfold fd
  cases ht : (Fetch.loadStore (stateAt cfg bus c).pf false false).trap (bus c).ibus with
  | false =>
    obtain ⟨-, -, -, hinsn⟩ := h.word ht
    obtain ⟨-, hfault, hstate⟩ := Fetch.token_of_not_trap ht
    rw [← h.token] at hfault hstate
    rw [henv.fetched_of_not_trap h ha ht]
    exact FD.ext (by rw [hstate, h.valid]) ha.symm hinsn hfault
  | true =>
    obtain ⟨hinsn, hfault, hstate⟩ := Fetch.token_of_trap h.valid ht
    rw [← h.token] at hinsn hfault hstate
    rw [henv.fetched_of_trap h ha ht]
    exact FD.ext hstate ha.symm hinsn hfault

variable (cfg bus m init) in
/-- The core at the start of cycle `t` has retired what leads to the state `a`. The
access of the token in writeback is already done in the data memory. -/
structure Simulates (t : ℕ) (a : Arch) : Prop where
  pc : (stateAt cfg bus t).pcW = a.pc
  regs : (stateAt cfg bus t).regs.regs = a.regs
  order : (stateAt cfg bus t).rvfi.order = a.order
  idle : (stateAt cfg bus t).mw.state = .bubble → dmemAt cfg bus init t = a.dmem
  token : (stateAt cfg bus t).mw.state ≠ .bubble → ∃ v₁ v₂ p,
    (stateAt cfg bus t).mw = MemoryAccess.token cfg (executed (fd m a) v₁ v₂) p ∧
      Answers m a.dmem (unit m a v₁ v₂).bus p ∧
      dmemAt cfg bus init t = update a.dmem (unit m a v₁ v₂).bus p

/-- A cycle after which writeback is empty stores nothing. -/
theorem dmemAt_succ_of_bubble {t : ℕ} (h : (stateAt cfg bus (t + 1)).mw.state = .bubble) :
    dmemAt cfg bus init (t + 1) = dmemAt cfg bus init t := by
  have hnext : (stateAt cfg bus (t + 1)).mw =
      (stateAt cfg bus t).nextMW Blocks.rtl cfg (bus t) := rfl
  have hstores : stores (dbusAt cfg bus t) (bus t).dbus = false := by
    cases hp : pending (dbusAt cfg bus t) (bus t).dbus with
    | true => simp [stores, handshake, pending_not_answers hp]
    | false =>
      rw [hnext, Cpu.nextMW_moves hp, MemoryAccess.token_bubble_iff] at h
      have hreq : (dbusAt cfg bus t).requesting = false := by
        unfold dbusAt Cpu.dbus
        rw [MemoryAccess.requesting_eq, XM.accesses, h]
        rfl
      simp [stores, handshake, hreq]
  rw [dmemAt_succ, update_of_not_stores hstores]

/-- The answer that lets a token leave memory access is the answer of the data memory. -/
theorem Environment.answers (henv : Environment cfg bus m init) {t : ℕ}
    (hp : pending (dbusAt cfg bus t) (bus t).dbus = false) :
    Answers m (dmemAt cfg bus init t) (dbusAt cfg bus t) (bus t).dbus := by
  have hhand : (dbusAt cfg bus t).requesting = true →
      handshake (dbusAt cfg bus t) (bus t).dbus = true := fun hreq =>
    (handshake_or_pending hreq).resolve_right (by simp [hp])
  refine ⟨?_, ?_, ?_⟩
  · intro hreq
    exact (Bool.and_eq_true_iff.mp (hhand hreq)).2
  · intro hreq
    exact (henv.dbus t (hhand hreq)).1
  · intro hreq herr hwe
    exact (henv.dbus t (hhand hreq)).2 herr hwe

/-- The token that enters writeback is the next instruction of the sequential machine. -/
theorem Environment.token (henv : Environment cfg bus m init) {t : ℕ} {a : Arch}
    (hpc : (stateAt cfg bus (t + 1)).pcW = a.pc) (hdmem : dmemAt cfg bus init t = a.dmem)
    (hb : (stateAt cfg bus (t + 1)).mw.state ≠ .bubble) : ∃ v₁ v₂ p,
      (stateAt cfg bus (t + 1)).mw = MemoryAccess.token cfg (executed (fd m a) v₁ v₂) p ∧
        Answers m a.dmem (unit m a v₁ v₂).bus p ∧
        dmemAt cfg bus init (t + 1) = update a.dmem (unit m a v₁ v₂).bus p := by
  have hnext : (stateAt cfg bus (t + 1)).mw =
      (stateAt cfg bus t).nextMW Blocks.rtl cfg (bus t) := rfl
  have hpend : pending (dbusAt cfg bus t) (bus t).dbus = false := by
    by_contra hp
    exact hb (hnext ▸ Cpu.nextMW_waits (eq_true_of_ne_false hp))
  rw [hnext, Cpu.nextMW_moves hpend] at hb
  obtain ⟨i, v₁, v₂, hacc, hx⟩ := (traced cfg bus t).xm (by simpa using hb)
  have hmw : (stateAt cfg bus (t + 1)).mw =
      MemoryAccess.token cfg (executed i v₁ v₂) (bus t).dbus := by
    rw [hnext, Cpu.nextMW_moves hpend, hx]
  have hi : i = fd m a := by
    refine henv.accepted hacc ?_
    rw [← hpc, Cpu.pcW, if_neg (by rw [hnext, Cpu.nextMW_moves hpend]; exact hb), hmw]
    rfl
  have hbus : dbusAt cfg bus t = (unit m a v₁ v₂).bus := by
    unfold dbusAt Cpu.dbus
    rw [hx, hi]
    rfl
  have hans := henv.answers hpend
  rw [hdmem, hbus] at hans
  exact ⟨v₁, v₂, (bus t).dbus, by rw [hmw, hi], hans, by rw [dmemAt_succ, hdmem, hbus]⟩

/-- What a cycle leaves in writeback and in the data memory. -/
theorem Environment.simulates (henv : Environment cfg bus m init) {t : ℕ} {a : Arch}
    (hpc : (stateAt cfg bus (t + 1)).pcW = a.pc)
    (hregs : (stateAt cfg bus (t + 1)).regs.regs = a.regs)
    (horder : (stateAt cfg bus (t + 1)).rvfi.order = a.order)
    (hdmem : dmemAt cfg bus init t = a.dmem) : Simulates cfg bus m init (t + 1) a where
  pc := hpc
  regs := hregs
  order := horder
  idle hb := (dmemAt_succ_of_bubble hb).trans hdmem
  token hb := henv.token hpc hdmem hb

theorem simulates_reset : Simulates cfg bus m init 0 (Arch.reset cfg init) where
  pc := pcW_reset cfg bus
  regs := rfl
  order := rfl
  idle _ := rfl
  token hb := absurd rfl hb

/-- A cycle without a retirement leaves the sequential machine where it is. -/
theorem Simulates.stutter (h : Simulates cfg bus m init t a)
    (henv : Environment cfg bus m init) (hn : retirement cfg bus t = none) :
    Simulates cfg bus m init (t + 1) a := by
  have hb := retirement_eq_none.mp hn
  refine henv.simulates ?_ ?_ ?_ (h.idle hb)
  · rw [pcW_succ_of_none hn, h.pc]
  · funext r
    rw [stateAt_succ, Cpu.step_regs, Cpu.writes_of_bubble hb, ← h.regs]
    rfl
  · rw [order_succ_of_none hn, h.order]

/-- The operands of the token in writeback agree with the registers of the machine. -/
theorem Simulates.agrees (h : Simulates cfg bus m init t a) {v₁ v₂ : Word} {p : Response}
    (hb : (stateAt cfg bus t).mw.state ≠ .bubble)
    (hmw : (stateAt cfg bus t).mw = MemoryAccess.token cfg (executed (fd m a) v₁ v₂) p) :
    Insn.Agrees (operands m a v₁ v₂) (insn m a) := by
  have hread := (core_interlocked cfg bus t).mw hb
  have hoperands : (stateAt cfg bus t).mw.operands =
      [⟨(insn m a).control.rs1Ren, (insn m a).control.rs1, v₁⟩,
        ⟨(insn m a).control.rs2Ren, (insn m a).control.rs2, v₂⟩] := by
    rw [hmw, ← control_fd]
    rfl
  rw [hoperands, h.regs] at hread
  refine ⟨rfl, rfl, ?_, ?_⟩
  · intro hren
    exact hread ⟨(insn m a).control.rs1Ren, (insn m a).control.rs1, v₁⟩ (by simp) hren
  · intro hren
    exact hread ⟨(insn m a).control.rs2Ren, (insn m a).control.rs2, v₂⟩ (by simp) hren

/-- A retirement is one step of the sequential machine. -/
theorem Simulates.retire (h : Simulates cfg bus m init t a)
    (henv : Environment cfg bus m init) {r : Retirement} (hr : retirement cfg bus t = some r) :
    r.rvfi = (next cfg m a).1 ∧ Simulates cfg bus m init (t + 1) (next cfg m a).2 := by
  obtain ⟨hb, ht, hv⟩ := retirement_eq_some.mp hr
  obtain ⟨v₁, v₂, p, hmw, hp, hdmem⟩ := h.token hb
  have hag := h.agrees hb hmw
  refine ⟨?_, henv.simulates ?_ ?_ ?_ ?_⟩
  · rw [hv, hmw]
    exact token_record_eq hag hp h.order
  · rw [pcW_succ_of_some hr, ht, hmw]
    exact token_pcWdata_eq hag.observes hp
  · funext r
    rw [stateAt_succ, Cpu.step_regs, h.regs, hmw]
    exact token_write_eq hag.observes hp r
  · rw [rvfi_order, retired_succ_some hr, List.length_append, BitVec.ofNat_add, ← rvfi_order,
      h.order]
    rfl
  · rw [hdmem]
    exact unit_update_eq hag.observes hp

/-- Pipelining is invisible: with any wait states, the RVFI records of a run are those of
the sequential machine, instruction by instruction. The register file is the machine's
after what has retired, and the data memory is ahead by the token in writeback at most. -/
theorem records_eq_sequential (henv : Environment cfg bus m init) (t : ℕ) :
    records cfg bus t = Clocked.trace (next cfg m) (Arch.reset cfg init)
        (records cfg bus t).length ∧
      (stateAt cfg bus t).pcW =
        (Clocked.after (next cfg m) (Arch.reset cfg init) (records cfg bus t).length).pc ∧
      (stateAt cfg bus t).regs.regs =
        (Clocked.after (next cfg m) (Arch.reset cfg init) (records cfg bus t).length).regs ∧
      dmemAt cfg bus init t = (Clocked.after (next cfg m) (Arch.reset cfg init)
        ((records cfg bus t).length +
          if (stateAt cfg bus t).mw.state = .bubble then 0 else 1)).dmem := by
  obtain ⟨htrace, hsim⟩ := Clocked.log_refines (e := recordAt cfg bus)
    (R := Simulates cfg bus m init) simulates_reset
    (fun u a h he => h.stutter henv (by simpa [recordAt_eq] using he))
    (fun u a w h he => by
      rw [recordAt_eq] at he
      obtain ⟨r, hr, rfl⟩ := Option.map_eq_some_iff.mp he
      exact h.retire henv hr) t
  refine ⟨htrace, hsim.pc, hsim.regs, ?_⟩
  split
  next hb => exact hsim.idle hb
  next hb =>
    obtain ⟨v₁, v₂, p, hmw, hp, hdmem⟩ := hsim.token hb
    rw [hdmem]
    exact unit_update_eq (hsim.agrees hb hmw).observes hp

/-- `addi x1, x0, 5; sw x1, 0(x0); lw x2, 0(x0)`, and then an unreadable word. -/
def storeAndLoad : Storage where
  imem
    | 0#30 => some 0x00500093
    | 1#30 => some 0x00102023
    | 2#30 => some 0x00002103
    | _ => none
  faults _ _ _ := false

/-- Each bus waits every other cycle. -/
def alternate (t : ℕ) : Waits := ⟨t % 2 == 0, t % 2 == 1⟩

/-- The four records of the program, with the loaded 5 in the register file. -/
theorem storeAndLoad_sequential :
    (records {} (answersAt {} storeAndLoad (fun _ => 0) alternate) 15).length = 4 ∧
      records {} (answersAt {} storeAndLoad (fun _ => 0) alternate) 15 =
        Clocked.trace (next {} storeAndLoad) (Arch.reset {} fun _ => 0)
          (records {} (answersAt {} storeAndLoad (fun _ => 0) alternate) 15).length ∧
      (stateAt {} (answersAt {} storeAndLoad (fun _ => 0) alternate) 15).regs.regs 2 = 5 :=
  ⟨by decide +kernel, (records_eq_sequential (system_environment {} storeAndLoad _ alternate) 15).1,
    by decide +kernel⟩

end Run
end Icicle
