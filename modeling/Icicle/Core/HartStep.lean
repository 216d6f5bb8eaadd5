import Icicle.Core.Sequential
import Icicle.Datapath.ByteAccess
import Icicle.Datapath.Encoding
import Icicle.Isa.Hart

/-! One instruction of the sequential machine is one instruction of a hart of RV32I. -/
namespace Icicle
open Wishbone Bytes

/-- The exceptions of the core go to the trap vector, except the one of a jump, which goes
to the word of its target. -/
def Config.handler (cfg : Config) : Rv32i.Exception → Word
  | .targetMisaligned u => Rv32i.alignDown u
  | _ => cfg.trapVector

/-- A storage as it is addressed byte by byte. -/
def Storage.platform (m : Storage) : Rv32i.Platform where
  imem pc := m.imem (pc.extractLsb' 2 30)
  faults a := m.faults (a.address.extractLsb' 2 30) a.lanes a.isStore

namespace RVFI

/-- Whether a mask selects the byte at an address. -/
def selects (r : RVFI) (mask : BitVec 4) (c : Word) : Bool :=
  c.extractLsb' 2 30 == r.memAddr.extractLsb' 2 30 && mask.getLsbD (c.extractLsb' 0 2).toNat

def reads (r : RVFI) (c : Word) : Option (BitVec 8) :=
  if r.selects r.memRmask c then some (byte r.memRdata (c.extractLsb' 0 2).toNat) else none

def writes (r : RVFI) (c : Word) : Option (BitVec 8) :=
  if r.selects r.memWmask c then some (byte r.memWdata (c.extractLsb' 0 2).toNat) else none

theorem reads_of_mask {r : RVFI} (h : r.memRmask = 0) (c : Word) : r.reads c = none := by
  simp [reads, selects, h]

theorem writes_of_mask {r : RVFI} (h : r.memWmask = 0) (c : Word) : r.writes c = none := by
  simp [writes, selects, h]

/-- The record describes an instruction of a hart. -/
structure Reports (handler : Rv32i.Exception → Word) (r : RVFI) (s : Rv32i.Step) : Prop where
  pcRdata : r.pcRdata = s.before.hart.pc
  insn : r.insn = s.insn.getD 0
  trap : r.trap = s.raises
  pcWdata : r.pcWdata = s.nextPc handler
  rs1 : r.rs1Rdata = s.before.hart.regs.x r.rs1Addr
  rs2 : r.rs2Rdata = s.before.hart.regs.x r.rs2Addr
  rd : (r.rdAddr, r.rdWdata) = s.write.getD (0, 0)
  reads : r.reads = s.reads
  writes : r.writes = s.writes

end RVFI

@[simp] theorem size_ofManual (w : Rv32i.Width) : (MemWidth.ofManual w).size = w.size := by
  cases w <;> rfl

/-- The load-store unit of the core is set up for an access of the manual. -/
structure Insn.Makes (n : Insn) (a : Rv32i.Access) : Prop where
  memLoad : n.control.memLoad = !a.isStore
  memStore : n.control.memStore = a.isStore
  align : n.align =
    { width := some (.ofManual a.width)
      unsigned := n.control.memUnsigned
      addr := a.address
      wdata := n.rs2Rdata }
  loads : ∀ w z c, a = .load w z c → n.control.memUnsigned = z ∧ n.control.wdataSel = .memRdata

/-- The operation that the unit performs for an access. -/
def Insn.memOp (n : Insn) (a : Rv32i.Access) : MemOp where
  store := a.isStore
  width := .ofManual a.width
  unsigned := n.control.memUnsigned
  addr := a.address
  wdata := n.rs2Rdata

namespace Insn
variable {n : Insn} {a : Rv32i.Access}

theorem Implements.makes {i : Rv32i.Instruction} (h : n.Implements i)
    (ha : i.access n.rs1Rdata = some a) : n.Makes a := by
  cases a with
  | load w z c =>
    obtain ⟨hload, hstore, hwidth, hunsigned, haddr, hsel⟩ := h.load w z c ha
    refine ⟨hload, hstore, ?_, ?_⟩
    · rw [Insn.align, hwidth, haddr]
      rfl
    · rintro w' z' c' ⟨⟩
      exact ⟨hunsigned, hsel⟩
  | store w c =>
    obtain ⟨hload, hstore, hwidth, haddr⟩ := h.store w c ha
    refine ⟨hload, hstore, ?_, ?_⟩
    · rw [Insn.align, hwidth, haddr]
      rfl
    · rintro w' z' c' ⟨⟩

theorem Makes.unit (h : n.Makes a) : n.align = (n.memOp a).unit.toWordAlign := h.align

theorem Makes.misaligned_iff (h : n.Makes a) : n.align.misaligned = false ↔ a.Aligned := by
  rw [h.unit, MemOp.misaligned_iff, Rv32i.Access.Aligned]
  simp [memOp]

theorem Makes.addr (h : n.Makes a) : n.align.addrAligned = Rv32i.alignDown a.address := by
  rw [h.align]
  rfl

theorem Makes.adr (h : n.Makes a) :
    n.align.addrAligned.extractLsb' 2 30 = a.address.extractLsb' 2 30 := by
  rw [h.addr]
  exact BitVec.extractLsb'_append_eq_left

/-- An aligned access selects its bytes of the word. -/
theorem Makes.mask (h : n.Makes a) (hal : a.Aligned) : n.align.mask = a.lanes := by
  have hmis := h.misaligned_iff.mpr hal
  rw [h.align] at hmis ⊢
  unfold WordAlign.misaligned WordAlign.offset at hmis
  unfold WordAlign.mask Rv32i.Access.lanes WordAlign.offset
  generalize a.address.extractLsb' 0 2 = o at hmis ⊢
  generalize a.width = w at hmis ⊢
  revert hmis o
  cases w <;> dsimp only [MemWidth.ofManual] <;> decide

theorem Makes.covers_iff (h : n.Makes a) (hal : a.Aligned) (c : Word) : a.Covers c ↔
    c.extractLsb' 2 30 = a.address.extractLsb' 2 30 ∧
      n.align.mask.getLsbD (c.extractLsb' 0 2).toNat = true := by
  have hmis := h.misaligned_iff.mpr hal
  have hlane := WordAlign.lane_iff (m := n.align) (congrArg WordAlign.width h.align) hmis c
  have hmask := WordAlign.mask_getLsbD (m := n.align) (congrArg WordAlign.width h.align) hmis
    (c.extractLsb' 0 2).isLt
  have haddr : n.align.addr = a.address := congrArg WordAlign.addr h.align
  rw [hmask, decide_eq_true_iff]
  rw [haddr, size_ofManual] at hlane
  rw [size_ofManual]
  exact hlane

/-- A load returns the value of its bytes. -/
theorem Makes.rdata {w : Rv32i.Width} {z : Bool} {c : Word} (h : n.Makes (.load w z c))
    (hal : (Rv32i.Access.load w z c).Aligned) (words : BitVec 30 → Word) :
    n.align.rdata (words (c.extractLsb' 2 30)) = Rv32i.loaded (bytes words) w z c := by
  have hmis : (n.memOp (.load w z c)).unit.misaligned = false := by
    rw [← h.unit]
    exact h.misaligned_iff.mpr hal
  have hrdata := WordAlign.rdata_eq (m := (n.memOp (.load w z c)).unit.toWordAlign) rfl hmis
    fun b hb => MemOp.byte_load_bytes words hmis hb
  have hz : n.control.memUnsigned = z := (h.loads w z c rfl).1
  rw [h.unit]
  refine hrdata.trans ?_
  change extend n.control.memUnsigned (load (bytes words) c (MemWidth.ofManual w).size) = _
  rw [hz, size_ofManual]
  rfl

/-- A store writes its bytes. -/
theorem Makes.byte_wdata {w : Rv32i.Width} {c : Word} (h : n.Makes (.store w c))
    (hal : (Rv32i.Access.store w c).Aligned) {b : Word}
    (hb : (Rv32i.Access.store w c).Covers b) :
    byte n.align.wdataAligned (b.extractLsb' 0 2).toNat = byte n.rs2Rdata (b - c).toNat := by
  have hmis := h.misaligned_iff.mpr hal
  have hwidth : n.align.width = some (.ofManual w) := congrArg WordAlign.width h.align
  have haddr : n.align.addr = c := congrArg WordAlign.addr h.align
  have hcover : (b - n.align.addr).toNat < (MemWidth.ofManual w).size := by
    rw [haddr, size_ofManual]
    exact hb
  obtain ⟨-, hle, -⟩ := (WordAlign.lane_iff hwidth hmis b).mp hcover
  rw [WordAlign.byte_wdataAligned hwidth hmis (b.extractLsb' 0 2).isLt hle,
    ← WordAlign.lane_sub hwidth hmis hcover, haddr]
  rfl

/-- The value for the destination register is what writeback selects. -/
theorem Implements.result_eq {i : Rv32i.Instruction} (h : n.Implements i)
    (hal : ∀ a, i.access n.rs1Rdata = some a → a.Aligned) (words : BitVec 30 → Word)
    {rd : Rv32i.Reg} (hdest : i.dest = some rd) :
    i.result (bytes words) n.pcRdata n.rs1Rdata n.rs2Rdata =
      some (WDataMux.rdWdata
        { sel := n.control.wdataSel
          result := n.resultMux.result
          memRdata := n.align.rdata (words (n.align.addrAligned.extractLsb' 2 30)) }) := by
  unfold Rv32i.Instruction.result
  rcases Rv32i.Instruction.access_of_dest n.pcRdata n.rs1Rdata n.rs2Rdata hdest with
    ⟨w, z, c, ha⟩ | ⟨ha, v, hv⟩
  · have hmakes := h.makes ha
    have hsel := (hmakes.loads w z c rfl).2
    have hrdata := hmakes.rdata (hal _ ha) words
    rw [ha]
    dsimp only
    rw [hsel, hmakes.adr]
    exact congrArg some hrdata.symm
  · obtain ⟨hsel, hresult⟩ := h.value v hv
    rw [ha]
    dsimp only
    rw [hv, hsel]
    exact congrArg some hresult.symm

section Successor
variable {i : Rv32i.Instruction} (h : n.Implements i) (hpc : n.pcRdata.getLsbD 0 = false)
include h

theorem Implements.alignDown_target {u : Word} (hu : i.target n.pcRdata n.rs1Rdata = some u) :
    n.branchTargetMux.target = Rv32i.alignDown u := by
  apply BitVec.eq_of_getLsbD_eq
  intro k hk
  rw [(h.target u hu).1 k, Rv32i.getLsbD_alignDown]

theorem Implements.successor_of_not_taken (ht : n.branch.taken = false) :
    i.successor n.pcRdata n.rs1Rdata n.rs2Rdata = .ok (n.pcRdata + 4) := by
  have hnot : i.taken n.rs1Rdata n.rs2Rdata = false := h.taken.symm.trans ht
  unfold Rv32i.Instruction.successor
  cases i.target n.pcRdata n.rs1Rdata with
  | none => rfl
  | some u =>
    simp only [hnot]
    rfl

include hpc

/-- A jump completes unless its target lies between two words. -/
theorem Implements.successor_of_taken (ht : n.branch.taken = true) :
    ∃ u, n.branchTargetMux.target = Rv32i.alignDown u ∧
      i.successor n.pcRdata n.rs1Rdata n.rs2Rdata =
        if n.branch.trap then .error (.targetMisaligned u)
        else .ok n.branchTargetMux.target := by
  have htaken : i.taken n.rs1Rdata n.rs2Rdata = true := h.taken.symm.trans ht
  obtain ⟨u, hu⟩ := Rv32i.Instruction.target_of_taken n.pcRdata htaken
  have htarget := h.alignDown_target hu
  have hmis : n.branch.misaligned = u.getLsbD 1 := (h.target u hu).2
  have hdvd : 4 ∣ u.toNat ↔ n.branch.trap = false := by
    rw [Rv32i.four_dvd_iff, Branch.trap, ht, hmis, Rv32i.Instruction.target_even hpc hu]
    simp
  refine ⟨u, htarget, ?_⟩
  unfold Rv32i.Instruction.successor
  simp only [hu, htaken, if_true]
  by_cases h4 : 4 ∣ u.toNat
  · rw [if_pos h4, htarget, Rv32i.alignDown_of_dvd h4, hdvd.mp h4]
    rfl
  · rw [if_neg h4, if_pos (by simpa [hdvd] using h4)]

end Successor
end Insn

namespace Sequential
variable {cfg : Config} {m : Storage} {a : Arch}

theorem aligned_iff (pc : Word) : pc.extractLsb' 0 2 = 0#2 ↔ 4 ∣ pc.toNat := by
  have hpc := WordAlign.toNat_addr pc
  rw [← BitVec.toNat_inj, BitVec.toNat_ofNat]
  have hlt := (pc.extractLsb' 0 2).isLt
  omega

end Sequential

/-- The machine that a state of the sequential machine stands for. -/
def Arch.machine (a : Arch) (x0 : a.regs 0 = 0) : Rv32i.Machine where
  hart := { pc := a.pc, regs := ⟨a.regs, x0⟩ }
  mem := bytes a.dmem

namespace Sequential
variable {cfg : Config} {m : Storage} {a : Arch} (x0 : a.regs 0 = 0)

theorem fetch_eq : (a.machine x0).hart.fetch m.platform =
    match fetched m a with
    | some w => .ok w
    | none =>
      if 4 ∣ a.pc.toNat then .error .instructionFault else .error .instructionMisaligned := by
  have hfetch : (a.machine x0).hart.fetch m.platform =
      if 4 ∣ a.pc.toNat then
        match m.imem (a.pc.extractLsb' 2 30) with
        | some word => .ok word
        | none => .error .instructionFault
      else .error .instructionMisaligned := rfl
  rw [hfetch]
  unfold fetched
  by_cases hal : 4 ∣ a.pc.toNat
  · rw [if_pos hal, if_pos ((aligned_iff a.pc).mpr hal), if_pos hal]
  · rw [if_neg hal, if_neg fun h => hal ((aligned_iff a.pc).mp h)]
    exact (if_neg hal).symm

theorem pc_even_of_fetched {w : Word} (h : fetched m a = some w) :
    (insn m a).pcRdata.getLsbD 0 = false := by
  unfold fetched at h
  split at h
  next hal => exact ((Rv32i.four_dvd_iff _).mp ((aligned_iff a.pc).mp hal)).1
  next => cases h

/-- An illegal word is no instruction of the manual. -/
theorem decode_of_illegal {w : Word} (h : (Control.ofInsn w).illegal = true) :
    Rv32i.decode w = none := by
  cases hd : Rv32i.decode w with
  | none => rfl
  | some i =>
    have hlegal := (Control.selects_of_decode hd).illegal
    rw [h] at hlegal
    cases hlegal

/-- The operands that the word selects are those of its instruction. -/
theorem operands_of_decode {i : Rv32i.Instruction} (h : Rv32i.decode (insn m a).insn = some i) :
    (i.source1 ≠ none → (a.machine x0).hart.regs.read i.source1 = (insn m a).rs1Rdata) ∧
      (i.source2 ≠ none → (a.machine x0).hart.regs.read i.source2 = (insn m a).rs2Rdata) := by
  have hsel := Control.selects_of_decode h
  constructor
  · intro hne
    obtain ⟨r, hr⟩ := Option.ne_none_iff_exists'.mp hne
    rw [hr, ← hsel.rs1 r hr]
    rfl
  · intro hne
    obtain ⟨r, hr⟩ := Option.ne_none_iff_exists'.mp hne
    rw [hr, ← hsel.rs2 r hr]
    rfl

/-- What a word that is fetched and legal does on the machine. -/
theorem execute_of_decode {i : Rv32i.Instruction} (h : Rv32i.decode (insn m a).insn = some i) :
    (a.machine x0).hart.execute m.platform (bytes a.dmem) (insn m a).insn = (do
      let nextPc ← i.successor (insn m a).pcRdata (insn m a).rs1Rdata (insn m a).rs2Rdata
      let access ← i.checked m.platform (insn m a).rs1Rdata
      return {
        nextPc
        write := i.dest.bind fun rd => (i.result (bytes a.dmem) (insn m a).pcRdata
          (insn m a).rs1Rdata (insn m a).rs2Rdata).map fun v => (rd, v)
        access
        data := (a.machine x0).hart.regs.read i.source2 }) := by
  obtain ⟨h1, h2⟩ := operands_of_decode x0 h
  obtain ⟨hvalue, htaken, htarget, haccess⟩ := i.congr_operands (a.machine x0).hart.pc h1 h2
  unfold Rv32i.Hart.execute Rv32i.Instruction.ofWord
  rw [h]
  simp only [bind, Except.bind, Rv32i.Instruction.successor, Rv32i.Instruction.checked,
    Rv32i.Instruction.result, hvalue, htaken, htarget, haccess]
  rfl

theorem checked_eq (hlegal : legal m a = true) {i : Rv32i.Instruction}
    (himp : (insn m a).Implements i) : i.checked m.platform (insn m a).rs1Rdata =
      if memTrap m a then
        .error (if (insn m a).align.misaligned then .accessMisaligned else .accessFault)
      else .ok (i.access (insn m a).rs1Rdata) := by
  unfold Rv32i.Instruction.checked
  cases ha : i.access (insn m a).rs1Rdata with
  | none =>
    obtain ⟨hload, hstore⟩ := himp.noAccess ha
    have hnone : memTrap m a = false := by simp [memTrap, accesses, hload, hstore]
    rw [hnone]
    rfl
  | some acc =>
    have hmakes := himp.makes ha
    have hacc : accesses m a = true := by
      rw [accesses, hmakes.memLoad, hmakes.memStore]
      cases acc.isStore <;> rfl
    dsimp only
    rw [memTrap, hacc, Bool.true_and]
    cases hmis : (insn m a).align.misaligned with
    | true =>
      rw [if_neg fun hal => Bool.false_ne_true ((hmakes.misaligned_iff.mpr hal).symm.trans hmis)]
      rfl
    | false =>
      have hal := hmakes.misaligned_iff.mp hmis
      have herror : error m a = m.platform.faults acc := by
        rw [error, access, hlegal, hacc, hmis, adr, hmakes.adr, hmakes.mask hal, hmakes.memStore]
        rfl
      rw [if_pos hal, herror]
      rfl

/-- A jump is no access. -/
theorem not_taken_of_accesses (h : accesses m a = true) : (insn m a).branch.taken = false :=
  Insn.taken_never ((Control.ofInsn_consistent (insn m a).insn).branchOp h)

theorem legal_of_fetched {w : Word} (hf : fetched m a = some w)
    (hill : (Control.ofInsn w).illegal = false) : (insn m a).insn = w ∧ legal m a = true := by
  have hw : (insn m a).insn = w := by
    unfold insn
    rw [hf]
    rfl
  refine ⟨hw, ?_⟩
  rw [legal, hf, Insn.control, hw, hill]
  rfl

theorem step_insn : ((a.machine x0).step m.platform).insn = fetched m a := by
  unfold Rv32i.Machine.step
  rw [fetch_eq]
  cases fetched m a with
  | some w => rfl
  | none => dsimp only; split_ifs <;> rfl

theorem step_before : ((a.machine x0).step m.platform).before = a.machine x0 := by
  unfold Rv32i.Machine.step
  rw [fetch_eq]
  cases fetched m a with
  | some w => rfl
  | none => dsimp only; split_ifs <;> rfl

theorem step_outcome_of_some {w : Word} (h : fetched m a = some w) :
    ((a.machine x0).step m.platform).outcome =
      (a.machine x0).hart.execute m.platform (bytes a.dmem) w := by
  unfold Rv32i.Machine.step
  rw [fetch_eq, h]
  rfl

variable (cfg) in
/-- What the instruction of the machine does, in terms of the sequential machine. -/
theorem step_outcome (hlegal : legal m a = true) : ∃ i,
    Rv32i.decode (insn m a).insn = some i ∧ (insn m a).Implements i ∧
    (trap m a = true → ∃ x, ((a.machine x0).step m.platform).outcome = .error x ∧
      cfg.handler x = pcWdata cfg m a) ∧
    (trap m a = false → ((a.machine x0).step m.platform).outcome = .ok
      { nextPc := pcWdata cfg m a
        write := i.dest.bind fun rd => (i.result (bytes a.dmem) (insn m a).pcRdata
          (insn m a).rs1Rdata (insn m a).rs2Rdata).map fun v => (rd, v)
        access := i.access (insn m a).rs1Rdata
        data := (a.machine x0).hart.regs.read i.source2 }) := by
  obtain ⟨⟨w, hf⟩, hill⟩ : (∃ w, fetched m a = some w) ∧ (insn m a).control.illegal = false := by
    unfold legal at hlegal
    rw [Bool.and_eq_true, Option.isSome_iff_exists, Bool.not_eq_true'] at hlegal
    exact hlegal
  obtain ⟨hw, -⟩ := legal_of_fetched hf (by
    have hcontrol : (insn m a).control = Control.ofInsn w := by
      unfold insn
      rw [hf]
      rfl
    rw [← hcontrol, hill])
  obtain ⟨i, hdecode, himp⟩ := Insn.implements hill
  refine ⟨i, hdecode, himp, ?_⟩
  rw [step_outcome_of_some x0 hf, ← hw, execute_of_decode x0 hdecode, checked_eq hlegal himp]
  have htrap : trap m a = ((insn m a).branch.trap || memTrap m a) := by simp [trap, hlegal]
  cases ht : (insn m a).branch.taken with
  | false =>
    have hbranch : (insn m a).branch.trap = false := by simp [Branch.trap, ht]
    have hpc : pcWdata cfg m a = if trap m a then cfg.trapVector else a.pc + 4 := by
      simp [pcWdata, ht]
    rw [himp.successor_of_not_taken ht, hpc, htrap, hbranch, Bool.false_or]
    cases memTrap m a with
    | false => exact ⟨fun h => absurd h Bool.false_ne_true, fun _ => rfl⟩
    | true =>
      refine ⟨fun _ => ⟨_, rfl, ?_⟩, fun h => absurd h.symm Bool.false_ne_true⟩
      split_ifs <;> rfl
  | true =>
    have hpc : pcWdata cfg m a = (insn m a).branchTargetMux.target := by simp [pcWdata, ht, hlegal]
    have hmem : memTrap m a = false := by
      cases hacc : accesses m a with
      | false => simp [memTrap, hacc]
      | true =>
        rw [not_taken_of_accesses hacc] at ht
        cases ht
    obtain ⟨u, hu, hsucc⟩ := himp.successor_of_taken (pc_even_of_fetched hf) ht
    rw [hsucc, hpc, htrap, hmem, Bool.or_false]
    cases (insn m a).branch.trap with
    | false => exact ⟨fun h => absurd h Bool.false_ne_true, fun _ => rfl⟩
    | true => exact ⟨fun _ => ⟨_, rfl, hu.symm⟩, fun h => absurd h.symm Bool.false_ne_true⟩

variable (cfg) in
theorem step_of_trap (ht : trap m a = true) :
    ∃ x, ((a.machine x0).step m.platform).outcome = .error x ∧
      cfg.handler x = pcWdata cfg m a := by
  cases hlegal : legal m a with
  | true =>
    obtain ⟨i, -, -, htrap, -⟩ := step_outcome cfg x0 hlegal
    exact htrap ht
  | false =>
    have hpc : pcWdata cfg m a = cfg.trapVector := by simp [pcWdata, hlegal, ht]
    rw [hpc]
    cases hf : fetched m a with
    | none =>
      unfold Rv32i.Machine.step
      rw [fetch_eq, hf]
      dsimp only
      split_ifs
      · exact ⟨_, rfl, rfl⟩
      · exact ⟨_, rfl, rfl⟩
    | some w =>
      have hill : (Control.ofInsn w).illegal = true := by
        by_contra hill
        rw [(legal_of_fetched hf (eq_false_of_ne_true hill)).2] at hlegal
        cases hlegal
      refine ⟨.illegalInstruction, ?_, rfl⟩
      rw [step_outcome_of_some x0 hf, Rv32i.Hart.execute, Rv32i.Instruction.ofWord,
        decode_of_illegal hill]
      rfl

theorem outcome_of_trap (ht : trap m a = true) :
    ∃ x, ((a.machine x0).step m.platform).outcome = .error x := by
  obtain ⟨x, hx, -⟩ := step_of_trap {} x0 ht
  exact ⟨x, hx⟩

theorem legal_of_not_trap (ht : trap m a = false) : legal m a = true := by
  by_contra hl
  simp [trap, eq_false_of_ne_true hl] at ht

/-- An access of an instruction that does not trap is aligned. -/
theorem aligned_of_not_trap (ht : trap m a = false) {acc : Rv32i.Access}
    (hmakes : (insn m a).Makes acc) : acc.Aligned := by
  have hacc : accesses m a = true := by
    rw [accesses, hmakes.memLoad, hmakes.memStore]
    cases acc.isStore <;> rfl
  refine hmakes.misaligned_iff.mp (eq_false_of_ne_true fun hmis => ?_)
  simp [trap, memTrap, hacc, hmis] at ht

/-- The value that the sequential machine writes is the result of the instruction. -/
theorem result_eq (ht : trap m a = false) {i : Rv32i.Instruction}
    (himp : (insn m a).Implements i) {rd : Rv32i.Reg} (hdest : i.dest = some rd) :
    i.result (bytes a.dmem) (insn m a).pcRdata (insn m a).rs1Rdata (insn m a).rs2Rdata =
      some (rdWdata m a) := by
  exact himp.result_eq (fun _ ha => aligned_of_not_trap ht (himp.makes ha)) a.dmem hdest

/-- The register write of the instruction. -/
theorem step_write : ((a.machine x0).step m.platform).write =
    if writes m a then some ((insn m a).control.rd, rdWdata m a) else none := by
  unfold Rv32i.Step.write
  cases ht : trap m a with
  | true =>
    obtain ⟨x, hx⟩ := outcome_of_trap x0 ht
    rw [hx, writes, ht]
    rfl
  | false =>
    obtain ⟨i, hdecode, himp, -, hok⟩ := step_outcome {} x0 (legal_of_not_trap ht)
    have hsel := Control.selects_of_decode hdecode
    have hwen : writes m a = (Control.ofInsn (insn m a).insn).rdWen := by
      rw [writes, ht]
      rfl
    rw [hok ht, hwen]
    dsimp only
    cases hdest : i.dest with
    | none =>
      rw [if_neg]
      · rfl
      · intro hwen
        obtain ⟨r, hr, -⟩ := hsel.rdWen.mp hwen
        rw [hdest] at hr
        cases hr
    | some rd =>
      have hrd : (insn m a).control.rd = rd := hsel.rd rd hdest
      rw [Option.bind_some, result_eq ht himp hdest, Option.map_some]
      by_cases h0 : rd = 0
      · rw [if_neg]
        · simp [h0]
        · intro hwen
          obtain ⟨r, hr, hne⟩ := hsel.rdWen.mp hwen
          rw [hdest] at hr
          exact hne ((Option.some.inj hr).symm.trans h0)
      · rw [if_pos (hsel.rdWen.mpr ⟨rd, hdest, h0⟩), hrd]
        exact if_pos (bne_iff_ne.mpr h0)

/-- The bytes that the record selects for an access are the bytes of the access. -/
theorem selects_iff (ht : trap m a = false) {acc : Rv32i.Access} (hmakes : (insn m a).Makes acc)
    (c : Word) : (record cfg m a).selects (insn m a).align.mask c = true ↔ acc.Covers c := by
  have hacc : accesses m a = true := by
    rw [accesses, hmakes.memLoad, hmakes.memStore]
    cases acc.isStore <;> rfl
  have haddr : (record cfg m a).memAddr = (insn m a).align.addrAligned := by
    simp [record, ht, hacc]
  rw [hmakes.covers_iff (aligned_of_not_trap ht hmakes), RVFI.selects, haddr, hmakes.adr,
    Bool.and_eq_true, beq_iff_eq]

/-- The access of an instruction that does not trap. -/
theorem step_access (ht : trap m a = false) : ∃ i, Rv32i.decode (insn m a).insn = some i ∧
    (insn m a).Implements i ∧
    ((a.machine x0).step m.platform).access = i.access (insn m a).rs1Rdata := by
  obtain ⟨i, hdecode, himp, -, hok⟩ := step_outcome {} x0 (legal_of_not_trap ht)
  refine ⟨i, hdecode, himp, ?_⟩
  unfold Rv32i.Step.access
  rw [hok ht]

/-- What an instruction that does not trap writes. -/
theorem step_writes (ht : trap m a = false) : ∃ i, (insn m a).Implements i ∧
    (∀ w c, i.access (insn m a).rs1Rdata = some (.store w c) →
      ((a.machine x0).step m.platform).writes = fun b =>
        if (Rv32i.Access.store w c).Covers b then some (byte (insn m a).rs2Rdata (b - c).toNat)
        else none) ∧
    ((∀ w c, i.access (insn m a).rs1Rdata ≠ some (.store w c)) →
      ((a.machine x0).step m.platform).writes = fun _ => none) := by
  obtain ⟨i, hdecode, himp, -, hok⟩ := step_outcome {} x0 (legal_of_not_trap ht)
  refine ⟨i, himp, fun w c hs => ?_, fun hs => ?_⟩
  · have hdata := (operands_of_decode x0 hdecode).2 (Rv32i.Instruction.source2_of_store hs)
    funext b
    unfold Rv32i.Step.writes
    rw [hok ht, hs, hdata]
  · funext b
    unfold Rv32i.Step.writes
    rw [hok ht]
    cases ha : i.access (insn m a).rs1Rdata with
    | none => rfl
    | some acc =>
      cases acc with
      | load => rfl
      | store w c => exact absurd ha (hs w c)

theorem record_reads : (record cfg m a).reads = ((a.machine x0).step m.platform).reads := by
  funext c
  have hmask : (record cfg m a).memRmask =
      if !trap m a && (insn m a).control.memLoad then (insn m a).align.mask else 0 := rfl
  unfold Rv32i.Step.reads
  rw [step_before]
  cases ht : trap m a with
  | true =>
    obtain ⟨x, hx⟩ := outcome_of_trap x0 ht
    rw [Rv32i.Step.access, hx]
    exact RVFI.reads_of_mask (by rw [hmask, ht]; rfl) c
  | false =>
    obtain ⟨i, -, himp, haccess⟩ := step_access x0 ht
    rw [ht, Bool.not_false, Bool.true_and] at hmask
    rw [haccess]
    cases ha : i.access (insn m a).rs1Rdata with
    | none => exact RVFI.reads_of_mask (by rw [hmask, (himp.noAccess ha).1]; rfl) c
    | some acc =>
      have hmakes := himp.makes ha
      rw [hmakes.memLoad] at hmask
      cases acc with
      | store w b => exact RVFI.reads_of_mask hmask c
      | load w z b =>
        have hload : (insn m a).control.memLoad = true := hmakes.memLoad
        have hrdata : (record cfg m a).memRdata = a.dmem (adr m a) := by simp [record, ht, hload]
        unfold RVFI.reads
        rw [hmask, hrdata]
        dsimp only
        by_cases hc : (Rv32i.Access.load w z b).Covers c
        · have hword := ((hmakes.covers_iff (aligned_of_not_trap ht hmakes) c).mp hc).1
          rw [if_pos hc, adr, hmakes.adr, ← hword]
          exact if_pos ((selects_iff ht hmakes c).mpr hc)
        · rw [if_neg hc]
          exact if_neg fun h => hc ((selects_iff ht hmakes c).mp h)

theorem record_writes : (record cfg m a).writes = ((a.machine x0).step m.platform).writes := by
  funext c
  have hmask : (record cfg m a).memWmask =
      if !trap m a && (insn m a).control.memStore then (insn m a).align.mask else 0 := rfl
  cases ht : trap m a with
  | true =>
    obtain ⟨x, hx⟩ := outcome_of_trap x0 ht
    rw [Rv32i.Step.writes, hx]
    exact RVFI.writes_of_mask (by rw [hmask, ht]; rfl) c
  | false =>
    obtain ⟨i, himp, hwrites, hother⟩ := step_writes x0 ht
    rw [ht, Bool.not_false, Bool.true_and] at hmask
    cases ha : i.access (insn m a).rs1Rdata with
    | none =>
      rw [hother (by rw [ha]; intro w b h; cases h)]
      exact RVFI.writes_of_mask (by rw [hmask, (himp.noAccess ha).2]; rfl) c
    | some acc =>
      have hmakes := himp.makes ha
      rw [hmakes.memStore] at hmask
      cases acc with
      | load w z b =>
        rw [hother (by rw [ha]; intro w b h; cases h)]
        exact RVFI.writes_of_mask hmask c
      | store w b =>
        have hstore : (insn m a).control.memStore = true := hmakes.memStore
        have hwdata : (record cfg m a).memWdata = (insn m a).align.wdataAligned := by
          simp [record, ht, hstore]
        unfold RVFI.writes
        rw [hmask, hwdata, hwrites w b ha]
        dsimp only
        by_cases hc : (Rv32i.Access.store w b).Covers c
        · rw [if_pos hc, ← hmakes.byte_wdata (aligned_of_not_trap ht hmakes) hc]
          exact if_pos ((selects_iff ht hmakes c).mpr hc)
        · rw [if_neg hc]
          exact if_neg fun h => hc ((selects_iff ht hmakes c).mp h)

theorem step_raises : ((a.machine x0).step m.platform).raises = trap m a := by
  unfold Rv32i.Step.raises
  cases ht : trap m a with
  | true =>
    obtain ⟨x, hx⟩ := outcome_of_trap x0 ht
    rw [hx]
  | false =>
    obtain ⟨i, -, -, -, hok⟩ := step_outcome {} x0 (legal_of_not_trap ht)
    rw [hok ht]

theorem step_nextPc : ((a.machine x0).step m.platform).nextPc cfg.handler = pcWdata cfg m a := by
  unfold Rv32i.Step.nextPc
  cases ht : trap m a with
  | true =>
    obtain ⟨x, hx, hpc⟩ := step_of_trap cfg x0 ht
    rw [hx]
    exact hpc
  | false =>
    obtain ⟨i, -, -, -, hok⟩ := step_outcome cfg x0 (legal_of_not_trap ht)
    rw [hok ht]

/-- The record of the sequential machine describes the instruction of the hart. -/
theorem record_reports :
    (record cfg m a).Reports cfg.handler ((a.machine x0).step m.platform) where
  pcRdata := by rw [step_before]; rfl
  insn := by rw [step_insn]; rfl
  trap := (step_raises x0).symm
  pcWdata := (step_nextPc x0).symm
  rs1 := by
    rw [step_before]
    change (if (insn m a).control.rs1Ren then a.regs (insn m a).control.rs1 else 0) =
      a.regs (if (insn m a).control.rs1Ren then (insn m a).control.rs1 else 0)
    split_ifs
    · rfl
    · exact x0.symm
  rs2 := by
    rw [step_before]
    change (if (insn m a).control.rs2Ren then a.regs (insn m a).control.rs2 else 0) =
      a.regs (if (insn m a).control.rs2Ren then (insn m a).control.rs2 else 0)
    split_ifs
    · rfl
    · exact x0.symm
  rd := by
    rw [step_write]
    change (if writes m a then (insn m a).control.rd else 0,
      if writes m a then rdWdata m a else 0) = _
    split_ifs <;> rfl
  reads := record_reads x0
  writes := record_writes x0

/-- The data memory after the instruction, byte by byte. -/
theorem next_dmem (c : Word) : bytes (next cfg m a).2.dmem c =
    (((a.machine x0).step m.platform).writes c).getD (bytes a.dmem c) := by
  have hnext : (next cfg m a).2.dmem = if !trap m a && (insn m a).control.memStore then
      Function.update a.dmem (adr m a) (mergeLanes (insn m a).align.mask (a.dmem (adr m a))
        (insn m a).align.wdataAligned) else a.dmem := rfl
  rw [hnext]
  cases ht : trap m a with
  | true =>
    obtain ⟨x, hx⟩ := outcome_of_trap x0 ht
    rw [Rv32i.Step.writes, hx]
    rfl
  | false =>
    obtain ⟨i, himp, hwrites, hother⟩ := step_writes x0 ht
    rw [Bool.not_false, Bool.true_and]
    cases ha : i.access (insn m a).rs1Rdata with
    | none =>
      rw [hother (by rw [ha]; intro w b h; cases h), (himp.noAccess ha).2]
      rfl
    | some acc =>
      have hmakes := himp.makes ha
      rw [hmakes.memStore]
      cases acc with
      | load w z b =>
        rw [hother (by rw [ha]; intro w b h; cases h)]
        rfl
      | store w b =>
        have hmis : ((insn m a).memOp (.store w b)).unit.misaligned = false := by
          rw [← hmakes.unit]
          exact hmakes.misaligned_iff.mpr (aligned_of_not_trap ht hmakes)
        have hstore := MemOp.bytes_store a.dmem hmis
        have hwe : (Rv32i.Access.store w b).isStore = true := rfl
        rw [hwrites w b ha, if_pos hwe, adr, hmakes.adr, hmakes.unit]
        refine (congrFun hstore c).trans ?_
        dsimp only
        change (if (c - b).toNat < (MemWidth.ofManual w).size then
          byte (insn m a).rs2Rdata (c - b).toNat else bytes a.dmem c) = _
        rw [size_ofManual]
        by_cases hc : (Rv32i.Access.store w b).Covers c
        · rw [if_pos hc]
          exact if_pos hc
        · rw [if_neg hc]
          exact if_neg hc

variable (cfg) in
/-- The state after the instruction stands for the machine after it. -/
theorem next_machine : ∃ x0', (next cfg m a).2.machine x0' =
    ((a.machine x0).next m.platform cfg.handler).2 := by
  have hregs : (next cfg m a).2.regs = (((a.machine x0).step m.platform).before.hart.regs.write
      ((a.machine x0).step m.platform).write).x := by
    have hnext : (next cfg m a).2.regs = if writes m a then
        Function.update a.regs (insn m a).control.rd (rdWdata m a) else a.regs := rfl
    rw [hnext, step_before, step_write]
    split_ifs with hw
    · have hne : (insn m a).control.rd ≠ 0 := by
        have hwen : (Control.ofInsn (insn m a).insn).rdWen = true :=
          (Bool.and_eq_true_iff.mp hw).2
        simp only [Control.ofInsn, Bool.and_eq_true, bne_iff_ne] at hwen
        exact hwen.1.1
      rw [Rv32i.Regs.write_x, if_neg hne]
      rfl
    · rfl
  have hx0 : (next cfg m a).2.regs 0 = 0 := by
    rw [hregs]
    exact Rv32i.Regs.x0 _
  refine ⟨hx0, ?_⟩
  have hregs' : (⟨(next cfg m a).2.regs, hx0⟩ : Rv32i.Regs) =
      ((a.machine x0).step m.platform).before.hart.regs.write
        ((a.machine x0).step m.platform).write := Rv32i.Regs.ext hregs
  have hmem : bytes (next cfg m a).2.dmem = fun c =>
      (((a.machine x0).step m.platform).writes c).getD (bytes a.dmem c) :=
    funext fun c => next_dmem x0 c
  have hpc : (next cfg m a).2.pc = ((a.machine x0).step m.platform).nextPc cfg.handler :=
    (step_nextPc x0).symm
  have hafter : ((a.machine x0).next m.platform cfg.handler).2 =
      { hart :=
          { pc := ((a.machine x0).step m.platform).nextPc cfg.handler
            regs := ((a.machine x0).step m.platform).before.hart.regs.write
              ((a.machine x0).step m.platform).write }
        mem := fun c => (((a.machine x0).step m.platform).writes c).getD
          (((a.machine x0).step m.platform).before.mem c) } := rfl
  rw [hafter, ← hregs', ← hpc, Arch.machine, hmem, step_before]
  rfl

end Sequential
end Icicle
