import Icicle.Core.ControlFlow
import Icicle.Core.SideEffects
import Icicle.Datapath.Instruction

/-! The `mem_fault` field of RVFI. It is merged from fetch and memory access, where the trap
of the load-store unit does not ask whether the token is valid. -/
namespace Icicle
open Wishbone

/-- The instruction of a token, with the operands that the token carries. -/
def MW.instruction (i : MW) : Insn := ⟨i.insn, i.pcRdata, i.rs1Rdata, i.rs2Rdata⟩

/-- An illegal word with the opcode of a load or store, which computes a misaligned address. -/
def Insn.SpuriousFault (n : Insn) : Prop :=
  n.control.illegal = true ∧ (n.control.memLoad || n.control.memStore) = true ∧
    n.align.misaligned = true

instance (n : Insn) : Decidable n.SpuriousFault := inferInstanceAs (Decidable (_ ∧ _ ∧ _))

/-- The unit of a token in memory access, whether or not the token is valid. -/
theorem loadStore_executed (i : FD) (v₁ v₂ : Word) :
    MemoryAccess.loadStore (executed i v₁ v₂) =
      let n : Insn := ⟨i.insn, i.pcRdata, v₁, v₂⟩
      { toWordAlign := n.align
        valid := (executed i v₁ v₂).state == .valid
        load := n.control.memLoad
        store := n.control.memStore } := rfl

section Run
variable (cfg : Config) (bus : ℕ → CpuIn)

/-- The fetch of cycle `c` faults: its address is misaligned or its answer an error. -/
def FetchFaults (c : ℕ) : Prop :=
  (stateAt cfg bus c).pf.pcRdata.extractLsb' 0 2 ≠ 0 ∨
    (handshake (ibusAt cfg bus c) (bus c).ibus = true ∧ (bus c).ibus.err = true)

/-- In cycle `u` memory access holds a valid token, a legal load or store, and the access
faults: its address is misaligned or its answer an error. -/
def AccessFaults (u : ℕ) : Prop :=
  let i := (stateAt cfg bus u).xm
  i.state = .valid ∧ (Control.ofInsn i.insn).illegal = false ∧ (i.memLoad || i.memStore) = true ∧
    ((MemoryAccess.loadStore i).misaligned = true ∨
      (handshake (dbusAt cfg bus u) (bus u).dbus = true ∧ (bus u).dbus.err = true))

/-- The record of an instruction that was fetched in cycle `c` and left memory access in
cycle `u` reports a memory fault exactly if one happened. -/
structure ReportsFaults (c u : ℕ) (r : RVFI) : Prop where
  happened : r.memFault = true → FetchFaults cfg bus c ∨ AccessFaults cfg bus u
  reported : FetchFaults cfg bus c ∨ AccessFaults cfg bus u → r.memFault = true ∧ r.trap = true

variable {cfg bus}

theorem Accepted.memFault_iff {c : ℕ} {i : FD} (h : Accepted cfg bus c i) :
    i.memFault = true ↔ FetchFaults cfg bus c := by
  have hbus : ibusAt cfg bus c = (Fetch.loadStore (stateAt cfg bus c).pf false false).bus :=
    h.ibus_eq
  have hmis : (Fetch.loadStore (stateAt cfg bus c).pf false false).misaligned = true ↔
      (stateAt cfg bus c).pf.pcRdata.extractLsb' 0 2 ≠ 0 := by
    simp [WordAlign.misaligned, Fetch.loadStore, WordAlign.offset]
  have hfault : i.memFault =
      (Fetch.loadStore (stateAt cfg bus c).pf false false).trap (bus c).ibus := by
    rw [h.token]
    rfl
  rw [hfault, LoadStore.trap_iff, hmis, ← hbus]
  exact ⟨fun ht => ht.2, fun ht => ⟨rfl, ht⟩⟩

section Token
variable {c u : ℕ} {i : FD} {v₁ v₂ : Word}

/-- What the record of a token says, in terms of the unit of its access. -/
theorem record_memFault (cfg : Config) (i : FD) (v₁ v₂ : Word) (p : Response) (r : RVFI) :
    (Writeback.record (MemoryAccess.token cfg (executed i v₁ v₂) p) r).memFault =
      (i.memFault || (MemoryAccess.loadStore (executed i v₁ v₂)).trap p) ∧
    (Writeback.record (MemoryAccess.token cfg (executed i v₁ v₂) p) r).trap =
      ((MemoryAccess.token cfg (executed i v₁ v₂) p).state == .trap) := ⟨rfl, rfl⟩

theorem accessFaults_iff (hx : (stateAt cfg bus u).xm = executed i v₁ v₂) :
    AccessFaults cfg bus u ↔ (executed i v₁ v₂).state = .valid ∧
      (Control.ofInsn i.insn).illegal = false ∧
      (MemoryAccess.loadStore (executed i v₁ v₂)).trap (bus u).dbus = true := by
  have hbus : dbusAt cfg bus u = (MemoryAccess.loadStore (executed i v₁ v₂)).bus := by
    unfold dbusAt Cpu.dbus
    rw [hx]
  rw [LoadStore.trap_iff, AccessFaults, hbus, hx]
  rfl

/-- A fault of the fetch is reported, and its word is no load or store. -/
theorem reportsFaults_of_fetchFaults (ha : Accepted cfg bus c i) (hf : FetchFaults cfg bus c)
    (r : RVFI) :
    ReportsFaults cfg bus c u
        (Writeback.record (MemoryAccess.token cfg (executed i v₁ v₂) (bus u).dbus) r) ∧
      ¬ (⟨i.insn, i.pcRdata, v₁, v₂⟩ : Insn).SpuriousFault := by
  have hm := ha.memFault_iff.mpr hf
  have hload : (Fetch.loadStore (stateAt cfg bus c).pf false false).trap (bus c).ibus = true := by
    rw [ha.token] at hm
    exact hm
  obtain ⟨h0, -, hs⟩ := Fetch.token_of_trap ha.valid hload
  rw [← ha.token] at h0 hs
  have hstate : (MemoryAccess.token cfg (executed i v₁ v₂) (bus u).dbus).state = .trap :=
    MemoryAccess.token_of_trap hs v₁ v₂ _
  constructor
  · obtain ⟨hfault, htrap⟩ := record_memFault cfg i v₁ v₂ (bus u).dbus r
    refine ⟨fun _ => .inl hf, fun _ => ?_⟩
    rw [hfault, htrap, hm, hstate]
    exact ⟨rfl, rfl⟩
  · rintro ⟨-, hmem, -⟩
    simp only [Insn.control, h0] at hmem
    exact absurd hmem (by decide)

/-- A legal instruction behind a fetch without a fault: its own access decides. -/
theorem reportsFaults_of_legal (hf : ¬ FetchFaults cfg bus c) (hm : i.memFault = false)
    (hx : (stateAt cfg bus u).xm = executed i v₁ v₂)
    (hill : (Control.ofInsn i.insn).illegal = false)
    (hstate : (executed i v₁ v₂).state = .valid) (r : RVFI) :
    ReportsFaults cfg bus c u
      (Writeback.record (MemoryAccess.token cfg (executed i v₁ v₂) (bus u).dbus) r) := by
  obtain ⟨hfault, htrap⟩ := record_memFault cfg i v₁ v₂ (bus u).dbus r
  rw [hm, Bool.false_or] at hfault
  have hiff : (MemoryAccess.loadStore (executed i v₁ v₂)).trap (bus u).dbus = true ↔
      AccessFaults cfg bus u := by
    rw [accessFaults_iff hx, hstate, hill]
    simp
  constructor
  · exact fun h => .inr (hiff.mp (hfault ▸ h))
  · intro h
    have haccess := hiff.mpr (h.resolve_left hf)
    have htoken : (MemoryAccess.token cfg (executed i v₁ v₂) (bus u).dbus).state = .trap := by
      rw [MemoryAccess.token_trap_iff, MemoryAccess.stage_trap, hstate, haccess]
      simp
    rw [hfault, htrap, haccess, htoken]
    exact ⟨rfl, rfl⟩

/-- An illegal word behind a fetch without a fault: the unit of the access asserts no
request, and still traps if the address is misaligned. -/
theorem reportsFaults_of_illegal (hf : ¬ FetchFaults cfg bus c) (hm : i.memFault = false)
    (hx : (stateAt cfg bus u).xm = executed i v₁ v₂)
    (hill : (Control.ofInsn i.insn).illegal = true)
    (hstate : (executed i v₁ v₂).state = .trap) (r : RVFI) :
    ReportsFaults cfg bus c u
        (Writeback.record (MemoryAccess.token cfg (executed i v₁ v₂) (bus u).dbus) r) ↔
      ¬ (⟨i.insn, i.pcRdata, v₁, v₂⟩ : Insn).SpuriousFault := by
  obtain ⟨hfault, -⟩ := record_memFault cfg i v₁ v₂ (bus u).dbus r
  rw [hm, Bool.false_or] at hfault
  have hnone : ¬ (FetchFaults cfg bus c ∨ AccessFaults cfg bus u) := by
    rintro (h | h)
    · exact hf h
    · rw [accessFaults_iff hx, hstate] at h
      cases h.1
  have hidle : (MemoryAccess.loadStore (executed i v₁ v₂)).bus.requesting = false := by
    rw [MemoryAccess.requesting_eq, XM.accesses, hstate]
    rfl
  have hspurious : (MemoryAccess.loadStore (executed i v₁ v₂)).trap (bus u).dbus = true ↔
      (⟨i.insn, i.pcRdata, v₁, v₂⟩ : Insn).SpuriousFault := by
    rw [LoadStore.trap_iff, handshake, hidle, Insn.SpuriousFault, Insn.control, hill,
      loadStore_executed]
    simp [Insn.control]
  rw [← hspurious, ← hfault]
  constructor
  · exact fun h hr => hnone (h.happened hr)
  · exact fun h => ⟨fun hr => absurd hr h, fun hr => absurd hr hnone⟩

/-- Behind a fetch without a fault, the unit of the access decides. -/
theorem reportsFaults_of_fetched (ha : Accepted cfg bus c i) (hf : ¬ FetchFaults cfg bus c)
    (hx : (stateAt cfg bus u).xm = executed i v₁ v₂) (r : RVFI) :
    ReportsFaults cfg bus c u
        (Writeback.record (MemoryAccess.token cfg (executed i v₁ v₂) (bus u).dbus) r) ↔
      ¬ (⟨i.insn, i.pcRdata, v₁, v₂⟩ : Insn).SpuriousFault := by
  have hm : i.memFault = false := eq_false_of_ne_true fun hm => hf (ha.memFault_iff.mp hm)
  have hload : (Fetch.loadStore (stateAt cfg bus c).pf false false).trap (bus c).ibus = false := by
    rw [ha.token] at hm
    exact hm
  have hvalid : i.state = .valid := by
    rw [ha.token, (Fetch.token_of_not_trap hload).2.2, ha.valid]
  have hstate : (executed i v₁ v₂).state =
      if (Control.ofInsn i.insn).illegal then .trap else .valid :=
    Decode.token_state_of_valid hvalid
  cases hill : (Control.ofInsn i.insn).illegal with
  | false =>
    rw [hill] at hstate
    have hlegal : ¬ (⟨i.insn, i.pcRdata, v₁, v₂⟩ : Insn).SpuriousFault := by
      rintro ⟨h, -, -⟩
      rw [Insn.control, hill] at h
      cases h
    exact ⟨fun _ => hlegal, fun _ => reportsFaults_of_legal hf hm hx hill hstate r⟩
  | true =>
    rw [hill] at hstate
    exact reportsFaults_of_illegal hf hm hx hill hstate r

end Token

/-- Every instruction that retires: its record reports exactly the faults of its own fetch
and its own access, unless it is an illegal load or store at a misaligned address. -/
theorem reportsFaults_iff {t : ℕ} {r : Retirement} (h : retirement cfg bus t = some r) :
    ∃ c u, t = u + 1 ∧ FetchedIn cfg bus c r.token ∧
      r.token = MemoryAccess.token cfg (stateAt cfg bus u).xm (bus u).dbus ∧
      (ReportsFaults cfg bus c u r.rvfi ↔ ¬ r.token.instruction.SpuriousFault) := by
  cases t with
  | zero => exact absurd rfl (retirement_eq_some.mp h).1
  | succ u =>
    have hdepart : departure cfg bus u = some ((stateAt cfg bus u).xm, r) := by
      rw [departure, h]
      rfl
    obtain ⟨hb, -, -, htoken, hrvfi⟩ := departure_eq_some.mp hdepart
    obtain ⟨i, v₁, v₂, ha, hx⟩ := (traced cfg bus u).xm hb
    rw [hx] at htoken
    refine ⟨(tagsAt cfg bus u).xm, u, rfl, ha.fetchedIn htoken, by rw [hx, htoken], ?_⟩
    have hinsn : r.token.instruction = ⟨i.insn, i.pcRdata, v₁, v₂⟩ := by
      rw [htoken]
      rfl
    rw [hinsn, hrvfi, htoken]
    by_cases hf : FetchFaults cfg bus (tagsAt cfg bus u).xm
    · obtain ⟨hreports, hnone⟩ :=
        reportsFaults_of_fetchFaults ha hf (stateAt cfg bus (u + 1)).rvfi
      exact ⟨fun _ => hnone, fun _ => hreports⟩
    · exact reportsFaults_of_fetched ha hf hx _

/-- An instruction memory that holds `lw x1, 1(x0)` everywhere. -/
def loadEverywhere : ℕ → CpuIn := fun _ => ⟨⟨true, false, 0x00102083⟩, ⟨false, false, 0⟩⟩

/-- The misaligned load at address 0 faults, and its record says so. -/
theorem misalignedLoad_reported : AccessFaults {} loadEverywhere 4 ∧
    ((retirement {} loadEverywhere 5).map fun r => r.rvfi.memFault) = some true := by
  have hmw : (stateAt {} loadEverywhere 5).mw.state ≠ .bubble := by decide
  have haccess : AccessFaults {} loadEverywhere 4 := by
    unfold AccessFaults
    decide
  obtain ⟨c, u, hu, -, -, hiff⟩ := reportsFaults_iff (retirement_of_mw hmw)
  obtain rfl : u = 4 := by omega
  have hlegal : ¬ (stateAt {} loadEverywhere 5).mw.instruction.SpuriousFault := by decide
  have hreports := (hiff.mpr hlegal).reported (.inr haccess)
  rw [retirement_of_mw hmw]
  exact ⟨haccess, congrArg some hreports.1⟩

/-- An instruction memory that holds everywhere the load of width 2 and with zero extension,
which RV32I does not have, into `x1` from address 1. -/
def illegalLoadEverywhere : ℕ → CpuIn := fun _ => ⟨⟨true, false, 0x00106083⟩, ⟨false, false, 0⟩⟩

/-- The illegal instruction at address 0 is fetched without a fault and is no access, and its
record reports a memory fault. -/
theorem illegalLoad_reports_fault :
    FetchedIn {} illegalLoadEverywhere 1 (stateAt {} illegalLoadEverywhere 5).mw ∧
    (stateAt {} illegalLoadEverywhere 5).mw =
      MemoryAccess.token {} (stateAt {} illegalLoadEverywhere 4).xm (illegalLoadEverywhere 4).dbus ∧
    ((retirement {} illegalLoadEverywhere 5).map fun r => r.rvfi.memFault) = some true ∧
    ¬ ∀ r, retirement {} illegalLoadEverywhere 5 = some r →
      ReportsFaults {} illegalLoadEverywhere 1 4 r.rvfi := by
  have hmw : (stateAt {} illegalLoadEverywhere 5).mw.state ≠ .bubble := by decide
  have hret := retirement_of_mw hmw
  have hfault : (Writeback.record (stateAt {} illegalLoadEverywhere 5).mw
      (stateAt {} illegalLoadEverywhere 5).rvfi).memFault = true := by decide
  refine ⟨fetchedIn hmw, rfl, ?_, fun h => ?_⟩
  · rw [hret]
    exact congrArg some hfault
  · have hfetch : ¬ FetchFaults {} illegalLoadEverywhere 1 := by
      unfold FetchFaults
      decide
    have haccess : ¬ AccessFaults {} illegalLoadEverywhere 4 := by
      unfold AccessFaults
      decide
    rcases (h _ hret).happened hfault with hf | ha
    · exact hfetch hf
    · exact haccess ha

end Run
end Icicle
