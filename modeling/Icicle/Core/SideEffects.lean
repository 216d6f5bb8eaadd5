import Icicle.Core.Tags

/-! The side effects of the core: accesses on the data bus and writes to the register
file. Each belongs to one token, which retires. -/
namespace Icicle
open Wishbone

/-- A valid load or store at an aligned address. -/
def XM.accesses (i : XM) : Bool :=
  i.state == .valid && (i.memLoad || i.memStore) && !(MemoryAccess.loadStore i).misaligned

namespace MemoryAccess

/-- The request is asserted exactly for a valid load or store at an aligned address. -/
theorem requesting_eq (i : XM) : (loadStore i).bus.requesting = i.accesses := by
  simp only [Request.requesting, LoadStore.bus, Bool.and_self]
  rfl

theorem cyc_eq (i : XM) : (loadStore i).bus.cyc = i.accesses := rfl

/-- A token whose access is answered retires valid exactly without an error. -/
theorem token_state_of_accesses {cfg : Config} {i : XM} {p : Response} (h : i.accesses = true)
    (hb : i.branchOp = .never) :
    (token cfg i p).state = if p.err then .trap else .valid := by
  simp only [XM.accesses, Bool.and_eq_true, beq_iff_eq, Bool.not_eq_true'] at h
  obtain ⟨⟨hv, hm⟩, hal⟩ := h
  have hbranch : (branch i).trap = false := by simp [Branch.trap, Branch.taken, branch, hb]
  have hcyc : (loadStore i).bus.cyc = true := by rw [cyc_eq]; simp [XM.accesses, hv, hm, hal]
  have htrap : (loadStore i).trap p = p.err := by
    have hload : ((loadStore i).load || (loadStore i).store) = true := hm
    have hstb : (loadStore i).bus.stb = true := hcyc
    simp only [LoadStore.trap, LoadStore.fault, hload, hal, hcyc, hstb, Bool.true_and,
      Bool.false_or]
  rw [token_state, Stage.passed, stage_trap, hv, hbranch, htrap]
  cases p.err
  · simpa [stage] using hv
  · simp

end MemoryAccess

/-- A completed handshake on the data bus. -/
structure Access where
  request : Request 30
  response : Response

/-- What the retirement of a token says about its access. -/
structure Belongs (a : Access) (r : Retirement) : Prop where
  error : a.response.err = true → r.token.state = .trap
  done : a.response.err = false →
    r.token.state = .valid ∧ r.rvfi.memAddr.toNat = 4 * a.request.adr.toNat
  load : a.response.err = false → a.request.we = false →
    r.rvfi.memRmask = a.request.sel ∧ r.rvfi.memRdata = a.response.datR ∧ r.rvfi.memWmask = 0
  store : a.response.err = false → a.request.we = true →
    r.rvfi.memWmask = a.request.sel ∧ r.rvfi.memWdata = a.request.datW ∧ r.rvfi.memRmask = 0

theorem XM.accesses_iff {i : XM} : i.accesses = true ↔
    i.state = .valid ∧ (i.memLoad || i.memStore) = true ∧
      (MemoryAccess.loadStore i).misaligned = false := by
  simp [XM.accesses, and_assoc]

/-- The record of a token whose access is answered describes the handshake. -/
theorem MemoryAccess.token_belongs {i : XM} (h : i.accesses = true)
    (hexcl : i.memStore = true → i.memLoad = false) (hb : i.branchOp = .never) (cfg : Config)
    (p : Response) (r : RVFI) :
    Belongs ⟨(loadStore i).bus, p⟩ ⟨token cfg i p, Writeback.record (token cfg i p) r⟩ := by
  have hstate : (token cfg i p).state = if p.err then .trap else .valid :=
    token_state_of_accesses h hb
  have hmem := (XM.accesses_iff.mp h).2.1
  have hvalid : p.err = false → (token cfg i p).state = .valid := fun he => by simp [hstate, he]
  have haddr : ((loadStore i).bus.adr ++ 0#2).toNat = 4 * (loadStore i).bus.adr.toNat := by
    rw [BitVec.toNat_append, Nat.shiftLeft_eq, BitVec.toNat_ofNat, Nat.zero_mod, Nat.or_zero]
    omega
  have htrap : p.err = true → (token cfg i p).state = .trap := fun he => by simp [hstate, he]
  refine ⟨htrap, fun he => ⟨hvalid he, ?_⟩, fun he hwe => ?_, fun he hwe => ?_⟩
  · have hrec : (Writeback.record (token cfg i p) r).memAddr =
        if ((token cfg i p).state == .valid) && (i.memLoad || i.memStore) then
          (loadStore i).addrAligned else 0 := rfl
    rw [hrec, hvalid he, hmem, ← haddr, LoadStore.bus_adr]
    rfl
  · have hstore : i.memStore = false := hwe
    have hload : i.memLoad = true := by simpa [hstore] using hmem
    have hload' : (token cfg i p).memLoad = true := hload
    have hstore' : (token cfg i p).memStore = false := hstore
    simp only [Writeback.record, hvalid he, hload', hstore', beq_self_eq_true, Bool.and_self,
      Bool.and_false, if_true, Bool.false_eq_true, if_false, and_true]
    exact ⟨rfl, rfl⟩
  · have hstore : i.memStore = true := hwe
    have hload' : (token cfg i p).memLoad = false := hexcl hstore
    have hstore' : (token cfg i p).memStore = true := hstore
    simp only [Writeback.record, hvalid he, hload', hstore', beq_self_eq_true, Bool.and_self,
      Bool.and_false, if_true, Bool.false_eq_true, if_false, and_true]
    exact ⟨rfl, rfl⟩

section Run
variable (cfg : Config) (bus : ℕ → CpuIn)

def accessAt (t : ℕ) : Option Access :=
  if handshake (stateAt cfg bus t).dbus (bus t).dbus then
    some ⟨(stateAt cfg bus t).dbus, (bus t).dbus⟩
  else none

/-- The completed handshakes on the data bus before cycle `t`, in time order. -/
def accesses (t : ℕ) : List Access := Clocked.log (accessAt cfg bus) t

/-- The token that retires in cycle `t + 1`, with what it was in memory access in cycle `t`. -/
def departure (t : ℕ) : Option (XM × Retirement) :=
  (retirement cfg bus (t + 1)).map fun r => ((stateAt cfg bus t).xm, r)

def departures (t : ℕ) : List (XM × Retirement) := Clocked.log (departure cfg bus) t

variable {cfg bus}

/-- The departures are the retirements, each one cycle earlier. -/
theorem departures_map_snd (t : ℕ) :
    (departures cfg bus t).map Prod.snd = retired cfg bus (t + 1) := by
  have h0 : retired cfg bus 1 = [] :=
    retired_succ_none (retirement_eq_none.mpr rfl)
  induction t with
  | zero => exact h0.symm
  | succ t ih =>
    cases hr : retirement cfg bus (t + 1) with
    | none =>
      rw [retired_succ_none hr, ← ih, departures,
        Clocked.log_succ_none (by rw [departure, hr]; rfl)]
      rfl
    | some r =>
      rw [retired_succ_some hr, ← ih, departures,
        Clocked.log_succ_some (by rw [departure, hr]; rfl), List.map_append]
      rfl

/-- A token leaves memory access in a cycle that does not wait for the bus. -/
theorem departure_eq_some {t : ℕ} {d : XM × Retirement} :
    departure cfg bus t = some d ↔
      (stateAt cfg bus t).xm.state ≠ .bubble ∧
      pending (stateAt cfg bus t).dbus (bus t).dbus = false ∧
      d.1 = (stateAt cfg bus t).xm ∧
      d.2.token = MemoryAccess.token cfg (stateAt cfg bus t).xm (bus t).dbus ∧
      d.2.rvfi = Writeback.record d.2.token (stateAt cfg bus (t + 1)).rvfi := by
  obtain ⟨x, r⟩ := d
  have hnext : (stateAt cfg bus (t + 1)).mw =
      (stateAt cfg bus t).nextMW Blocks.rtl cfg (bus t) := rfl
  unfold departure
  rw [Option.map_eq_some_iff]
  constructor
  · rintro ⟨r', hr, hd⟩
    obtain ⟨rfl, rfl⟩ := Prod.mk.injEq .. ▸ hd
    obtain ⟨hb, ht, hv⟩ := retirement_eq_some.mp hr
    cases hp : pending (stateAt cfg bus t).dbus (bus t).dbus with
    | true => exact absurd (Cpu.nextMW_waits hp) (hnext ▸ hb)
    | false =>
      rw [hnext, Cpu.nextMW_moves hp] at hb ht
      exact ⟨by simpa using hb, rfl, rfl, ht, by rw [hv, ht, hnext, Cpu.nextMW_moves hp]⟩
  · rintro ⟨hb, hp, rfl, ht, hv⟩
    refine ⟨r, retirement_eq_some.mpr ?_, rfl⟩
    rw [hnext, Cpu.nextMW_moves hp, ← ht]
    exact ⟨by rw [ht]; simpa using hb, rfl, hv⟩

theorem departure_of_answered {t : ℕ} (hb : (stateAt cfg bus t).xm.state ≠ .bubble)
    (hp : pending (stateAt cfg bus t).dbus (bus t).dbus = false) :
    departure cfg bus t = some ((stateAt cfg bus t).xm,
      ⟨MemoryAccess.token cfg (stateAt cfg bus t).xm (bus t).dbus,
        Writeback.record (MemoryAccess.token cfg (stateAt cfg bus t).xm (bus t).dbus)
          (stateAt cfg bus (t + 1)).rvfi⟩) :=
  departure_eq_some.mpr ⟨hb, hp, rfl, rfl, rfl⟩

/-- A token with an access leaves memory access exactly in the cycle of its handshake. -/
theorem access_rel (t : ℕ) : Option.Rel (fun a d => Belongs a d.2) (accessAt cfg bus t)
    ((departure cfg bus t).filter fun d => d.1.accesses) := by
  have hreq : (stateAt cfg bus t).dbus.requesting = (stateAt cfg bus t).xm.accesses :=
    MemoryAccess.requesting_eq _
  cases hh : handshake (stateAt cfg bus t).dbus (bus t).dbus with
  | false =>
    have hnone : (departure cfg bus t).filter (fun d => d.1.accesses) = none := by
      rw [Option.filter_eq_none_iff]
      intro d hd hacc
      obtain ⟨-, hp, hx, -, -⟩ := departure_eq_some.mp hd
      rw [hx, ← hreq] at hacc
      rcases handshake_or_pending hacc with h | h
      · rw [hh] at h
        exact Bool.false_ne_true h
      · rw [hp] at h
        exact Bool.false_ne_true h
    rw [hnone, accessAt, hh]
    exact Option.Rel.none
  | true =>
    obtain ⟨hrq, hans⟩ := Bool.and_eq_true_iff.mp hh
    have hacc : (stateAt cfg bus t).xm.accesses = true := hreq ▸ hrq
    have hpend : pending (stateAt cfg bus t).dbus (bus t).dbus = false := by
      simp [pending, hans]
    obtain ⟨hv, hmem, -⟩ := XM.accesses_iff.mp hacc
    have hnb : (stateAt cfg bus t).xm.state ≠ .bubble := by simp [hv]
    obtain ⟨i, v₁, v₂, -, hx⟩ := (traced cfg bus t).xm hnb
    have hexcl : (stateAt cfg bus t).xm.memStore = true →
        (stateAt cfg bus t).xm.memLoad = false := by
      rw [hx]
      exact (Control.ofInsn_consistent i.insn).exclusive
    have hbranch : (stateAt cfg bus t).xm.branchOp = .never := by
      rw [hx] at hmem ⊢
      exact (Control.ofInsn_consistent i.insn).branchOp hmem
    unfold accessAt
    rw [if_pos hh, departure_of_answered hnb hpend, Option.filter_some, if_pos hacc]
    exact Option.Rel.some (MemoryAccess.token_belongs hacc hexcl hbranch cfg _ _)

/-- A token that asserts a request is a valid load or store at an aligned address. It
is not squashed: it stays with its request until the answer and then retires. -/
theorem cyc_departs {t : ℕ} (h : (stateAt cfg bus t).dbus.cyc = true) :
    (stateAt cfg bus t).xm.accesses = true ∧
      ((pending (stateAt cfg bus t).dbus (bus t).dbus = true ∧
          (stateAt cfg bus (t + 1)).xm = (stateAt cfg bus t).xm ∧
          (tagsAt cfg bus (t + 1)).xm = (tagsAt cfg bus t).xm) ∨
        ∃ r, departure cfg bus t = some ((stateAt cfg bus t).xm, r) ∧
          (tagsAt cfg bus (t + 1)).mw = (tagsAt cfg bus t).xm) := by
  have hacc : (stateAt cfg bus t).xm.accesses = true := h
  refine ⟨hacc, ?_⟩
  have hnb : (stateAt cfg bus t).xm.state ≠ .bubble := by simp [(XM.accesses_iff.mp hacc).1]
  cases hp : pending (stateAt cfg bus t).dbus (bus t).dbus with
  | true => exact .inl ⟨rfl, Cpu.nextXM_waits hp, (Cpu.tags_wait hp _ _).2.2⟩
  | false =>
    exact .inr ⟨_, departure_of_answered hnb hp, Cpu.tags_redirect hp _ _⟩

variable (cfg bus) in
/-- The use of the write port of the register file in cycle `t`. -/
def registerWriteAt (t : ℕ) : Option RdPort :=
  if (stateAt cfg bus t).rdPort.en then some (stateAt cfg bus t).rdPort else none

variable (cfg bus) in
def registerWrites (t : ℕ) : List RdPort := Clocked.log (registerWriteAt cfg bus) t

/-- A retired token that writes its register. -/
def Retirement.writes (r : Retirement) : Bool := r.token.state == .valid && r.token.rdWen

theorem registerWrite_rel (t : ℕ) : Option.Rel (fun (w : RdPort) (r : Retirement) =>
      w.addr = r.token.rd ∧ w.data = Writeback.rdWdata r.token ∧ w.addr = r.rvfi.rdAddr ∧
        w.data = r.rvfi.rdWdata)
    (registerWriteAt cfg bus t) ((retirement cfg bus t).filter Retirement.writes) := by
  have hen : (stateAt cfg bus t).rdPort.en =
      ((stateAt cfg bus t).mw.state == .valid && (stateAt cfg bus t).mw.rdWen) := by
    simp [Cpu.rdPort]
  cases hr : retirement cfg bus t with
  | none =>
    have hb := retirement_eq_none.mp hr
    unfold registerWriteAt
    rw [hen, hb]
    exact Option.Rel.none
  | some r =>
    obtain ⟨-, ht, hv⟩ := retirement_eq_some.mp hr
    have hw : (stateAt cfg bus t).rdPort.en = r.writes := by rw [hen, Retirement.writes, ht]
    unfold registerWriteAt
    rw [hw, Option.filter_some]
    cases hwr : r.writes with
    | false => exact Option.Rel.none
    | true =>
      have hc : ((stateAt cfg bus t).mw.state == .valid &&
          (stateAt cfg bus t).mw.rdWen) = true := by
        rw [← hen, hw, hwr]
      have haddr : r.rvfi.rdAddr = (stateAt cfg bus t).mw.rd := by rw [hv]; exact if_pos hc
      have hdata : r.rvfi.rdWdata = Writeback.rdWdata (stateAt cfg bus t).mw := by
        rw [hv]; exact if_pos hc
      refine Option.Rel.some ?_
      rw [ht, haddr, hdata]
      exact ⟨rfl, rfl, rfl, rfl⟩

/-- Side effects happen exactly once, in order, and only for tokens that retire. The
handshakes on the data bus match the tokens that left memory access with an access
one to one, no other token asserts a request, and the writes to the register file
match the retired tokens that write their register. -/
theorem sideEffects_once (cfg : Config) (bus : ℕ → CpuIn) (t : ℕ) :
    (departures cfg bus t).map Prod.snd = retired cfg bus (t + 1) ∧
    List.Forall₂ (fun a d => Belongs a d.2) (accesses cfg bus t)
      ((departures cfg bus t).filter fun d => d.1.accesses) ∧
    ((stateAt cfg bus t).dbus.cyc = true → (stateAt cfg bus t).xm.accesses = true ∧
      ((pending (stateAt cfg bus t).dbus (bus t).dbus = true ∧
          (stateAt cfg bus (t + 1)).xm = (stateAt cfg bus t).xm ∧
          (tagsAt cfg bus (t + 1)).xm = (tagsAt cfg bus t).xm) ∨
        ∃ r, departure cfg bus t = some ((stateAt cfg bus t).xm, r) ∧
          (tagsAt cfg bus (t + 1)).mw = (tagsAt cfg bus t).xm)) ∧
    List.Forall₂ (fun (w : RdPort) (r : Retirement) =>
        w.addr = r.token.rd ∧ w.data = Writeback.rdWdata r.token ∧ w.addr = r.rvfi.rdAddr ∧
          w.data = r.rvfi.rdWdata)
      (registerWrites cfg bus t) ((retired cfg bus t).filter Retirement.writes) := by
  refine ⟨departures_map_snd t, ?_, cyc_departs, ?_⟩
  · unfold departures
    rw [← Clocked.log_filter]
    exact Clocked.log_forall₂ access_rel t
  · unfold retired
    rw [← Clocked.log_filter]
    exact Clocked.log_forall₂ registerWrite_rel t

end Run
end Icicle
