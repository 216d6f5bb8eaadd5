import Icicle.Core.Tags

/-! The interlock. There is no bypass: an operand is read from the register file once
no older token in flight is going to write it. -/
namespace Icicle
open Wishbone

/-- A register operand of a token, with the value that the token carries for it. -/
structure Operand where
  ren : Bool
  rs : BitVec 5
  data : Word

/-- The value is used, or known to be 0. -/
def Operand.reads (o : Operand) : Prop := o.ren = true ∨ o.rs = 0

def DX.operands (i : DX) : List Operand :=
  [⟨i.rs1Ren, i.rs1, i.rs1Rdata⟩, ⟨i.rs2Ren, i.rs2, i.rs2Rdata⟩]

def XM.operands (i : XM) : List Operand :=
  [⟨i.rs1Ren, i.rs1, i.rs1Rdata⟩, ⟨i.rs2Ren, i.rs2, i.rs2Rdata⟩]

def MW.operands (i : MW) : List Operand :=
  [⟨i.rs1Ren, i.rs1, i.rs1Rdata⟩, ⟨i.rs2Ren, i.rs2, i.rs2Rdata⟩]

/-- Whether a token with the given fields writes a register: it must be valid. -/
def writesTo (state : State) (rdWen : Bool) (rd r : BitVec 5) : Bool :=
  state == .valid && rdWen && r == rd

def DX.writes (i : DX) : BitVec 5 → Bool := writesTo i.state i.rdWen i.rd

def XM.writes (i : XM) : BitVec 5 → Bool := writesTo i.state i.rdWen i.rd

def MW.writes (i : MW) : BitVec 5 → Bool := writesTo i.state i.rdWen i.rd

theorem writesTo_eq_true {state : State} {rdWen : Bool} {rd r : BitVec 5} :
    writesTo state rdWen rd r = true ↔ state = .valid ∧ rdWen = true ∧ r = rd := by
  simp [writesTo, and_assoc]

/-- The value that the latest of the given tokens to write a register wrote, or 0. -/
def lastWrite (rs : List Retirement) (r : BitVec 5) : Word :=
  match (rs.filter fun x => x.token.writes r).getLast? with
  | some x => Writeback.rdWdata x.token
  | none => 0

theorem lastWrite_concat (rs : List Retirement) (x : Retirement) (r : BitVec 5) :
    lastWrite (rs ++ [x]) r =
      if x.token.writes r then Writeback.rdWdata x.token else lastWrite rs r := by
  cases h : x.token.writes r <;> simp [lastWrite, List.filter_append, h]

namespace MemoryAccess

@[simp] theorem token_operands (cfg : Config) (i : XM) (p : Response) :
    (token cfg i p).operands = i.operands := rfl

/-- A token that traps in memory access does not write its register. -/
theorem writes_of_token {cfg : Config} {i : XM} {p : Response} {r : BitVec 5}
    (h : (token cfg i p).writes r = true) : i.writes r = true := by
  obtain ⟨hv, hwen, hrd⟩ := writesTo_eq_true.mp h
  exact writesTo_eq_true.mpr ⟨(token_valid_iff.mp hv).1, hwen, hrd⟩

end MemoryAccess

namespace Execute

@[simp] theorem token_writes (i : DX) (r : BitVec 5) : (token i).writes r = i.writes r := rfl

end Execute

/-- The word of a faulting fetch reads no register. -/
theorem Decode.control_zero_ren {i : FD} (h : i.insn = 0) :
    (control i).rs1Ren = false ∧ (control i).rs2Ren = false := by
  unfold control
  rw [h]
  decide

/-- The comparison with a stage finds every token that writes an operand. -/
theorem Decode.writesTo_of_dataHazard {c : Control} {state : State} {rdWen : Bool}
    {rd r : BitVec 5} (h : dataHazard c state rdWen rd = false)
    (hr : (c.rs1Ren = true ∧ c.rs1 = r) ∨ (c.rs2Ren = true ∧ c.rs2 = r)) :
    writesTo state rdWen rd r = false := by
  by_contra hw
  obtain ⟨hs, hwen, hrd⟩ := writesTo_eq_true.mp (eq_true_of_ne_false hw)
  subst hrd
  rcases hr with ⟨hren, hrs⟩ | ⟨hren, hrs⟩ <;> simp [dataHazard, hs, hwen, hren, hrs] at h

namespace Cpu
variable {cfg : Config} {s s' : Cpu} {p : CpuIn}

/-- Every operand of the token in a stage is the current contents of its register,
which no older token in flight writes. -/
structure Interlocked (s : Cpu) : Prop where
  dx : s.dx.state ≠ .bubble → ∀ o ∈ s.dx.operands, o.reads →
    o.data = s.regs.regs o.rs ∧ s.xm.writes o.rs = false ∧ s.mw.writes o.rs = false
  xm : s.xm.state ≠ .bubble → ∀ o ∈ s.xm.operands, o.reads →
    o.data = s.regs.regs o.rs ∧ s.mw.writes o.rs = false
  mw : s.mw.state ≠ .bubble → ∀ o ∈ s.mw.operands, o.reads → o.data = s.regs.regs o.rs

/-- No token in flight writes the register 0. -/
structure KeepsZero (s : Cpu) : Prop where
  dx : s.dx.writes 0 = false
  xm : s.xm.writes 0 = false
  mw : s.mw.writes 0 = false

theorem interlocked_reset (cfg : Config) : (reset cfg).Interlocked where
  dx h := absurd rfl h
  xm h := absurd rfl h
  mw h := absurd rfl h

theorem step_regs (cfg : Config) (s : Cpu) (p : CpuIn) (r : BitVec 5) :
    (s.step cfg p).regs.regs r =
      if s.mw.writes r then Writeback.rdWdata s.mw else s.regs.regs r := by
  simp only [step, stepWith, Blocks.rtl, RegisterFile.step, Registers.write, rdPort,
    writebackStage_stall, Bool.not_false, Bool.true_and, MW.writes, writesTo]
  rfl

theorem writes_of_bubble {i : MW} (h : i.state = .bubble) (r : BitVec 5) : i.writes r = false := by
  simp [MW.writes, writesTo, h]

/-- Decode moves only when no token before it writes one of its operands. -/
theorem hazard_operands (h : s.hazard = false) {r : BitVec 5}
    (hr : (s.control.rs1Ren = true ∧ s.control.rs1 = r) ∨
      (s.control.rs2Ren = true ∧ s.control.rs2 = r)) :
    s.dx.writes r = false ∧ s.xm.writes r = false ∧ s.mw.writes r = false := by
  simp only [hazard, Bool.or_eq_false_iff] at h
  exact ⟨Decode.writesTo_of_dataHazard h.1 hr, Decode.writesTo_of_dataHazard h.2.1 hr,
    Decode.writesTo_of_dataHazard h.2.2 hr⟩

/-- The operands that decode hands to execute. -/
theorem Decodes.operands (h : Decodes cfg s p s') : s'.dx.operands =
    [⟨s.control.rs1Ren, s.control.rs1, s.regs.regs s.control.rs1⟩,
      ⟨s.control.rs2Ren, s.control.rs2, s.regs.regs s.control.rs2⟩] := by
  have hd : s'.dx = (Decode.token s.fd).withOperands (s.regs.regs s.control.rs1)
      (s.regs.regs s.control.rs2) := by
    unfold dx
    rw [h.decodeRegs, h.rs1Data, h.rs2Data]
    rfl
  rw [hd]
  rfl

/-- An operand that writeback does not overwrite keeps its register. -/
theorem regs_of_not_writes (cfg : Config) (p : CpuIn) {r : BitVec 5} {v : Word}
    (hv : v = s.regs.regs r) (hw : s.mw.writes r = false) :
    v = (s.step cfg p).regs.regs r := by
  rw [step_regs, hw, hv]
  rfl

theorem Interlocked.mem (h : s.Interlocked) (cfg : Config) (p : CpuIn)
    (hb : s.xm.state ≠ .bubble) : ∀ o ∈ s.xm.operands, o.reads →
      o.data = (s.step cfg p).regs.regs o.rs :=
  fun o ho hren => regs_of_not_writes cfg p (h.xm hb o ho hren).1 (h.xm hb o ho hren).2

/-- The operands behind execute, when it moves. -/
theorem Interlocked.flows (h : s.Interlocked) (hf : Flows cfg s p (s.step cfg p)) :
    ((s.step cfg p).xm.state ≠ .bubble → ∀ o ∈ (s.step cfg p).xm.operands, o.reads →
      o.data = (s.step cfg p).regs.regs o.rs ∧ (s.step cfg p).mw.writes o.rs = false) ∧
    ((s.step cfg p).mw.state ≠ .bubble → ∀ o ∈ (s.step cfg p).mw.operands, o.reads →
      o.data = (s.step cfg p).regs.regs o.rs) := by
  rw [hf.xm, hf.mw]
  refine ⟨fun hb o ho hren => ?_, fun hb => h.mem cfg p (by simpa using hb)⟩
  obtain ⟨hdata, hxm, hmw⟩ := h.dx hb o ho hren
  refine ⟨regs_of_not_writes cfg p hdata hmw, ?_⟩
  by_contra hw
  rw [MemoryAccess.writes_of_token (eq_true_of_ne_false hw)] at hxm
  exact Bool.false_ne_true hxm.symm

/-- No token before decode writes an operand that it hands over. -/
theorem Decodes.not_writes (hd : Decodes cfg s p s') (hfd : s.fd.Ok) (hzero : s.KeepsZero)
    (hb : s'.dx.state ≠ .bubble) {o : Operand} (ho : o ∈ s'.dx.operands) (hreads : o.reads) :
    s.dx.writes o.rs = false ∧ s.xm.writes o.rs = false ∧ s.mw.writes o.rs = false := by
  have hx : s'.dx.toDecodeRegs = Decode.token s.fd := hd.decodeRegs
  rw [hd.operands, List.mem_pair] at ho
  rcases hreads with hren | hrs
  · have hr : (s.control.rs1Ren = true ∧ s.control.rs1 = o.rs) ∨
        (s.control.rs2Ren = true ∧ s.control.rs2 = o.rs) := by
      rcases ho with rfl | rfl
      · exact .inl ⟨hren, rfl⟩
      · exact .inr ⟨hren, rfl⟩
    have hvalid : s.fd.state = .valid := by
      cases hst : s.fd.state with
      | valid => rfl
      | bubble => exact absurd (by rw [hx, Decode.token_bubble_iff.mpr hst]) hb
      | trap =>
        obtain ⟨h1, h2⟩ := Decode.control_zero_ren (hfd.trap hst).1
        unfold control at hr
        rw [h1, h2] at hr
        simp at hr
    exact hazard_operands (hd.clear hvalid) hr
  · rw [hrs]
    exact ⟨hzero.dx, hzero.xm, hzero.mw⟩

/-- The operands that decode hands over are current. -/
theorem Decodes.interlocked (hd : Decodes cfg s p (s.step cfg p)) (hfd : s.fd.Ok)
    (hzero : s.KeepsZero) (hb : (s.step cfg p).dx.state ≠ .bubble) :
    ∀ o ∈ (s.step cfg p).dx.operands, o.reads → o.data = (s.step cfg p).regs.regs o.rs ∧
      (s.step cfg p).xm.writes o.rs = false ∧ (s.step cfg p).mw.writes o.rs = false := by
  intro o ho hreads
  obtain ⟨hdx, hxm, hmw⟩ := hd.not_writes hfd hzero hb ho hreads
  rw [hd.operands, List.mem_pair] at ho
  refine ⟨regs_of_not_writes cfg p ?_ hmw, by rw [hd.xm, Execute.token_writes, hdx], ?_⟩
  · rcases ho with rfl | rfl <;> rfl
  · by_contra hw
    rw [hd.mw] at hw
    rw [MemoryAccess.writes_of_token (eq_true_of_ne_false hw)] at hxm
    exact Bool.false_ne_true hxm.symm

/-- A cycle keeps the operands current. -/
theorem Interlocked.step (h : s.Interlocked) (hfd : s.fd.Ok) (hzero : s.KeepsZero)
    (cfg : Config) (p : CpuIn) : (s.step cfg p).Interlocked := by
  cases step_cycle cfg s p with
  | wait _ pf fd dx xm mw =>
    refine ⟨?_, ?_, fun hb => absurd mw hb⟩
    · rw [dx, xm]
      intro hb o ho hren
      obtain ⟨hdata, hxm, hmw⟩ := h.dx hb o ho hren
      exact ⟨regs_of_not_writes cfg p hdata hmw, hxm, writes_of_bubble mw _⟩
    · rw [xm]
      exact fun hb o ho hren => ⟨h.mem cfg p hb o ho hren, writes_of_bubble mw _⟩
  | redirect _ _ _ _ dx xm mw =>
    refine ⟨fun hb => absurd dx hb, fun hb => absurd xm hb, ?_⟩
    rw [mw]
    exact fun hb => h.mem cfg p (by simpa using hb)
  | interlock flows _ _ _ _ dx =>
    exact ⟨fun hb => absurd dx hb, (h.flows flows).1, (h.flows flows).2⟩
  | starve decodes =>
    obtain ⟨hxm, hmw⟩ := h.flows decodes.toFlows
    exact ⟨decodes.interlocked hfd hzero, hxm, hmw⟩
  | advance decodes =>
    obtain ⟨hxm, hmw⟩ := h.flows decodes.toFlows
    exact ⟨decodes.interlocked hfd hzero, hxm, hmw⟩

end Cpu

section Run
variable (cfg : Config) (bus : ℕ → CpuIn)

theorem core_keepsZero (t : ℕ) : (stateAt cfg bus t).KeepsZero := by
  have htraced := traced cfg bus t
  have hrd : ∀ w : Word, (Control.ofInsn w).rdWen = true → (Control.ofInsn w).rd ≠ 0 := by
    intro w h
    simp only [Control.ofInsn, Bool.and_eq_true, bne_iff_ne] at h
    exact h.1.1
  refine ⟨?_, ?_, ?_⟩
  · by_contra hw
    obtain ⟨hv, hwen, h0⟩ := writesTo_eq_true.mp (eq_true_of_ne_false hw)
    obtain ⟨i, -, hi⟩ := htraced.dx (by simp [hv])
    have hd : (stateAt cfg bus t).dx.toDecodeRegs = Decode.token i := hi
    rw [hd] at hwen h0
    exact hrd i.insn hwen h0.symm
  · by_contra hw
    obtain ⟨hv, hwen, h0⟩ := writesTo_eq_true.mp (eq_true_of_ne_false hw)
    obtain ⟨i, v₁, v₂, -, hi⟩ := htraced.xm (by simp [hv])
    rw [hi] at hwen h0
    exact hrd i.insn hwen h0.symm
  · by_contra hw
    obtain ⟨hv, hwen, h0⟩ := writesTo_eq_true.mp (eq_true_of_ne_false hw)
    obtain ⟨i, v₁, v₂, p, -, hi⟩ := htraced.mw (by simp [hv])
    rw [hi] at hwen h0
    exact hrd i.insn hwen h0.symm

theorem core_interlocked (t : ℕ) : (stateAt cfg bus t).Interlocked := by
  induction t with
  | zero => exact Cpu.interlocked_reset cfg
  | succ t ih =>
    exact ih.step (core_wellFormed cfg bus t).fd (core_keepsZero cfg bus t) cfg (bus t)

/-- The register file holds what the retired tokens wrote. -/
theorem regs_eq_lastWrite (t : ℕ) (r : BitVec 5) :
    (stateAt cfg bus t).regs.regs r = lastWrite (retired cfg bus t) r := by
  induction t with
  | zero => rfl
  | succ t ih =>
    rw [stateAt_succ, Cpu.step_regs, ih]
    cases hret : retirement cfg bus t with
    | none =>
      rw [retired_succ_none hret, Cpu.writes_of_bubble (retirement_eq_none.mp hret)]
      rfl
    | some x =>
      rw [retired_succ_some hret, lastWrite_concat, (retirement_eq_some.mp hret).2.1]

variable {cfg bus}

/-- Every operand that a retiring token reads is the value of the latest earlier
write to its register. -/
theorem operands_eq_lastWrite {t : ℕ} {x : Retirement} (h : retirement cfg bus t = some x) :
    (x.token.rs1Ren = true →
      x.token.rs1Rdata = lastWrite (retired cfg bus t) x.token.rs1) ∧
    (x.token.rs2Ren = true →
      x.token.rs2Rdata = lastWrite (retired cfg bus t) x.token.rs2) := by
  obtain ⟨hb, ht, -⟩ := retirement_eq_some.mp h
  have hmw := (core_interlocked cfg bus t).mw hb
  rw [← ht] at hmw
  constructor
  · intro hren
    rw [← regs_eq_lastWrite]
    exact hmw ⟨x.token.rs1Ren, x.token.rs1, x.token.rs1Rdata⟩ (by simp [MW.operands]) (.inl hren)
  · intro hren
    rw [← regs_eq_lastWrite]
    exact hmw ⟨x.token.rs2Ren, x.token.rs2, x.token.rs2Rdata⟩ (by simp [MW.operands]) (.inl hren)

/-- An instruction memory that holds `addi x1, x1, 1` everywhere. -/
def incrementEverywhere : ℕ → CpuIn := fun _ => ⟨⟨true, false, 0x00108093⟩, ⟨false, false, 0⟩⟩

/-- The second increment waits for the first and reads 1. -/
theorem increment_operand :
    (stateAt {} incrementEverywhere 9).mw.rs1Rdata = 1 ∧
      (stateAt {} incrementEverywhere 9).mw.rs1Rdata =
        lastWrite (retired {} incrementEverywhere 9) (stateAt {} incrementEverywhere 9).mw.rs1 := by
  have hmw : (stateAt {} incrementEverywhere 9).mw.state ≠ .bubble := by decide
  exact ⟨by decide, (operands_eq_lastWrite (retirement_of_mw hmw)).1 (by decide)⟩

end Run
end Icicle
