import RiscvEmulator.Cores.Status
import RiscvEmulator.Isa.Zicsr
import RiscvEmulator.System.DataStep
import RiscvEmulator.System.SatpFrame

/-! # Steps of the CSR instructions

With a register as source the six instructions are those of the specification.
The immediate is taken from bits 24 to 20, which belong to the number of the CSR,
and not from bits 19 to 15. -/
namespace RiscvEmulator.System
open Memory Cores Isa

/-- The CSRs with a case of their own: `sstatus`, `mip`, `satp`, `mhartid`, `time`
and the performance counters. -/
def specialCsrs : List (BitVec 12) :=
  [0x100, 0x344, 0x180, 0xF14, 0xC01, 0xB00, 0xB01, 0xB02, 0xB10, 0xB11, 0xB12, 0xB13, 0xB14]

/-- A CSR that is stored as it is written: the default cases and the registers of
the traps. -/
def Plain (a : BitVec 12) : Prop := a ∉ specialCsrs

instance (a : BitVec 12) : Decidable (Plain a) := inferInstanceAs (Decidable (¬_))

theorem readCsr_plain (c : Core) (counters : GlobalCounters) (coreId : Nat) {a : BitVec 12}
    (ha : Plain a) : c.readCsr counters coreId a = (c.csrRegisters a, c) := by
  unfold Core.readCsr
  split
  all_goals first | rfl | exact absurd ha (by decide)

theorem writeCsr_plain (c : Core) (v : Word) {a : BitVec 12} (ha : Plain a) :
    c.writeCsr a v = c.setCsr a v := by
  unfold Core.writeCsr
  split
  all_goals first | rfl | exact absurd ha (by decide)

/-- A read moves on `time` and no other CSR. -/
theorem readCsr_core (c : Core) (counters : GlobalCounters) (coreId : Nat) (a : BitVec 12) :
    ∃ time, (c.readCsr counters coreId a).2 = c.setCsr 0xC01 time := by
  unfold Core.readCsr
  split
  case h_3 => exact ⟨_, rfl⟩
  all_goals exact ⟨c.csrRegisters 0xC01, by simp [Core.setCsr]⟩

namespace Simulator
variable {N n : Nat} {s s₁ s' : Simulator N n} {i : Fin N}

theorem readCsr_state (s : Simulator N n) (i : Fin N) (a : BitVec 12) :
    ∃ time, (s.readCsr i a).2 = s.setCore i ((s.cores i).setCsr 0xC01 time) := by
  obtain ⟨time, htime⟩ := readCsr_core (s.cores i) s.counters i.val a
  exact ⟨time, congrArg (s.setCore i) htime⟩

theorem readCsr_plain_state (s : Simulator N n) (i : Fin N) {a : BitVec 12} (ha : Plain a) :
    s.readCsr i a = ((s.cores i).csrRegisters a, s) := by
  unfold readCsr
  simp only [readCsr_plain _ _ _ ha, setCore_self]

/-! ## The operand -/

/-- The source the core uses. -/
def coreOperand (instr : Zicsr) (regs : Cores.Reg → Word) : Word :=
  match instr.source with
  | .reg rs1 => regs rs1
  | .imm _ => (instr.csr.extractLsb' 0 5).setWidth 32

theorem system_zicsr (s : Simulator N n) (i : Fin N) (instr : Zicsr) :
    s.system i instr.encode =
      let (csrValue, t) := s.readCsr i instr.csr
      t.csrUpdate i instr.rd instr.csr csrValue
        (instr.op.eval csrValue (coreOperand instr (t.cores i).regs)) := by
  obtain ⟨_, hrd, h3, h1, hcsr⟩ := instr.encode_fields
  have himm : (instr.encode >>> 20) &&& 0x1F = (instr.csr.extractLsb' 0 5).setWidth 32 := by
    have h := shift_mask_eq_field instr.encode 20 5 (by decide)
    rwa [instr.encode_csr_low] at h
  unfold system coreOperand
  simp only [rdOf, funct3Of, rs1Of, hrd, h3, h1, hcsr, himm]
  rcases instr with ⟨op, rd, source, csr⟩
  cases source with
  | reg rs1 => cases op <;> rfl
  | imm zimm => cases op <;> rfl

/-! ## The core afterwards -/

/-- From `c` the core has gone on to the next instruction, with the old value of a
CSR in `rd`, unless that is `x0`, and the CSRs of a write. -/
structure CsrRetired (c : Core) (rd : Cores.Reg) (a : BitVec 12) (old new : Word) (c' : Core) :
    Prop where
  csrs : c'.csrRegisters = (c.writeCsr a new).csrRegisters
  regs : c'.regs = if rd = 0 then c.regs else Function.update c.regs rd old
  pc : c'.pc = c.pc + 4
  privilegeLevel : c'.privilegeLevel = c.privilegeLevel

theorem writeCsr_core (c : Core) (a : BitVec 12) (v : Word) :
    (c.writeCsr a v).regs = c.regs ∧ (c.writeCsr a v).pc = c.pc ∧
      (c.writeCsr a v).privilegeLevel = c.privilegeLevel ∧
      ∀ rd old, ((c.setReg rd old).writeCsr a v).csrRegisters = (c.writeCsr a v).csrRegisters := by
  unfold Core.writeCsr
  split
  all_goals exact ⟨rfl, rfl, rfl, fun _ _ => rfl⟩

theorem writeCsr_cores (s : Simulator N n) (i : Fin N) (a : BitVec 12) (v : Word) :
    (s.writeCsr i a v).cores i = (s.cores i).writeCsr a v := by
  unfold writeCsr
  simp only
  split
  · exact setCore_cores_self ..
  · split <;> exact setCore_cores_self ..

theorem csrUpdate_retired (t : Simulator N n) (i : Fin N) (hx0 : (t.cores i).regs 0 = 0)
    (rd : Cores.Reg) (a : BitVec 12) (old new : Word) :
    CsrRetired (t.cores i) rd a old new ((retire i (t.csrUpdate i rd a old new)).cores i) := by
  let c := if rd ≠ 0 then (t.cores i).setReg rd old else t.cores i
  let u := (t.setCore i c).writeCsr i a new
  have hu : u.cores i = c.writeCsr a new := by
    rw [writeCsr_cores, setCore_cores_self]
  obtain ⟨_, v, hcore⟩ := retire_done u i ((u.cores i).writeback 0 none)
  have hc : c.regs = (if rd = 0 then (t.cores i).regs
      else Function.update (t.cores i).regs rd old) ∧ c.pc = (t.cores i).pc ∧
      c.privilegeLevel = (t.cores i).privilegeLevel ∧
      (c.writeCsr a new).csrRegisters = ((t.cores i).writeCsr a new).csrRegisters := by
    by_cases hrd : rd = 0
    · simp [c, hrd]
    · simp only [c, hrd, ne_eq, not_false_eq_true, if_true, if_false]
      exact ⟨rfl, rfl, rfl, (writeCsr_core (t.cores i) a new).2.2.2 rd old⟩
  obtain ⟨hregs, hpc, hlevel, hcsrs⟩ := hc
  obtain ⟨hwregs, hwpc, hwlevel, _⟩ := writeCsr_core c a new
  have hzero : c.regs 0 = 0 := by
    rw [hregs]
    split
    · exact hx0
    · next hrd => rw [Function.update_of_ne (Ne.symm hrd), hx0]
  have hexit : t.csrUpdate i rd a old new = .done (u.setCore i ((u.cores i).writeback 0 none)) :=
    rfl
  rw [hexit, hcore, hu]
  refine ⟨hcsrs, ?_, ?_, hwlevel.trans hlevel⟩
  · show Function.update (c.writeCsr a new).regs 0 0 = _
    rw [hwregs, ← hregs, ← hzero, Function.update_eq_self]
  · show (c.writeCsr a new).pc + 4 = _
    rw [hwpc, hpc]

/-- The step of a CSR instruction. -/
theorem Fetches.zicsr_step {instr : Zicsr} (h : s.Fetches i s₁ instr.encode)
    (hx0 : (s.cores i).regs 0 = 0) {old : Word} {t : Simulator N n}
    (hread : (s₁.fetchPc i).2.readCsr i instr.csr = (old, t)) :
    ∃ s', s.step i = .ok s' ∧ CsrRetired (t.cores i) instr.rd instr.csr old
      (instr.op.eval old (coreOperand instr (t.cores i).regs)) (s'.cores i) := by
  have hregs : (t.cores i).regs = (s.cores i).regs := by
    obtain ⟨time, htime⟩ := (s₁.fetchPc i).2.readCsr_state i instr.csr
    rw [hread] at htime
    have ht : t = (s₁.fetchPc i).2.setCore i (((s₁.fetchPc i).2.cores i).setCsr 0xC01 time) := htime
    rw [ht, setCore_cores_self]
    exact h.regs
  have hstep := h.step_eq
  rw [execute_system instr.encode_fields.1, system_zicsr, hread] at hstep
  exact ⟨_, hstep, csrUpdate_retired t i ((congrFun hregs 0).trans hx0) ..⟩

/-! ## Plain CSRs -/

/-- The specified effect on a CSR: the old value in `rd`, the new one in its place. -/
structure CsrExecuted (instr : Zicsr) (c c' : Core) : Prop where
  rd : c'.regs = if instr.rd = 0 then c.regs
    else Function.update c.regs instr.rd (c.csrRegisters instr.csr)
  csr : c'.csrRegisters = Function.update c.csrRegisters instr.csr
    (instr.op.eval (c.csrRegisters instr.csr) (instr.operand c.regs))

/-- Where the five bits of the immediate and the low five bits of the CSR's number
make the same new value: they are the same, or differ where the old value has the
bit to be set already, or has not the bit to be cleared. -/
def ImmediateAgrees (instr : Zicsr) (old : Word) : Prop :=
  match instr.source with
  | .reg _ => True
  | .imm zimm =>
    let low := instr.csr.extractLsb' 0 5
    match instr.op with
    | .rw => low = zimm
    | .rs => ∀ k, low.getLsbD k ≠ zimm.getLsbD k → old.getLsbD k = true
    | .rc => ∀ k, low.getLsbD k ≠ zimm.getLsbD k → old.getLsbD k = false

theorem eval_coreOperand_iff (instr : Zicsr) (old : Word) (regs : Cores.Reg → Word) :
    instr.op.eval old (coreOperand instr regs) = instr.op.eval old (instr.operand regs) ↔
      ImmediateAgrees instr old := by
  rcases instr with ⟨op, rd, source, csr⟩
  cases source with
  | reg rs1 => exact iff_of_true rfl trivial
  | imm zimm => exact op.eval_immediate old _ zimm

/-- A CSR instruction on a plain CSR does what is specified exactly if its source is
a register or the immediate agrees. The old value is the one the instruction finds,
after any interrupt that the step takes. -/
theorem zicsr_step_iff (hx0 : (s.cores i).regs 0 = 0) (instr : Zicsr) (hplain : Plain instr.csr)
    (h : s.Fetches i s₁ instr.encode) :
    let c := (s₁.fetchPc i).2.cores i
    (∃ s', s.step i = .ok s' ∧ CsrExecuted instr c (s'.cores i)) ↔
      ImmediateAgrees instr (c.csrRegisters instr.csr) := by
  intro c
  obtain ⟨s', hstep, hcsrs, hregs, _, _⟩ :=
    h.zicsr_step hx0 ((s₁.fetchPc i).2.readCsr_plain_state i hplain)
  have hnew : (s'.cores i).csrRegisters = Function.update c.csrRegisters instr.csr
      (instr.op.eval (c.csrRegisters instr.csr) (coreOperand instr c.regs)) :=
    hcsrs.trans (congrArg Core.csrRegisters (writeCsr_plain _ _ hplain))
  rw [← eval_coreOperand_iff instr _ c.regs]
  constructor
  · rintro ⟨t, ht, hexec⟩
    obtain rfl : s' = t := Except.ok.inj (hstep.symm.trans ht)
    have hvalue := congrFun (hnew.symm.trans hexec.csr) instr.csr
    rwa [Function.update_self, Function.update_self] at hvalue
  · intro hagree
    exact ⟨s', hstep, hregs, by rw [hnew, hagree]⟩

/-- One core about to execute a CSR instruction at address 0, all registers 0. -/
def aboutCsr (instr : Zicsr) : Simulator 1 0x100000 := loaded 1 0x100000 [instr.encode] fun _ _ => 0

/-- CSRRSI of `mscratch` (0x340) with 3. -/
theorem zicsr_step_csrrsi : ∃ s₁,
    (aboutCsr ⟨.rs, 5, .imm 3, 0x340⟩).Fetches 0 s₁ (Zicsr.mk .rs 5 (.imm 3) 0x340).encode ∧
      let c := (s₁.fetchPc 0).2.cores 0
      (∃ s', (aboutCsr ⟨.rs, 5, .imm 3, 0x340⟩).step 0 = .ok s' ∧
        CsrExecuted ⟨.rs, 5, .imm 3, 0x340⟩ c (s'.cores 0)) ↔
          ImmediateAgrees ⟨.rs, 5, .imm 3, 0x340⟩ (c.csrRegisters 0x340) := by
  obtain ⟨s₁, h⟩ :=
    loaded_fetches 1 0x100000 (fun _ _ => 0) 0 (Zicsr.mk .rs 5 (.imm 3) 0x340).encode
  exact ⟨s₁, h, zicsr_step_iff rfl _ (by decide) h⟩

/-- CSRRWI of `mscratch` with 1 writes 0, the low bits of 0x340. -/
theorem csrrwi_writes_csr_number : ¬ ∀ (s s₁ : Simulator 1 0x100000) (i : Fin 1) (instr : Zicsr),
    (s.cores i).regs 0 = 0 → Plain instr.csr → s.Fetches i s₁ instr.encode →
    ∃ s', s.step i = .ok s' ∧ CsrExecuted instr ((s₁.fetchPc i).2.cores i) (s'.cores i) := by
  intro h
  obtain ⟨s₁, hf⟩ :=
    loaded_fetches 1 0x100000 (fun _ _ => 0) 0 (Zicsr.mk .rw 0 (.imm 1) 0x340).encode
  obtain ⟨s', hs', hexec⟩ := h _ s₁ 0 ⟨.rw, 0, .imm 1, 0x340⟩ rfl (by decide) hf
  have hzero : ((aboutCsr ⟨.rw, 0, .imm 1, 0x340⟩).step 0).toOption.map
      (fun s => (s.cores 0).csrRegisters 0x340) = some 0 := by
    decide +kernel
  have hone : (s'.cores 0).csrRegisters 0x340 = 1 := by
    rw [hexec.csr]
    exact Function.update_self ..
  unfold aboutCsr at hzero
  rw [hs'] at hzero
  have heq : (s'.cores 0).csrRegisters 0x340 = 0 := Option.some.inj hzero
  exact absurd (heq.symm.trans hone) (by decide)

/-! ## `sstatus` -/

/-- A value written to `sstatus` comes back, and a CSRRS or CSRRC with `x0` that finds the
core so changes no CSR, exactly where the two places of a field agree. -/
theorem sstatus_view_iff (c : Core) (v : Word) :
    (Core.WrittenThrough c v (c.writeCsr 0x100 v) ↔ Core.ViewAgrees c v) ∧
    ∀ {N n : Nat} (s s₁ : Simulator N n) (i : Fin N) (op : CsrOp) (rd : Cores.Reg),
      op ≠ .rw → (s.cores i).regs 0 = 0 →
      s.Fetches i s₁ (Zicsr.mk op rd (.reg 0) 0x100).encode →
      (s₁.fetchPc i).2.cores i = c →
      ((∃ s', s.step i = .ok s' ∧ (s'.cores i).csrRegisters = c.csrRegisters) ↔
        Core.ReadsBack c) := by
  refine ⟨Core.writtenThrough_iff c v, ?_⟩
  rintro N n s s₁ i op rd hop hx0 h rfl
  let c := (s₁.fetchPc i).2.cores i
  have hread : (s₁.fetchPc i).2.readCsr i 0x100 = (c.sstatus, (s₁.fetchPc i).2) := by
    unfold readCsr Core.readCsr
    exact Prod.ext rfl (setCore_self ..)
  obtain ⟨s', hstep, hcsrs, _, _, _⟩ := h.zicsr_step hx0 hread
  have hsource : coreOperand (Zicsr.mk op rd (.reg 0) 0x100) c.regs = 0 :=
    (congrFun h.regs 0).trans hx0
  have hvalue : op.eval c.sstatus (coreOperand (Zicsr.mk op rd (.reg 0) 0x100) c.regs) =
      c.sstatus := by
    rw [hsource]
    cases op with
    | rw => exact absurd rfl hop
    | rs => exact BitVec.or_zero
    | rc =>
      show c.sstatus &&& ~~~0#32 = c.sstatus
      rw [BitVec.not_zero, BitVec.and_allOnes]
  have hself : (s'.cores i).csrRegisters = (c.writeCsr 0x100 c.sstatus).csrRegisters := by
    rw [hcsrs]
    exact congrArg (fun v => (c.writeCsr 0x100 v).csrRegisters) hvalue
  rw [← Core.writeCsr_sstatus_self]
  constructor
  · rintro ⟨t, ht, hsame⟩
    obtain rfl : s' = t := Except.ok.inj (hstep.symm.trans ht)
    exact hself.symm.trans hsame
  · intro hsame
    exact ⟨s', hstep, hself.trans hsame⟩

/-- CSRRS of `sstatus` with `x0`, in the state a core starts in. -/
theorem sstatus_view_csrrs : ∃ s₁,
    (aboutCsr ⟨.rs, 5, .reg 0, 0x100⟩).Fetches 0 s₁ (Zicsr.mk .rs 5 (.reg 0) 0x100).encode ∧
      ((∃ s', (aboutCsr ⟨.rs, 5, .reg 0, 0x100⟩).step 0 = .ok s' ∧
        (s'.cores 0).csrRegisters = ((s₁.fetchPc 0).2.cores 0).csrRegisters) ↔
        Core.ReadsBack ((s₁.fetchPc 0).2.cores 0)) := by
  obtain ⟨s₁, h⟩ := loaded_fetches 1 0x100000 (fun _ _ => 0) 0
    (Zicsr.mk .rs 5 (.reg 0) 0x100).encode
  exact ⟨s₁, h, (sstatus_view_iff _ 0).2 _ s₁ 0 .rs 5 (by decide) rfl h rfl⟩

/-- SPIE is written and not read back. -/
theorem sstatus_spie_lost : ¬ ∀ (c : Core) (v : Word),
    Core.WrittenThrough c v (c.writeCsr 0x100 v) := by
  intro h
  have hspie := (h (Core.init 0 0) 0x20).read 5 (by decide)
  exact absurd hspie (by decide)

end Simulator
end RiscvEmulator.System
