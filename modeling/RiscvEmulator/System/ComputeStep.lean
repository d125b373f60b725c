import RiscvEmulator.Cores.Compute
import RiscvEmulator.System.Execution

/-! # Steps of RV32I computation and control transfer

A step that fetches an encoded OP, OP-IMM, LUI, AUIPC, JAL, JALR or BRANCH does to
the registers and `pc` what the specification says, and nothing else. A transfer
to an address that is not a multiple of four is no exception to this. -/
namespace RiscvEmulator.System
open Memory Cores Isa

namespace Simulator
variable {N n : Nat} {s : Simulator N n} {i : Fin N}

/-- The switch on an encoded instruction. -/
theorem execute_encode (s : Simulator N n) (i : Fin N) (instr : Rv32i) :
    s.execute i instr.encode = .ok (.done (s.setCore i ((s.cores i).effect instr))) := by
  unfold execute
  cases instr with
  | op o rd rs1 rs2 =>
    have ho : opcode (Rv32i.op o rd rs1 rs2).encode = 0x33#7 := (rType_fields ..).1
    simp only [ho, Core.op_op]
    rfl
  | opImm o rd rs1 imm =>
    have ho : opcode (Rv32i.opImm o rd rs1 imm).encode = 0x13#7 := (iType_fields ..).1
    simp only [ho, Core.opImm_opImm]
    rfl
  | shiftImm o rd rs1 shamt =>
    have ho : opcode (Rv32i.shiftImm o rd rs1 shamt).encode = 0x13#7 := (rType_fields ..).1
    simp only [ho, Core.opImm_shiftImm]
    rfl
  | lui rd imm =>
    have ho : opcode (Rv32i.lui rd imm).encode = 0x37#7 := (uType_fields ..).1
    simp only [ho, Core.lui_lui]
    rfl
  | auipc rd imm =>
    have ho : opcode (Rv32i.auipc rd imm).encode = 0x17#7 := (uType_fields ..).1
    simp only [ho, Core.auipc_auipc]
    rfl
  | jal rd offset =>
    have ho : opcode (Rv32i.jal rd offset).encode = 0x6F#7 := (jType_fields ..).1
    simp only [ho, Core.jal_jal]
    rfl
  | jalr rd rs1 imm =>
    have ho : opcode (Rv32i.jalr rd rs1 imm).encode = 0x67#7 := (iType_fields ..).1
    simp only [ho, Core.jalr_jalr]
    rfl
  | branch o rs1 rs2 offset =>
    have ho : opcode (Rv32i.branch o rs1 rs2 offset).encode = 0x63#7 := (bType_fields ..).1
    simp only [ho, Core.branch_branch]
    rfl

/-- From `s` to `s'` core `i` has fetched a word, changed its registers and `pc`,
`mip` and the counters. -/
structure OnlyComputes (s : Simulator N n) (i : Fin N) (s' : Simulator N n) : Prop where
  state : s' = { (s.fetchPc i).2.setCore i (s'.cores i) with counters := s'.counters }
  memory : s'.memory = s.memory
  dataCaches : s'.hierarchy.l1Dcaches = s.hierarchy.l1Dcaches
  csrs : ∀ a, a ≠ 0x344 → (s'.cores i).csrRegisters a = (s.cores i).csrRegisters a
  core : s'.cores i = { s.cores i with
    regs := (s'.cores i).regs
    pc := (s'.cores i).pc
    csrRegisters := (s'.cores i).csrRegisters
    performanceCounter := (s'.cores i).performanceCounter }

/-- A step that fetches an encoded instruction executes it as specified, were it
not for the exceptions of misaligned targets, and does nothing else. -/
theorem step_rv32i (hrun : s.Running i) (hx0 : (s.cores i).regs 0 = 0) (hint : s.NoInterrupt i)
    (instr : Rv32i) (hfetch : (s.fetchPc i).1 = instr.encode) :
    ∃ s', s.step i = .ok s' ∧
      (s'.cores i).isaState = instr.exec (s.cores i).isaState ∧ s.OnlyComputes i s' := by
  let c := (s.cores i).updateMipCsr (s.pendingLines i)
  have hprep : s.prepare i = .ok (true, s.setCore i c) :=
    handleInterrupt_eq_of_noInterrupt hint ▸ hrun.prepare_eq
  have hpc := fetchPc_setCore s i c rfl
  have hf : s.Fetches i (s.setCore i c) instr.encode := ⟨hprep, by rw [hpc]; exact hfetch⟩
  obtain ⟨hstate, v, hcore⟩ := retire_done (s.fetchPc i).2 i (c.effect instr)
  obtain ⟨hcores, hmem, hdata⟩ := fetch_frame s i (s.cores i).pc
  have hstep : s.step i = .ok (retire i (.done ((s.fetchPc i).2.setCore i (c.effect instr)))) := by
    rw [hf.step_eq, hpc, execute_encode, setCore_cores_self, setCore_setCore]
    rfl
  generalize retire i (.done ((s.fetchPc i).2.setCore i (c.effect instr))) = s'
    at hstate hcore hstep
  have hregs := Core.effect_regs (c := c) hx0 instr
  refine ⟨s', hstep, ?_, hstate, ?_, ?_, ?_, ?_⟩
  · rw [hcore]
    simp only [Core.isaState, hregs]
    rfl
  · rw [hstate]
    exact hmem
  · rw [hstate]
    exact hdata
  · intro a ha
    rw [hcore]
    exact Function.update_of_ne ha ..
  · rw [hcore]
    rfl

/-- One core about to execute one instruction at address 0, all registers 0. -/
def about (instr : Rv32i) : Simulator 1 0x100000 := loaded 1 0x100000 [instr.encode] fun _ _ => 0

theorem step_rv32i_addi : ∃ s', (about (.opImm .addi 5 0 0xFFF)).step 0 = .ok s' ∧
    (s'.cores 0).isaState =
      (Rv32i.opImm .addi 5 0 0xFFF).exec ((about (.opImm .addi 5 0 0xFFF)).cores 0).isaState ∧
      (about (.opImm .addi 5 0 0xFFF)).OnlyComputes 0 s' :=
  step_rv32i (by decide +kernel) (by decide +kernel)
    (by unfold NoInterrupt; decide +kernel) _ (by decide +kernel)

/-- A jump to a misaligned address raises no exception: it writes its link. -/
theorem jal_misaligned_writes_link : ¬ ∀ (s : Simulator 1 0x100000) (i : Fin 1) (instr : Rv32i),
    s.Running i → (s.cores i).regs 0 = 0 → s.NoInterrupt i →
    (s.fetchPc i).1 = instr.encode →
    ∃ s', s.step i = .ok s' ∧ instr.Specified (s.cores i).isaState (s'.cores i).isaState := by
  intro h
  obtain ⟨s', hs', hspec⟩ := h (about (.jal 1 1)) 0 (.jal 1 1)
    (by decide +kernel) (by decide +kernel)
    (by unfold NoInterrupt; decide +kernel) (by decide +kernel)
  have hlink : ((about (.jal 1 1)).step 0).toOption.map (fun s => (s.cores 0).regs 1) = some 4 := by
    decide +kernel
  have hmis : (Rv32i.jal 1 1).targetMisaligned ((about (.jal 1 1)).cores 0).isaState = true := by
    decide +kernel
  rw [hs'] at hlink
  rw [Rv32i.Specified, if_pos hmis] at hspec
  have hreg : (s'.cores 0).regs 1 = 0 := congrFun hspec 1
  have heq : (s'.cores 0).regs 1 = 4 := Option.some.inj hlink
  rw [hreg] at heq
  exact absurd heq (by decide)

end Simulator
end RiscvEmulator.System
