import RiscvEmulator.Cores.Alu
import RiscvEmulator.Isa.Rv32i

/-! # The decoder and the arithmetic agree with RV32I

The fields and immediates a core takes out of an encoded instruction are the ones
put in, and the value its switch computes is the specified one. -/
namespace RiscvEmulator.Cores
open Memory Isa

/-! ## Immediates -/

theorem signExtend_setWidth {k : Nat} (x : BitVec (k + 1)) (h : k < 32) :
    signExtend (x.setWidth 32) (k + 1) = x.signExtend 32 :=
  signExtend_eq_xor_sub x h

theorem immI_eq (instr : Word) : immI instr = (instr.extractLsb' 20 12).signExtend 32 := by
  unfold immI
  rw [shift_eq_field instr 20 12 rfl]
  exact signExtend_setWidth _ (by decide)

theorem immI_iType (rs1 : Isa.Reg) (funct3 : BitVec 3) (rd : Isa.Reg) (opc : BitVec 7)
    (imm : BitVec 12) : immI (iType rs1 funct3 rd opc imm) = imm.signExtend 32 := by
  rw [immI_eq, (iType_fields ..).2.2.2.2.1]

theorem immS_sType (rs2 rs1 : Isa.Reg) (funct3 : BitVec 3) (opc : BitVec 7) (imm : BitVec 12) :
    immS (sType rs2 rs1 funct3 opc imm) = imm.signExtend 32 := by
  obtain ⟨_, hlow, _, _, _, hhigh⟩ := sType_fields rs2 rs1 funct3 opc imm
  have h5 := shift_mask_eq_field (sType rs2 rs1 funct3 opc imm) 7 5 (by decide)
  unfold immS
  rw [shift_eq_field _ 25 7 rfl, hhigh, ← signExtend_setWidth imm (by decide),
    ← sImmediate_pieces, ← hlow, ← h5]
  rfl

theorem immB_bType (rs2 rs1 : Isa.Reg) (funct3 : BitVec 3) (opc : BitVec 7)
    (offset : BitVec 12) :
    immB (bType rs2 rs1 funct3 opc offset) = (offset.concat false).signExtend 32 := by
  obtain ⟨_, h11, hlow, _, _, _, hmid, h12⟩ := bType_fields rs2 rs1 funct3 opc offset
  have h4 := shift_mask_eq_field (bType rs2 rs1 funct3 opc offset) 8 4 (by decide)
  have h6 := shift_mask_eq_field (bType rs2 rs1 funct3 opc offset) 25 6 (by decide)
  have h1 := shift_mask_eq_field (bType rs2 rs1 funct3 opc offset) 7 1 (by decide)
  have hs := shift_mask_eq_field (bType rs2 rs1 funct3 opc offset) 31 1 (by decide)
  rw [← signExtend_setWidth _ (by decide), ← bImmediate_pieces, ← hlow, ← hmid, ← h11, ← h12,
    ← h4, ← h6, ← h1, ← hs]
  rfl

theorem immU_uType (rd : Isa.Reg) (opc : BitVec 7) (imm : BitVec 20) :
    immU (uType rd opc imm) = imm.setWidth 32 <<< 12 := by
  unfold immU
  rw [upper_mask_eq_field, (uType_fields ..).2.2]

theorem immJ_jType (rd : Isa.Reg) (opc : BitVec 7) (offset : BitVec 20) :
    immJ (jType rd opc offset) = (offset.concat false).signExtend 32 := by
  obtain ⟨_, _, hmid, h11, hlow, h20⟩ := jType_fields rd opc offset
  have h10 := shift_mask_eq_field (jType rd opc offset) 21 10 (by decide)
  have h1 := shift_mask_eq_field (jType rd opc offset) 20 1 (by decide)
  have h8 := shift_mask_eq_field (jType rd opc offset) 12 8 (by decide)
  have hs := shift_mask_eq_field (jType rd opc offset) 31 1 (by decide)
  rw [← signExtend_setWidth _ (by decide), ← jImmediate_pieces, ← hlow, ← h11, ← hmid, ← h20,
    ← h10, ← h1, ← h8, ← hs]
  rfl

/-- The shift amount is the low five bits of the immediate. -/
theorem immI_and_shamt (instr : Word) :
    immI instr &&& 0x1f = (instr.extractLsb' 20 5).setWidth 32 := by
  rw [immI_eq]
  ext i hi
  interval_cases i <;> simp [BitVec.getElem_signExtend]

/-! ## Values -/

theorem signedLess_eq (a b : Word) : signedLess a b = if a.toInt < b.toInt then 1 else 0 := by
  unfold signedLess
  rw [BitVec.slt_eq_decide]
  simp only [decide_eq_true_eq]

theorem toNat_and_31 (b : Word) : (b &&& 0x1f).toNat = b.toNat % 32 := by
  rw [BitVec.toNat_and]
  exact Nat.and_two_pow_sub_one_eq_mod b.toNat 5

theorem aluImm_eq (o : ImmOp) (funct7Imm : BitVec 7) (a imm : Word) :
    aluImm o.aluOp.funct3 funct7Imm a imm = some (o.aluOp.eval a imm) := by
  cases o with
  | slti => exact congrArg some (signedLess_eq a imm)
  | addi | sltiu | xori | ori | andi => rfl

theorem aluImm_shift_eq (o : ShiftOp) (a imm : Word) :
    aluImm o.aluOp.funct3 o.aluOp.funct7 a imm = some (o.aluOp.eval a (imm &&& 0x1f)) := by
  have h : (imm &&& 0x1f).toNat % 32 = (imm &&& 0x1f).toNat := by
    rw [toNat_and_31]
    omega
  cases o <;> simp only [ShiftOp.aluOp, AluOp.eval, h] <;> rfl

theorem aluOp_eq (o : AluOp) (rs2 : Reg) (a b : Word) :
    aluOp o.funct3 o.funct7 rs2 a b = .ok (some (o.eval a b)) := by
  cases o with
  | slt => exact congrArg (Except.ok ∘ some) (signedLess_eq a b)
  | sll | srl | sra =>
    simp only [AluOp.eval, ← toNat_and_31]
    rfl
  | add | sub | sltu | xor | or | and => rfl

theorem branchTaken_eq (o : BranchOp) (a b : Word) :
    branchTaken o.funct3 a b = o.eval a b := by
  cases o with
  | beq => rfl
  | bne => exact Bool.eq_iff_iff.mpr (by simp [branchTaken, BranchOp.funct3, BranchOp.eval])
  | blt => exact BitVec.slt_eq_decide
  | bge =>
    refine Bool.eq_iff_iff.mpr ?_
    simp [branchTaken, BranchOp.funct3, BranchOp.eval, BitVec.slt_eq_decide]
  | bltu => rfl
  | bgeu =>
    refine Bool.eq_iff_iff.mpr ?_
    simp [branchTaken, BranchOp.funct3, BranchOp.eval, BitVec.le_def]

/-! ## Instructions -/

namespace Core

def isaState (c : Core) : Isa.State := ⟨c.regs, c.pc⟩

/-- The core after an instruction, before `x0` is cleared. -/
def effect (c : Core) (instr : Rv32i) : Core :=
  { c with
    regs := match instr.result c.isaState with
      | some (rd, v) => Function.update c.regs rd v
      | none => c.regs
    pc := (instr.target c.isaState).getD (c.pc + 4) }

variable (c : Core)

theorem opImm_opImm (o : ImmOp) (rd rs1 : Isa.Reg) (imm : BitVec 12) :
    c.opImm (Rv32i.opImm o rd rs1 imm).encode = c.effect (.opImm o rd rs1 imm) := by
  obtain ⟨_, hrd, h3, h1, _, _⟩ := iType_fields rs1 o.aluOp.funct3 rd 0x13 imm
  unfold opImm rdOf funct3Of rs1Of Rv32i.encode
  simp only [hrd, h3, h1, immI_iType, aluImm_eq]
  rfl

theorem opImm_shiftImm (o : ShiftOp) (rd rs1 : Isa.Reg) (shamt : BitVec 5) :
    c.opImm (Rv32i.shiftImm o rd rs1 shamt).encode = c.effect (.shiftImm o rd rs1 shamt) := by
  obtain ⟨_, hrd, h3, h1, h2, h7⟩ :=
    rType_fields o.aluOp.funct7 shamt rs1 o.aluOp.funct3 rd 0x13
  unfold opImm rdOf funct3Of rs1Of funct7Of Rv32i.encode
  simp only [hrd, h3, h1, h7, aluImm_shift_eq, immI_and_shamt, h2]
  rfl

theorem op_op (o : AluOp) (rd rs1 rs2 : Isa.Reg) :
    c.op (Rv32i.op o rd rs1 rs2).encode = .ok (c.effect (.op o rd rs1 rs2)) := by
  obtain ⟨_, hrd, h3, h1, h2, h7⟩ := rType_fields o.funct7 rs2 rs1 o.funct3 rd 0x33
  unfold op rdOf funct3Of rs1Of rs2Of funct7Of Rv32i.encode
  simp only [hrd, h3, h1, h2, h7, aluOp_eq]
  rfl

theorem lui_lui (rd : Isa.Reg) (imm : BitVec 20) :
    c.lui (Rv32i.lui rd imm).encode = c.effect (.lui rd imm) := by
  unfold lui rdOf Rv32i.encode
  simp only [immU_uType, (uType_fields ..).2.1]
  rfl

theorem auipc_auipc (rd : Isa.Reg) (imm : BitVec 20) :
    c.auipc (Rv32i.auipc rd imm).encode = c.effect (.auipc rd imm) := by
  unfold auipc rdOf Rv32i.encode
  simp only [immU_uType, (uType_fields ..).2.1]
  rfl

theorem jal_jal (rd : Isa.Reg) (offset : BitVec 20) :
    c.jal (Rv32i.jal rd offset).encode = c.effect (.jal rd offset) := by
  unfold jal rdOf Rv32i.encode
  simp only [immJ_jType, (jType_fields ..).2.1]
  rfl

theorem jalr_jalr (rd rs1 : Isa.Reg) (imm : BitVec 12) :
    c.jalr (Rv32i.jalr rd rs1 imm).encode = c.effect (.jalr rd rs1 imm) := by
  obtain ⟨_, hrd, h3, h1, _, _⟩ := iType_fields rs1 0x0 rd 0x67 imm
  unfold jalr rdOf funct3Of rs1Of Rv32i.encode
  simp only [hrd, h3, h1, immI_iType]
  rfl

theorem branch_branch (o : BranchOp) (rs1 rs2 : Isa.Reg) (offset : BitVec 12) :
    c.branch (Rv32i.branch o rs1 rs2 offset).encode = c.effect (.branch o rs1 rs2 offset) := by
  obtain ⟨_, _, _, h3, h1, h2, _, _⟩ := bType_fields rs2 rs1 o.funct3 0x63 offset
  unfold branch funct3Of rs1Of rs2Of Rv32i.encode
  simp only [h3, h1, h2, immB_bType, branchTaken_eq]
  have ht : (Rv32i.branch o rs1 rs2 offset).target c.isaState =
      if o.eval (c.regs rs1) (c.regs rs2) then
        some (c.pc + (offset.concat false).signExtend 32) else none := rfl
  unfold effect
  rw [ht]
  cases o.eval (c.regs rs1) (c.regs rs2) <;> rfl

theorem update_zero {regs : Reg → Word} (h0 : regs 0 = 0) : Function.update regs 0 0 = regs := by
  have h := Function.update_eq_self 0 regs
  rwa [h0] at h

/-- Clearing `x0` afterwards is the same as not writing it. -/
theorem update_update_zero {c : Core} (h0 : c.regs 0 = 0) (rd : Reg) (v : Word) :
    Function.update (Function.update c.regs rd v) 0 0 = (c.isaState.write rd v).regs := by
  simp only [State.write, isaState]
  by_cases hrd : rd = 0
  · rw [if_pos hrd, hrd, Function.update_idem, update_zero h0]
  · rw [if_neg hrd, Function.update_comm hrd, update_zero h0]

theorem effect_regs {c : Core} (h0 : c.regs 0 = 0) (instr : Rv32i) :
    Function.update (c.effect instr).regs 0 0 = (instr.exec c.isaState).regs := by
  unfold effect Rv32i.exec
  cases instr.result c.isaState with
  | none => exact update_zero h0
  | some r => exact update_update_zero h0 r.1 r.2

end Core
end RiscvEmulator.Cores
