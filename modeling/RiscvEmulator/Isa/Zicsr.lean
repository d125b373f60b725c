import RiscvEmulator.Isa.Format

/-! # The Zicsr extension

The six instructions that read a CSR and write a new value to it, made of the old
one and of a register or of the five bits in the place of the register. -/
namespace RiscvEmulator.Isa

inductive CsrOp where
  | rw | rs | rc
deriving DecidableEq, Repr

/-- The new value of the CSR. -/
def CsrOp.eval (op : CsrOp) (old v : BitVec 32) : BitVec 32 :=
  match op with
  | rw => v
  | rs => old ||| v
  | rc => old &&& ~~~v

theorem getLsbD_extend (x : BitVec 5) (k : Nat) : (x.setWidth 32).getLsbD k = x.getLsbD k := by
  rw [BitVec.getLsbD_setWidth]
  by_cases hk : k < 32
  · simp [hk]
  · rw [BitVec.getLsbD_of_ge x k (by omega), Bool.and_false]

/-- Two immediates make the same new value if they only differ where the old value
has the bit to be set already, or has not the bit to be cleared. -/
theorem CsrOp.eval_immediate (op : CsrOp) (old : BitVec 32) (x y : BitVec 5) :
    op.eval old (x.setWidth 32) = op.eval old (y.setWidth 32) ↔
      match op with
      | .rw => x = y
      | .rs => ∀ k, x.getLsbD k ≠ y.getLsbD k → old.getLsbD k = true
      | .rc => ∀ k, x.getLsbD k ≠ y.getLsbD k → old.getLsbD k = false := by
  constructor
  · intro h
    have hk : ∀ k, (op.eval old (x.setWidth 32)).getLsbD k =
        (op.eval old (y.setWidth 32)).getLsbD k := fun k => by rw [h]
    cases op with
    | rw =>
      refine BitVec.eq_of_getLsbD_eq fun k _ => ?_
      rw [← getLsbD_extend x, ← getLsbD_extend y]
      exact hk k
    | rs =>
      intro k hne
      have h := hk k
      simp only [eval, BitVec.getLsbD_or, getLsbD_extend] at h
      cases hold : old.getLsbD k with
      | true => rfl
      | false =>
        simp only [hold, Bool.false_or] at h
        exact absurd h hne
    | rc =>
      intro k hne
      have h := hk k
      simp only [eval, BitVec.getLsbD_and, BitVec.getLsbD_not, getLsbD_extend] at h
      cases hold : old.getLsbD k with
      | false => rfl
      | true =>
        have hlt : k < 32 := BitVec.lt_of_getLsbD hold
        simp only [hold, hlt, decide_true, Bool.true_and, Bool.not_inj_iff] at h
        exact absurd h hne
  · intro h
    refine BitVec.eq_of_getLsbD_eq fun k _ => ?_
    by_cases hsame : x.getLsbD k = y.getLsbD k
    · cases op <;>
        simp only [eval, BitVec.getLsbD_or, BitVec.getLsbD_and, BitVec.getLsbD_not,
          getLsbD_extend, hsame]
    · cases op with
      | rw => exact absurd (congrArg (·.getLsbD k) h) hsame
      | rs => simp only [eval, BitVec.getLsbD_or, h k hsame, Bool.true_or]
      | rc => simp only [eval, BitVec.getLsbD_and, h k hsame, Bool.false_and]

inductive CsrSource where
  | reg (rs1 : Reg)
  | imm (zimm : BitVec 5)
deriving DecidableEq, Repr

structure Zicsr where
  op : CsrOp
  rd : Reg
  source : CsrSource
  csr : BitVec 12
deriving DecidableEq, Repr

namespace Zicsr

/-- Bits 19 to 15. -/
def sourceField (instr : Zicsr) : BitVec 5 :=
  match instr.source with
  | .reg rs1 => rs1
  | .imm zimm => zimm

def funct3 (instr : Zicsr) : BitVec 3 :=
  match instr.source, instr.op with
  | .reg _, .rw => 0x1
  | .reg _, .rs => 0x2
  | .reg _, .rc => 0x3
  | .imm _, .rw => 0x5
  | .imm _, .rs => 0x6
  | .imm _, .rc => 0x7

def encode (instr : Zicsr) : BitVec 32 :=
  iType instr.sourceField instr.funct3 instr.rd 0x73 instr.csr

/-- The operand, given the registers. -/
def operand (instr : Zicsr) (regs : Reg → BitVec 32) : BitVec 32 :=
  match instr.source with
  | .reg rs1 => regs rs1
  | .imm zimm => zimm.setWidth 32

theorem encode_fields (instr : Zicsr) :
    instr.encode.extractLsb' 0 7 = 0x73#7 ∧ instr.encode.extractLsb' 7 5 = instr.rd ∧
      instr.encode.extractLsb' 12 3 = instr.funct3 ∧
      instr.encode.extractLsb' 15 5 = instr.sourceField ∧
      instr.encode.extractLsb' 20 12 = instr.csr := by
  obtain ⟨h0, hrd, h3, h1, hcsr, _⟩ :=
    iType_fields instr.sourceField instr.funct3 instr.rd 0x73 instr.csr
  exact ⟨h0, hrd, h3, h1, hcsr⟩

/-- Bits 24 to 20 are the low end of the CSR's number. -/
theorem encode_csr_low (instr : Zicsr) :
    instr.encode.extractLsb' 20 5 = instr.csr.extractLsb' 0 5 := by
  ext k hk
  rw [← instr.encode_fields.2.2.2.2]
  simp only [BitVec.getElem_extractLsb', BitVec.getLsbD_extractLsb', Nat.zero_add]
  simp only [show k < 12 by omega, decide_true, Bool.true_and]

end Zicsr
end RiscvEmulator.Isa
