import RiscvEmulator.System.Step

/-! # How SYSTEM leaves the switch

After the CSR has been read there are five ways, whatever the word. WFI is none of them:
its test never holds. -/
namespace RiscvEmulator.System
open Memory Cores

/-- What is taken for MRET with `funct3` 0: MRET, and words with its 2 in `rs1`. -/
def RunsMret (instr : Word) : Prop :=
  instr = 0x30200073 ∨ (funct7Of instr).toNat = 0x18 ∧ rs1Of instr = 2 ∧ rdOf instr = 0

/-- What is taken for ECALL with `funct3` 0. -/
def RunsEcall (instr : Word) : Prop :=
  rdOf instr = 0 ∧ rs1Of instr = 0 ∧ (funct7Of instr).toNat = 0 ∧ instr.extractLsb' 20 12 = 0

/-- Seven bits are not 0x105. -/
theorem funct7_ne_wfi (instr : Word) : (funct7Of instr).toNat ≠ 0x105 := by
  have hlt := (funct7Of instr).isLt
  omega

/-- The operand of a CSR instruction, as the core takes it. -/
def csrSource (regs : Cores.Reg → Word) (instr : Word) : Word :=
  match funct3Of instr with
  | 0x1 | 0x2 | 0x3 => regs (rs1Of instr)
  | _ => (instr >>> 20) &&& 0x1F

/-- What a CSR instruction writes where it has read `old`. -/
def csrWritten (regs : Cores.Reg → Word) (instr old : Word) : Word :=
  match funct3Of instr with
  | 0x1 | 0x5 => csrSource regs instr
  | 0x2 | 0x6 => old ||| csrSource regs instr
  | _ => old &&& ~~~csrSource regs instr

namespace Simulator
variable {N n : Nat}

/-- How `system` leaves the switch from `s`, where it has read the CSR as `old`. -/
inductive SystemLeaves (i : Fin N) (instr old : Word) (s : Simulator N n) :
    Exit (Simulator N n) → Prop
  | mret (h3 : funct3Of instr = 0x0) (h : RunsMret instr) : SystemLeaves i instr old s (s.mret i)
  | ecall (h3 : funct3Of instr = 0x0) (h : RunsEcall instr) : SystemLeaves i instr old s
      (.done (s.setCore i ((s.cores i).takeException (ecallCause (s.cores i).privilegeLevel))))
  | skip (h3 : funct3Of instr = 0x0) (hmret : ¬RunsMret instr) (hecall : ¬RunsEcall instr) :
      SystemLeaves i instr old s ((s.setCore i (if rdOf instr ≠ 0 then
        (s.cores i).setReg (rdOf instr) 0 else s.cores i)).next i)
  | update (h0 : funct3Of instr ≠ 0x0) (h4 : funct3Of instr ≠ 0x4) :
      SystemLeaves i instr old s (s.csrUpdate i (rdOf instr) (instr.extractLsb' 20 12) old
        (csrWritten (s.cores i).regs instr old))
  | unknown (h4 : funct3Of instr = 0x4) : SystemLeaves i instr old s (s.next i)

theorem systemOther_leaves (s : Simulator N n) (i : Fin N) {instr : Word} (old : Word)
    (h3 : funct3Of instr = 0x0) : SystemLeaves i instr old s (s.systemOther i instr) := by
  unfold systemOther
  simp only
  split
  · next h => exact .mret h3 (.inl h)
  · next hword =>
    rw [if_neg fun h => funct7_ne_wfi instr h.1]
    split
    · next h => exact .mret h3 (.inr h)
    · next hfields =>
      split
      · next h => exact .ecall h3 h
      · next h => exact .skip h3 (not_or.mpr ⟨hword, hfields⟩) h

theorem system_leaves (s : Simulator N n) (i : Fin N) (instr : Word) :
    SystemLeaves i instr (s.readCsr i (instr.extractLsb' 20 12)).1
      (s.readCsr i (instr.extractLsb' 20 12)).2 (s.system i instr) := by
  unfold system
  simp only
  generalize (s.readCsr i (instr.extractLsb' 20 12)).1 = old
  generalize (s.readCsr i (instr.extractLsb' 20 12)).2 = t
  have hupdate : ∀ w, funct3Of instr ≠ 0x0 → funct3Of instr ≠ 0x4 →
      csrWritten (t.cores i).regs instr old = w → SystemLeaves i instr old t
        (t.csrUpdate i (rdOf instr) (instr.extractLsb' 20 12) old w) := by
    rintro w h0 h4 rfl
    exact .update h0 h4
  split
  case h_1 h3 => exact t.systemOther_leaves i old h3
  case h_8 h0 h1 h2 h3 h5 h6 h7 =>
    have hother :
        ∀ f : BitVec 3, f ≠ 0 → f ≠ 1 → f ≠ 2 → f ≠ 3 → f ≠ 5 → f ≠ 6 → f ≠ 7 → f = 4 := by
      bv_omega
    exact .unknown (hother _ h0 h1 h2 h3 h5 h6 h7)
  -- the six CSR instructions
  all_goals
    next h =>
    refine hupdate _ (by rw [h]; decide) (by rw [h]; decide) ?_
    unfold csrWritten csrSource
    rw [h]
    rfl

end Simulator
end RiscvEmulator.System
