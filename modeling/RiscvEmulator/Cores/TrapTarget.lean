import RiscvEmulator.Cores.Trap

/-! # Where a trap goes

The vector register of the mode that takes a trap holds a base and a mode. Only
interrupts have an entry of the table each; every exception enters at the base. The
core looks the target up the same way for both. -/
namespace RiscvEmulator.Cores
open Memory

/-- The calls that enter a handler. -/
inductive Trap where
  | interrupt (interruptType : ExceptionType)
  | supervisorInterrupt (cause : Word)
  | exception (cause : ExceptionCause)
deriving DecidableEq

/-- The mode of a vector register is 1. -/
def vectored (tvec : Word) : Bool := tvec &&& 0x3 == 1

/-- The base of the vector, for a vectored interrupt with four bytes for each cause. -/
def specifiedTarget (tvec : Word) (interrupt : Bool) (cause : Word) : Word :=
  if interrupt && vectored tvec then (tvec &&& ~~~0x3#32) + 4 * cause else tvec &&& ~~~0x3#32

namespace Trap

def take (c : Core) : Trap → Core
  | interrupt interruptType => c.takeInterrupt interruptType
  | supervisorInterrupt cause => c.takeSupervisorInterrupt cause
  | exception cause => c.takeException cause

def isInterrupt : Trap → Bool
  | exception _ => false
  | _ => true

def cause : Trap → Word
  | interrupt .machineTimerInterrupt => 0x7
  | interrupt .machineExternalInterrupt => 0xB
  | interrupt _ => 0x3
  | supervisorInterrupt cause => cause
  | exception cause => cause.word

/-- The vector register of the mode that takes the trap. -/
def tvec (c : Core) : Trap → Word
  | interrupt _ => c.csrRegisters 0x305
  | supervisorInterrupt _ => c.csrRegisters 0x105
  | exception cause => if delegates c cause then c.csrRegisters 0x105 else c.csrRegisters 0x305

/-- The trap goes where the specification says. -/
def GoesRight (c : Core) (trap : Trap) : Prop :=
  (trap.take c).pc = specifiedTarget (trap.tvec c) trap.isInterrupt trap.cause

/-- Outside of vectored mode all is well; in it a cause has to fit into twelve bits,
and an exception has to be that of code 0. -/
def TargetFits (c : Core) : Trap → Prop
  | interrupt _ => True
  | supervisorInterrupt cause =>
    vectored (c.csrRegisters 0x105) = false ∨ cause.toNat % 2 ^ 30 < 2 ^ 12
  | exception cause => vectored ((exception cause).tvec c) = false ∨ cause.word &&& 0xFFF = 0

end Trap

/-! ## Targets -/

/-- Without vectored mode nothing depends on the cause. -/
theorem trapTarget_direct {tvec : Word} (h : vectored tvec = false) (code cause : Word)
    (interrupt : Bool) : Core.trapTarget tvec code = specifiedTarget tvec interrupt cause := by
  unfold Core.trapTarget specifiedTarget
  rw [h, Bool.and_false]
  unfold vectored at h
  rw [h]
  rfl

theorem trapTarget_vectored {tvec : Word} (h : vectored tvec = true) (code : Word) :
    Core.trapTarget tvec code = (tvec &&& ~~~0x3#32) + code * 4 := if_pos h

theorem low_twelve_toNat (cause : Word) : (cause &&& 0xFFF).toNat = cause.toNat % 2 ^ 12 :=
  Nat.and_two_pow_sub_one_eq_mod cause.toNat 12

/-- Four times the low twelve bits of a cause. -/
theorem code_mul_four_eq_iff (cause : Word) :
    (cause &&& 0xFFF) * 4 = 4 * cause ↔ cause.toNat % 2 ^ 30 < 2 ^ 12 := by
  rw [← BitVec.toNat_inj, BitVec.toNat_mul, BitVec.toNat_mul, low_twelve_toNat]
  have h4 : (4 : Word).toNat = 4 := rfl
  rw [h4]
  omega

theorem code_mul_four_eq_zero_iff (cause : Word) :
    (cause &&& 0xFFF) * 4 = 0 ↔ cause &&& 0xFFF = 0 := by
  rw [← BitVec.toNat_inj, ← BitVec.toNat_inj, BitVec.toNat_mul, low_twelve_toNat]
  have h4 : (4 : Word).toNat = 4 := rfl
  have h0 : (0 : Word).toNat = 0 := rfl
  rw [h4, h0]
  omega

/-- The entry of an interrupt, looked up with the low twelve bits of its cause. -/
theorem interrupt_target_iff (tvec cause : Word) :
    Core.trapTarget tvec (cause &&& 0xFFF) = specifiedTarget tvec true cause ↔
      vectored tvec = false ∨ cause.toNat % 2 ^ 30 < 2 ^ 12 := by
  cases h : vectored tvec with
  | false => exact iff_of_true (trapTarget_direct h ..) (.inl rfl)
  | true =>
    have hspec : specifiedTarget tvec true cause = (tvec &&& ~~~0x3#32) + 4 * cause := if_pos h
    rw [trapTarget_vectored h, hspec, add_right_inj, code_mul_four_eq_iff]
    exact (or_iff_right Bool.true_eq_false.mp).symm

theorem exception_target_iff (tvec cause : Word) :
    Core.trapTarget tvec (cause &&& 0xFFF) = specifiedTarget tvec false cause ↔
      vectored tvec = false ∨ cause &&& 0xFFF = 0 := by
  cases h : vectored tvec with
  | false => exact iff_of_true (trapTarget_direct h ..) (.inl rfl)
  | true =>
    have hspec : specifiedTarget tvec false cause = tvec &&& ~~~0x3#32 := rfl
    rw [trapTarget_vectored h, hspec, add_eq_left, code_mul_four_eq_zero_iff]
    exact (or_iff_right Bool.true_eq_false.mp).symm

namespace Core
variable (c : Core)

theorem takeInterrupt_pc (interruptType : ExceptionType) :
    (c.takeInterrupt interruptType).pc =
      trapTarget (c.csrRegisters 0x305) ((Trap.interrupt interruptType).cause &&& 0xFFF) := by
  cases interruptType <;> rfl

/-- The interrupt bit of the cause is not among the twelve. -/
theorem takeSupervisorInterrupt_pc (cause : Word) :
    (c.takeSupervisorInterrupt cause).pc =
      trapTarget (c.csrRegisters 0x105) (cause &&& 0xFFF) := by
  have hcode : (0x80000000 ||| cause) &&& 0xFFF = cause &&& 0xFFF := by
    rw [BitVec.and_comm, BitVec.and_or_distrib_left, BitVec.and_comm 0xFFF cause]
    exact BitVec.zero_or
  show trapTarget (c.csrRegisters 0x105) ((0x80000000 ||| cause) &&& 0xFFF) = _
  rw [hcode]

theorem takeException_pc (cause : ExceptionCause) :
    (c.takeException cause).pc =
      trapTarget ((Trap.exception cause).tvec c) (cause.word &&& 0xFFF) := by
  unfold Trap.tvec delegates takeException
  simp only
  split
  · rfl
  · rfl

end Core

/-- The causes of machine interrupts are small. -/
theorem interrupt_goesRight (c : Core) (interruptType : ExceptionType) :
    (Trap.interrupt interruptType).GoesRight c := by
  show (c.takeInterrupt interruptType).pc = _
  rw [Core.takeInterrupt_pc]
  exact (interrupt_target_iff _ _).mpr (.inr (by cases interruptType <;> decide))

theorem supervisorInterrupt_goesRight_iff (c : Core) (cause : Word) :
    (Trap.supervisorInterrupt cause).GoesRight c ↔
      vectored (c.csrRegisters 0x105) = false ∨ cause.toNat % 2 ^ 30 < 2 ^ 12 := by
  show (c.takeSupervisorInterrupt cause).pc = _ ↔ _
  rw [Core.takeSupervisorInterrupt_pc]
  exact interrupt_target_iff _ _

/-- Interrupts go where they should unless the cause is too large for the mask; in
vectored mode exceptions do not. -/
theorem trap_target_iff (c : Core) (trap : Trap) : trap.GoesRight c ↔ trap.TargetFits c := by
  cases trap with
  | interrupt interruptType => exact iff_of_true (interrupt_goesRight c interruptType) trivial
  | supervisorInterrupt cause => exact supervisorInterrupt_goesRight_iff c cause
  | exception cause =>
    show (c.takeException cause).pc = _ ↔ _
    rw [Core.takeException_pc]
    exact exception_target_iff _ _

/-- An ECALL in machine mode, with the vector at 0x1000 in vectored mode, enters the
table. -/
theorem vectored_exception : ¬∀ (c : Core) (trap : Trap), trap.GoesRight c := by
  intro h
  have hright := h ((Core.init 0 0).setCsr 0x305 0x1001) (.exception ⟨11, by decide⟩)
  unfold Trap.GoesRight at hright
  exact absurd hright (by decide)

/-! ## The interrupts that are taken -/

def Interrupt.trap : Interrupt → Trap
  | .machine interruptType => .interrupt interruptType
  | .supervisor cause => .supervisorInterrupt cause

theorem Interrupt.trap_take (c : Core) (interrupt : Interrupt) :
    interrupt.trap.take c = c.enter interrupt := by
  cases interrupt <;> rfl

/-- The causes of the dispatch are small, so that its interrupts go where they should. -/
theorem selectInterrupt_goesRight {c : Core} {interrupt : Interrupt}
    (h : c.selectInterrupt = some interrupt) (c' : Core) : interrupt.trap.GoesRight c' := by
  have hsmall : ∀ cause : Word, cause.toNat % 2 ^ 30 < 2 ^ 12 →
      (Trap.supervisorInterrupt cause).GoesRight c' := fun cause hcause =>
    (supervisorInterrupt_goesRight_iff c' cause).mpr (.inr hcause)
  unfold Core.selectInterrupt at h
  extract_lets mip mideleg mInterrupts delegated delegatedForSie sInterrupts at h
  clear_value mInterrupts sInterrupts
  split_ifs at h <;> cases h
  · exact interrupt_goesRight c' _
  · exact interrupt_goesRight c' _
  · exact interrupt_goesRight c' _
  · exact hsmall _ (by decide)
  · exact hsmall _ (by decide)
  · exact hsmall _ (by decide)

/-- So an interrupt that the dispatch takes enters its vector. -/
theorem enter_target {c : Core} {interrupt : Interrupt} (h : c.selectInterrupt = some interrupt) :
    (c.enter interrupt).pc =
      specifiedTarget (interrupt.trap.tvec c) true interrupt.trap.cause := by
  have hright : (interrupt.trap.take c).pc =
      specifiedTarget (interrupt.trap.tvec c) interrupt.trap.isInterrupt interrupt.trap.cause :=
    selectInterrupt_goesRight h c
  have hkind : interrupt.trap.isInterrupt = true := by
    cases interrupt <;> rfl
  rwa [Interrupt.trap_take, hkind] at hright

end RiscvEmulator.Cores
