import RiscvEmulator.Cores.State
import RiscvEmulator.Memory.Mmu

/-! # Interrupts and exceptions

How a core looks at the interrupt controllers, chooses an interrupt and enters
its handler, and how it enters the handler of an exception. -/
namespace RiscvEmulator.Cores
open Memory

/-- What the CLINT and the PLIC signal to a core. -/
structure PendingLines where
  software : Bool
  timer : Bool
  external : Bool
deriving DecidableEq, Repr

/-- What `handle_interrupt` can take. -/
inductive Interrupt where
  | machine (interruptType : ExceptionType)
  | supervisor (cause : Word)
deriving DecidableEq, Repr

/-- A cause of `take_exception`. Its low twelve bits count a shift of 32 bits, which is
undefined from 32 on; ECALL, the only caller, passes 8, 9 or 11. -/
structure ExceptionCause where
  word : Word
  code_lt : (word &&& 0xFFF).toNat < 32
deriving DecidableEq

/-- Whether an exception is taken in supervisor mode. -/
def delegates (c : Core) (cause : ExceptionCause) : Bool :=
  (c.csrRegisters 0x302 >>> (cause.word &&& 0xFFF).toNat) &&& 0x1 != 0 &&
    (c.privilegeLevel == .user || c.privilegeLevel == .supervisor)

namespace Core

def updateMipCsr (c : Core) (p : PendingLines) : Core :=
  c.setCsr 0x344 ((if p.software then 0x800 else 0) ||| (if p.timer then 0x200 else 0) |||
    (if p.external then 0x100 else 0))

def checkPendingInterrupts (c : Core) (p : PendingLines) : Bool × Core :=
  let c := c.updateMipCsr p
  let mip := c.csrRegisters 0x344
  let machineInterrupt := mip &&& c.csrRegisters 0x304 &&& 0xB00 != 0
  let supervisorInterrupt := (c.sstatus >>> 1) &&& 0x1 != 0 &&
    mip &&& c.csrRegisters 0x30A &&& c.csrRegisters 0x104 &&& 0x222 != 0
  (machineInterrupt || supervisorInterrupt, c)

/-- The handler of a trap: the base of the vector, or an entry of its table. -/
def trapTarget (tvec causeCode : Word) : Word :=
  let base := tvec &&& ~~~0x3#32
  if tvec &&& 0x3 == 1 then base + causeCode * 4 else base

def takeInterrupt (c : Core) (interruptType : ExceptionType) : Core :=
  let mstatus := c.csrRegisters 0x300
  let mie := (mstatus >>> 3) &&& 0x1
  let mepc := c.pc
  let c := c.writeCsr 0x300 ((mstatus &&& ~~~0x8#32) ||| (mie <<< 7) ||| (0x3#32 <<< 11))
  let c := c.writeCsr 0x341 mepc
  let cause := 0x80000000#32 ||| match interruptType with
    | .machineTimerInterrupt => 0x7#32
    | .machineExternalInterrupt => 0xB
    | _ => 0x3
  let c := c.writeCsr 0x342 cause
  let c := c.writeCsr 0x343 0
  c.setPc (trapTarget (c.csrRegisters 0x305) (cause &&& 0xFFF))

def takeSupervisorInterrupt (c : Core) (cause : Word) : Core :=
  let sie := (c.sstatus >>> 1) &&& 0x1
  let sepc := c.pc
  let c := c.writeCsr 0x100 ((c.sstatus &&& ~~~0x2#32) ||| (sie <<< 5) ||| (0x1#32 <<< 8))
  let c := c.writeCsr 0x141 sepc
  let scause := 0x80000000 ||| cause
  let c := c.writeCsr 0x142 scause
  let c := c.writeCsr 0x143 0
  c.setPc (trapTarget (c.csrRegisters 0x105) (scause &&& 0xFFF))

/-- The dispatch of `handle_interrupt`: machine interrupts first, then delegated
ones, whose pending bits are moved to the places of `sie`. -/
def selectInterrupt (c : Core) : Option Interrupt :=
  let mip := c.csrRegisters 0x344
  let mideleg := c.csrRegisters 0x30A
  let mInterrupts := if (c.csrRegisters 0x300 >>> 3) &&& 0x1 != 0 then
    mip &&& c.csrRegisters 0x304 &&& ~~~mideleg else 0
  let delegated := mip &&& mideleg
  let delegatedForSie := (if delegated &&& 0x800 != 0 then 0x2 else 0) |||
    (if delegated &&& 0x200 != 0 then 0x20 else 0) |||
    (if delegated &&& 0x100 != 0 then 0x200 else 0)
  let sInterrupts := if (c.sstatus >>> 1) &&& 0x1 != 0 then
    delegatedForSie &&& c.csrRegisters 0x104 else 0
  if mInterrupts &&& 0x800 != 0 then some (.machine .machineSoftwareInterrupt)
  else if mInterrupts &&& 0x200 != 0 then some (.machine .machineTimerInterrupt)
  else if mInterrupts &&& 0x100 != 0 then some (.machine .machineExternalInterrupt)
  else if sInterrupts &&& 0x2 != 0 then some (.supervisor 0x1)
  else if sInterrupts &&& 0x20 != 0 then some (.supervisor 0x5)
  else if sInterrupts &&& 0x200 != 0 then some (.supervisor 0x9)
  else none

def enter (c : Core) : Interrupt → Core
  | .machine interruptType => c.takeInterrupt interruptType
  | .supervisor cause => c.takeSupervisorInterrupt cause

def handleInterrupt (c : Core) (p : PendingLines) : Core :=
  let (pending, c) := c.checkPendingInterrupts p
  if pending then
    let c := c.updateMipCsr p
    match c.selectInterrupt with
    | some interrupt => c.enter interrupt
    | none => c
  else c

/-- Enter the handler of an exception, in supervisor mode if it is delegated. -/
def takeException (c : Core) (cause : ExceptionCause) : Core :=
  let medeleg := c.csrRegisters 0x302
  let causeCode := cause.word &&& 0xFFF
  let delegated := (medeleg >>> causeCode.toNat) &&& 0x1 != 0
  let level := c.privilegeLevel
  if delegated && (level == .user || level == .supervisor) then
    let sstatus := c.sstatus
    let sie := (sstatus >>> 1) &&& 0x1
    let sepc := c.pc
    let c := c.writeCsr 0x100
      ((sstatus &&& ~~~0x100#32 &&& ~~~0x2#32) ||| (sie <<< 5) ||| (level.toWord <<< 8))
    let c := c.writeCsr 0x141 sepc
    let c := c.writeCsr 0x142 cause.word
    let c := c.writeCsr 0x143 0
    { c.setPc (trapTarget (c.csrRegisters 0x105) causeCode) with
      privilegeLevel := .supervisor }
  else
    let mstatus := c.csrRegisters 0x300
    let mie := (mstatus >>> 3) &&& 0x1
    let mepc := c.pc
    let c := c.writeCsr 0x300
      ((mstatus &&& ~~~0x1800#32 &&& ~~~0x8#32) ||| (mie <<< 7) ||| (level.toWord <<< 11))
    let c := c.writeCsr 0x341 mepc
    let c := c.writeCsr 0x342 cause.word
    let c := c.writeCsr 0x343 0
    { c.setPc (trapTarget (c.csrRegisters 0x305) causeCode) with
      privilegeLevel := .machine }

/-- `handle_exception`: no handler is entered; an access fault stays where it is,
any other exception is stepped over. -/
def handleException (ex : ExceptionType) (faultPc : Word) : Word :=
  match ex with
  | .loadAccessFault | .storeAmoAccessFault => faultPc
  | _ => faultPc + 4

/-! ## Interrupts only touch `pc` and CSRs -/

/-- The two cores differ in `pc` and CSRs at most. -/
def SameButTrap (c c' : Core) : Prop :=
  ∃ pc csrs, c' = { c with pc := pc, csrRegisters := csrs }

namespace SameButTrap
variable {c c' c'' : Core}

theorem refl (c : Core) : SameButTrap c c := ⟨c.pc, c.csrRegisters, rfl⟩

theorem trans (h : SameButTrap c c') (h' : SameButTrap c' c'') : SameButTrap c c'' := by
  obtain ⟨pc, csrs, rfl⟩ := h
  obtain ⟨pc', csrs', rfl⟩ := h'
  exact ⟨pc', csrs', rfl⟩

theorem setPc (h : SameButTrap c c') (pc : Word) : SameButTrap c (c'.setPc pc) :=
  h.trans ⟨pc, c'.csrRegisters, rfl⟩

theorem setCsr (h : SameButTrap c c') (a : BitVec 12) (v : Word) :
    SameButTrap c (c'.setCsr a v) :=
  h.trans ⟨c'.pc, _, rfl⟩

/-- Every CSR write but those of the performance counter. -/
theorem writeCsr (h : SameButTrap c c') {a : BitVec 12} (v : Word) (h1 : a ≠ 0xB01)
    (h2 : a ≠ 0xB02) : SameButTrap c (c'.writeCsr a v) := by
  unfold Core.writeCsr
  split
  · exact h.setCsr _ _
  · exact h.setCsr _ _
  · exact absurd rfl h1
  · exact absurd rfl h2
  all_goals first | exact h | exact h.setCsr _ _

theorem regs (h : SameButTrap c c') : c'.regs = c.regs := by
  obtain ⟨pc, csrs, rfl⟩ := h
  rfl

end SameButTrap

theorem takeInterrupt_sameButTrap (c : Core) (e : ExceptionType) :
    SameButTrap c (c.takeInterrupt e) := by
  unfold takeInterrupt
  refine .setPc ?_ _
  refine .writeCsr ?_ _ (by decide) (by decide)
  refine .writeCsr ?_ _ (by decide) (by decide)
  refine .writeCsr ?_ _ (by decide) (by decide)
  exact .writeCsr (.refl c) _ (by decide) (by decide)

theorem takeSupervisorInterrupt_sameButTrap (c : Core) (cause : Word) :
    SameButTrap c (c.takeSupervisorInterrupt cause) := by
  unfold takeSupervisorInterrupt
  refine .setPc ?_ _
  refine .writeCsr ?_ _ (by decide) (by decide)
  refine .writeCsr ?_ _ (by decide) (by decide)
  refine .writeCsr ?_ _ (by decide) (by decide)
  exact .writeCsr (.refl c) _ (by decide) (by decide)

/-- The interrupt a step begins with, if any. -/
def interruptTaken (c : Core) (p : PendingLines) : Option Interrupt :=
  if (c.checkPendingInterrupts p).1 then (c.updateMipCsr p).selectInterrupt else none

theorem interruptTaken_silent (c : Core) : c.interruptTaken ⟨false, false, false⟩ = none := by
  simp [interruptTaken, checkPendingInterrupts, updateMipCsr, setCsr]

theorem handleInterrupt_eq (c : Core) (p : PendingLines) : c.handleInterrupt p =
    ((c.interruptTaken p).map (c.updateMipCsr p).enter).getD (c.updateMipCsr p) := by
  have hmip : (c.updateMipCsr p).updateMipCsr p = c.updateMipCsr p := by
    simp [updateMipCsr, Core.setCsr]
  have hsnd : (c.checkPendingInterrupts p).2 = c.updateMipCsr p := rfl
  unfold handleInterrupt interruptTaken
  revert hsnd
  rcases c.checkPendingInterrupts p with ⟨pending, c'⟩
  rintro (rfl : c' = c.updateMipCsr p)
  simp only [hmip]
  cases pending with
  | false => rfl
  | true => cases (c.updateMipCsr p).selectInterrupt <;> rfl

theorem handleInterrupt_sameButTrap (c : Core) (p : PendingLines) :
    SameButTrap c (c.handleInterrupt p) := by
  have hmip : SameButTrap c (c.updateMipCsr p) := .setCsr (.refl c) _ _
  rw [handleInterrupt_eq]
  cases c.interruptTaken p with
  | none => exact hmip
  | some interrupt =>
    cases interrupt with
    | machine e => exact hmip.trans (takeInterrupt_sameButTrap _ e)
    | supervisor cause => exact hmip.trans (takeSupervisorInterrupt_sameButTrap _ cause)

/-- If none is taken, only `mip` has been brought up to date. -/
theorem handleInterrupt_none {c : Core} {p : PendingLines} (h : c.interruptTaken p = none) :
    c.handleInterrupt p = c.updateMipCsr p := by
  rw [handleInterrupt_eq, h]
  rfl

end Core
end RiscvEmulator.Cores
