import Mathlib.Logic.Function.Basic
import RiscvEmulator.Cores.Decode

/-! # The state of a core

Registers, CSRs and performance counters of `Core`. The counters that all cores
share (static members of the class) are a record of their own. The profilers
only watch the core and are not modelled. -/
namespace RiscvEmulator.Cores
open Memory

/-- `reserved` is the value 2, which an MRET can restore from `mstatus`. -/
inductive PrivilegeLevel where
  | user | supervisor | reserved | machine
deriving DecidableEq, Repr

namespace PrivilegeLevel

def toWord : PrivilegeLevel → Word
  | user => 0
  | supervisor => 1
  | reserved => 2
  | machine => 3

def ofBits (b : BitVec 2) : PrivilegeLevel :=
  if b = 0 then user else if b = 1 then supervisor else if b = 2 then reserved else machine

end PrivilegeLevel

/-- The performance counters shared by all cores. -/
structure GlobalCounters where
  instruction : Word := 0
  memoryAccess : Word := 0
  branch : Word := 0
  cacheHit : Word := 0
deriving DecidableEq, Repr

structure Core where
  initialPc : Word
  pc : Word
  regs : Reg → Word
  hasBooted : Bool
  hasFinished : Bool
  isWaitingForInterrupt : Bool
  csrRegisters : BitVec 12 → Word
  privilegeLevel : PrivilegeLevel
  performanceCounter : Word
  performanceControl : Word
  performanceEventSelect : Word

namespace Core

def setReg (c : Core) (rd : Reg) (v : Word) : Core :=
  { c with regs := Function.update c.regs rd v }

def setPc (c : Core) (pc : Word) : Core := { c with pc := pc }

def setCsr (c : Core) (csrAddr : BitVec 12) (v : Word) : Core :=
  { c with csrRegisters := Function.update c.csrRegisters csrAddr v }

def initCsrs (coreId : Nat) (csrAddr : BitVec 12) : Word :=
  if csrAddr = 0x300 then 0x1800
  else if csrAddr = 0x304 then 0x888
  else if csrAddr = 0xF14 then BitVec.ofNat 32 coreId
  else 0

/-- A core just built; `x2` is the default stack top, since the core does not
know the simulator yet. -/
def init (coreId : Nat) (initialPc : Word) : Core where
  initialPc := initialPc
  pc := initialPc
  regs := Function.update (fun _ => 0) 2 0x100000
  hasBooted := false
  hasFinished := false
  isWaitingForInterrupt := false
  csrRegisters := initCsrs coreId
  privilegeLevel := .machine
  performanceCounter := 0
  performanceControl := 0
  performanceEventSelect := 0

/-- `memorySize` is that of the simulator, if the core knows it. Most CSRs, the privilege
level and `hasFinished` stay. -/
def reset (c : Core) (coreId : Nat) (memorySize : Option Nat) : Core :=
  { c with
    pc := c.initialPc
    regs := Function.update (fun _ => 0) 2 (BitVec.ofNat 32 (memorySize.getD 0x100000))
    hasBooted := false
    isWaitingForInterrupt := false
    csrRegisters := Function.update c.csrRegisters 0xF14 (BitVec.ofNat 32 coreId) }

/-- The constructor ends with a reset. -/
theorem reset_init (coreId : Nat) (initialPc : Word) :
    (init coreId initialPc).reset coreId none = init coreId initialPc := by
  unfold reset
  congr 1
  exact Function.update_eq_self_iff.mpr rfl

section
variable (c : Core) (rd : Reg) (v : Word) (a : BitVec 12)

@[simp] theorem setReg_regs : (c.setReg rd v).regs = Function.update c.regs rd v := rfl
@[simp] theorem setReg_pc : (c.setReg rd v).pc = c.pc := rfl
@[simp] theorem setPc_regs : (c.setPc v).regs = c.regs := rfl
@[simp] theorem setPc_pc : (c.setPc v).pc = v := rfl
@[simp] theorem setCsr_regs : (c.setCsr a v).regs = c.regs := rfl
@[simp] theorem setCsr_pc : (c.setCsr a v).pc = c.pc := rfl

end

/-! ## Control and status registers -/

/-- What a read of `sstatus` makes of `mstatus`. -/
def sstatus (c : Core) : Word :=
  let mstatus := c.csrRegisters 0x300
  (mstatus &&& 0x1) ||| (mstatus &&& 0x2) ||| (mstatus &&& 0x4) <<< 3 ||| (mstatus &&& 0x8) |||
    (mstatus &&& 0x10) <<< 1 ||| (mstatus &&& 0x20) <<< 1 ||| (mstatus &&& 0x40) <<< 1 |||
    (mstatus &&& 0x80) ||| (mstatus &&& 0x100) <<< 4 ||| (mstatus &&& 0x200) <<< 8 |||
    (mstatus &&& 0x400) <<< 4 ||| (mstatus &&& 0x80000) ||| (mstatus &&& 0x100000)

/-- A read of the time counter advances it. -/
def readCsr (c : Core) (counters : GlobalCounters) (coreId : Nat) (csrAddr : BitVec 12) :
    Word × Core :=
  match csrAddr with
  | 0x100 => (c.sstatus, c)
  | 0xF14 => (BitVec.ofNat 32 coreId, c)
  | 0xC01 =>
    let time := c.csrRegisters 0xC01 + (50 + BitVec.ofNat 32 coreId * 5)
    (time, c.setCsr 0xC01 time)
  | 0xB00 => (c.performanceCounter, c)
  | 0xB01 => (c.performanceControl, c)
  | 0xB02 => (c.performanceEventSelect, c)
  | 0xB10 => (counters.instruction, c)
  | 0xB11 => (counters.memoryAccess, c)
  | 0xB12 => (counters.branch, c)
  | 0xB13 => (counters.cacheHit, c)
  | _ => (c.csrRegisters csrAddr, c)

/-- What a CSR write does to the core itself. -/
def writeCsr (c : Core) (csrAddr : BitVec 12) (value : Word) : Core :=
  match csrAddr with
  | 0x100 => c.setCsr 0x300 ((c.csrRegisters 0x300 &&& ~~~0x622#32) ||| (value &&& 0x622))
  | 0x344 =>
    let writableMask := 0x222
    c.setCsr 0x344 ((c.csrRegisters 0x344 &&& ~~~writableMask) ||| (value &&& writableMask))
  | 0xB01 =>
    { c with
      performanceControl := value
      performanceCounter := if value &&& 0x2 != 0 then 0 else c.performanceCounter }
  | 0xB02 => { c with performanceEventSelect := value }
  | 0xF14 | 0xB00 | 0xB10 | 0xB11 | 0xB12 | 0xB13 | 0xB14 => c
  | _ => c.setCsr csrAddr value

/-! ## Performance counters -/

/-- The counters stop at their last value. -/
def saturatingIncrement (v : Word) : Word := if v < 0xFFFFFFFF then v + 1 else v

def incrementPerformanceCounter (c : Core) : Core :=
  { c with performanceCounter := saturatingIncrement c.performanceCounter }

def updatePerformanceCounter (c : Core) (counters : GlobalCounters) : Core × GlobalCounters :=
  let counters := { counters with instruction := saturatingIncrement counters.instruction }
  if c.performanceControl &&& 0x1 == 0 then (c, counters)
  else
    match c.performanceEventSelect with
    | 0 => (c.incrementPerformanceCounter, counters)
    | 1 => (c.incrementPerformanceCounter,
        { counters with memoryAccess := saturatingIncrement counters.memoryAccess })
    | 2 => (c.incrementPerformanceCounter,
        { counters with branch := saturatingIncrement counters.branch })
    | 3 => (c.incrementPerformanceCounter,
        { counters with cacheHit := saturatingIncrement counters.cacheHit })
    | _ => (c, counters)

/-- Counting leaves everything but the counter of the core alone. -/
theorem updatePerformanceCounter_core (c : Core) (counters : GlobalCounters) :
    ∃ v, (c.updatePerformanceCounter counters).1 = { c with performanceCounter := v } := by
  unfold updatePerformanceCounter
  split
  · exact ⟨c.performanceCounter, rfl⟩
  · split
    · exact ⟨_, rfl⟩
    · exact ⟨_, rfl⟩
    · exact ⟨_, rfl⟩
    · exact ⟨_, rfl⟩
    · exact ⟨c.performanceCounter, rfl⟩

end Core
end RiscvEmulator.Cores
