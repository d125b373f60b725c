import RiscvEmulator.Cores.Alu
import RiscvEmulator.Cores.Trap
import RiscvEmulator.Device.Uart
import RiscvEmulator.Interrupt.Clint
import RiscvEmulator.Interrupt.Plic
import RiscvEmulator.Memory.Hierarchy
import RiscvEmulator.System.MultiCoreMonitor

/-! # The simulator

`N` cores with their caches and MMUs, `n` bytes of memory, the devices and the
interrupt controllers. Cached accesses run through the hierarchy down to DDR,
all others use `memory` directly; nothing keeps the two alike. -/
namespace RiscvEmulator.System
open Memory Cores Interrupt Device

/-- The MMUs the Simulator configures. -/
abbrev mmuConfig : MMUConfig := { pageSize := 4096, tlbEntries := 32, enableTlb := true }

structure Simulator (N n : Nat) where
  cores : Fin N → Core
  memory : ByteMemory n
  /-- `l1_icaches`, `l1_dcaches` and `l2_cache` over `ddr_memory`. -/
  hierarchy : Hierarchy N
  mmus : Fin N → MMU mmuConfig
  /-- Devices by base address. -/
  devices : List (Word × UART)
  coreBootedFlags : Fin N → Bool
  multiCoreMonitor : MultiCoreMonitor N
  clint : CLINT N
  plic : PLIC
  /-- The static members of `Core`. -/
  counters : GlobalCounters

namespace Simulator
variable {N n : Nat}

def uartBase : Word := 0x10000000

/-- The constructor. `ddr` is what the DDR vector holds: zeros, before a program
is loaded. -/
def init (N n : Nat) (ddr : DDRMemory) : Simulator N n where
  cores i := Core.init i.val 0
  memory := (MultiCoreMonitor.init N).writeStateToMemory ⟨fun _ => 0⟩
  hierarchy := Hierarchy.init N ddr
  mmus _ := MMU.init mmuConfig
  devices := [(uartBase, {})]
  coreBootedFlags _ := false
  multiCoreMonitor := MultiCoreMonitor.init N
  clint := CLINT.init N
  plic := PLIC.init 32 N
  counters := {}

def setCore (s : Simulator N n) (i : Fin N) (c : Core) : Simulator N n :=
  { s with cores := Function.update s.cores i c }

/-- What the interrupt controllers signal to core `i`. -/
def pendingLines (s : Simulator N n) (i : Fin N) : PendingLines where
  software := s.clint.hasSoftwareInterrupt i
  timer := s.clint.hasTimerInterrupt i
  external := s.plic.hasPendingInterrupts i.val

/-! ## Memory and devices -/

def inDevice (addr : Word) (dev : Word × UART) : Bool := dev.1 ≤ addr && addr < dev.1 + 32

/-- The CLINT window and its alias. -/
def inClint (addr : Word) : Bool :=
  (0x02000000 ≤ addr && addr < 0x02010000) || (0x20000000 ≤ addr && addr < 0x20010000)

def clintAddr (addr : Word) : Word :=
  if 0x20000000 ≤ addr && addr < 0x20010000 then addr + 0x1E000000 else addr

def getDevice (s : Simulator N n) (addr : Word) : Option UART :=
  (s.devices.find? (·.1 == addr)).map (·.2)

def writeDevice (s : Simulator N n) (p : Word × UART → Bool) (write : Word × UART → UART) :
    Simulator N n :=
  { s with devices := s.devices.modify (s.devices.findIdx p) fun dev => (dev.1, write dev) }

def readWord (s : Simulator N n) (addr : Word) : Word :=
  match s.devices.find? (inDevice addr) with
  | some dev => dev.2.read (addr - dev.1)
  | none =>
    if inClint addr then (s.clint.read ((clintAddr addr).setWidth 64) 4).setWidth 32
    else s.memory.readWord addr

def writeWord (s : Simulator N n) (addr data : Word) : Simulator N n :=
  if s.devices.any (inDevice addr) then
    s.writeDevice (inDevice addr) fun dev => dev.2.write (addr - dev.1) data
  else if inClint addr then
    { s with clint := s.clint.write ((clintAddr addr).setWidth 64) (data.setWidth 64) 4 }
  else { s with memory := s.memory.writeWord addr data }

def readHalfword (s : Simulator N n) (addr : Word) : BitVec 16 :=
  match s.devices.find? (inDevice addr) with
  | some dev => (dev.2.read (addr - dev.1)).setWidth 16
  | none => s.memory.readHalfword addr

def writeHalfword (s : Simulator N n) (addr : Word) (data : BitVec 16) : Simulator N n :=
  if s.devices.any (inDevice addr) then
    s.writeDevice (inDevice addr) fun dev => dev.2.write (addr - dev.1) (data.setWidth 32)
  else { s with memory := s.memory.writeHalfword addr data }

def readByte (s : Simulator N n) (addr : Word) : Byte :=
  match s.devices.find? (inDevice addr) with
  | some dev => (dev.2.read (addr - dev.1)).setWidth 8
  | none => s.memory.readByte addr

def writeByte (s : Simulator N n) (addr : Word) (data : Byte) : Simulator N n :=
  if s.devices.any (inDevice addr) then
    s.writeDevice (inDevice addr) fun dev => dev.2.write (addr - dev.1) (data.setWidth 32)
  else { s with memory := s.memory.writeByte addr data }

/-! ## Translated and cached accesses -/

/-- The MMU of core `i`, which walks page tables in `memory`. -/
def translate (s : Simulator N n) (i : Fin N) (addr : Word) (isWrite isInstruction : Bool) :
    Except ExceptionType Word × Simulator N n :=
  let (result, mmu) := (s.mmus i).translateAddress s.memory.readWord addr isWrite isInstruction
  (result, { s with mmus := Function.update s.mmus i mmu })

/-- `Cache::translate_address`: an address that does not translate is used as it
is. -/
def cacheTranslate (s : Simulator N n) (i : Fin N) (addr : Word)
    (isWrite isInstruction : Bool) : Word × Simulator N n :=
  match s.translate i addr isWrite isInstruction with
  | (.ok paddr, s) => (paddr, s)
  | (.error _, s) => (addr, s)

def fetch (s : Simulator N n) (i : Fin N) (addr : Word) : Word × Simulator N n :=
  let (paddr, s) := s.cacheTranslate i addr false true
  let (instr, h) := s.hierarchy.fetch i paddr
  (instr, { s with hierarchy := h })

def dataRead (s : Simulator N n) (i : Fin N) (addr : Word) : Word × Simulator N n :=
  let (paddr, s) := s.cacheTranslate i addr false false
  let (data, h) := s.hierarchy.load i paddr
  (data, { s with hierarchy := h })

def dataWrite (s : Simulator N n) (i : Fin N) (addr data : Word) : Simulator N n :=
  let (paddr, s) := s.cacheTranslate i addr true false
  { s with hierarchy := s.hierarchy.store i addr paddr data }

def dataAtomic (s : Simulator N n) (i : Fin N) (addr : Word) (op : Atomic) :
    Word × Simulator N n :=
  let (paddr, s) := s.cacheTranslate i addr true false
  let (old, h) := s.hierarchy.atomic i paddr op
  (old, { s with hierarchy := h })

def dataReadWord (s : Simulator N n) (i : Fin N) (addr : Word) : Word × Simulator N n :=
  let (paddr, s) := s.cacheTranslate i addr false false
  let (data, h) := s.hierarchy.readWord i paddr
  (data, { s with hierarchy := h })

def dataWriteWord (s : Simulator N n) (i : Fin N) (addr data : Word) : Simulator N n :=
  let (paddr, s) := s.cacheTranslate i addr true false
  { s with hierarchy := s.hierarchy.writeWord i paddr data }

/-! ## CSRs -/

def readCsr (s : Simulator N n) (i : Fin N) (csrAddr : BitVec 12) : Word × Simulator N n :=
  let (v, c) := (s.cores i).readCsr s.counters i.val csrAddr
  (v, s.setCore i c)

/-- `update_mmu_from_satp`. -/
def updateMmuFromSatp (s : Simulator N n) (i : Fin N) (satpValue : Word) : Simulator N n :=
  let base : Word := if (satpValue >>> 31) &&& 0x1 == 0 then 0 else (satpValue &&& 0x3FFFFF) <<< 12
  { s with mmus := Function.update s.mmus i ((s.mmus i).setPageTableBase base) }

/-- The write, with what it does outside the core: `satp` sets up the MMU, and
bit 1 of the global control register clears the shared counters. -/
def writeCsr (s : Simulator N n) (i : Fin N) (csrAddr : BitVec 12) (value : Word) :
    Simulator N n :=
  let s := s.setCore i ((s.cores i).writeCsr csrAddr value)
  if csrAddr = 0x180 then s.updateMmuFromSatp i value
  else if csrAddr = 0xB14 ∧ value &&& 0x2 ≠ 0 then { s with counters := {} }
  else s

end Simulator
end RiscvEmulator.System
