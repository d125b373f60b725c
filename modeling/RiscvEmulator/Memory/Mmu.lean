import Mathlib.Data.List.FinRange
import Mathlib.Logic.Function.Basic
import RiscvEmulator.Memory.Word

/-! # Address translation

`MMU` of `MMU.cpp`: a page walk through the memory interface given to the MMU,
and a fully associative TLB in front of it. The statistics are not modelled. -/
namespace RiscvEmulator.Memory

/-- The members of `ExceptionType` that are raised. -/
inductive ExceptionType where
  | loadAccessFault | storeAmoAccessFault
  | instructionPageFault | loadPageFault | storeAmoPageFault
  | machineSoftwareInterrupt | machineTimerInterrupt | machineExternalInterrupt
deriving DecidableEq, Repr

structure PageTableEntry where
  present : Bool := false
  readable : Bool := false
  writable : Bool := false
  executable : Bool := false
  user : Bool := false
  frame : Word := 0
  accessed : Bool := false
  dirty : Bool := false
deriving DecidableEq, Repr

def PageTableEntry.ofWord (pteValue : Word) : PageTableEntry where
  present := pteValue &&& 0x01 != 0
  readable := pteValue &&& 0x02 != 0
  writable := pteValue &&& 0x04 != 0
  executable := pteValue &&& 0x08 != 0
  user := pteValue &&& 0x10 != 0
  accessed := pteValue &&& 0x40 != 0
  dirty := pteValue &&& 0x80 != 0
  frame := (pteValue >>> 10) &&& 0x3FFFFF

structure TLBEntry where
  virtualPage : Word := 0
  physicalFrame : Word := 0
  writable : Bool := false
  user : Bool := false
  valid : Bool := false
deriving DecidableEq, Repr

structure MMUConfig where
  pageSize : Word := 4096
  tlbEntries : Nat := 32
  enableTlb : Bool := true
deriving DecidableEq, Repr

/-- `tlbLru` lists the entries from the most to the least recently used. -/
structure MMU (config : MMUConfig) where
  pageTableBase : Word
  tlbEntries : Fin config.tlbEntries → TLBEntry
  tlbLru : List (Fin config.tlbEntries)

namespace MMU
variable {config : MMUConfig}

def init (config : MMUConfig) : MMU config where
  pageTableBase := 0
  tlbEntries _ := {}
  tlbLru := List.finRange config.tlbEntries

def setPageTableBase (m : MMU config) (base : Word) : MMU config :=
  { m with pageTableBase := base }

def getPageOffset (config : MMUConfig) (addr : Word) : Word := addr % config.pageSize

def getPhysicalAddress (config : MMUConfig) (frame offset : Word) : Word :=
  frame * config.pageSize + offset

/-! ## The TLB -/

def updateTlbLru (m : MMU config) (k : Fin config.tlbEntries) : MMU config :=
  if config.enableTlb then { m with tlbLru := k :: m.tlbLru.filter (· != k) } else m

def setTlbEntry (m : MMU config) (k : Fin config.tlbEntries) (e : TLBEntry) : MMU config :=
  { m with tlbEntries := Function.update m.tlbEntries k e }

def findTlbEntry (m : MMU config) (virtualAddr : Word) : Option TLBEntry × MMU config :=
  let vpn := virtualAddr >>> 12
  if config.enableTlb then
    match (List.finRange config.tlbEntries).find? fun k =>
        (m.tlbEntries k).valid && (m.tlbEntries k).virtualPage == vpn with
    | some k => (some (m.tlbEntries k), m.updateTlbLru k)
    | none => (none, m)
  else (none, m)

/-- The first free entry, or the least recently used one. -/
def allocateTlbEntry (m : MMU config) (virtualAddr : Word) :
    Option (Fin config.tlbEntries) × MMU config :=
  let vpn := virtualAddr >>> 12
  if config.enableTlb then
    match (List.finRange config.tlbEntries).find? fun k => !(m.tlbEntries k).valid with
    | some k =>
      (some k, (m.setTlbEntry k { m.tlbEntries k with virtualPage := vpn, valid := true })
        |>.updateTlbLru k)
    | none =>
      match m.tlbLru.getLast? with
      | some k =>
        (some k, { m.setTlbEntry k { m.tlbEntries k with virtualPage := vpn, valid := true } with
          tlbLru := k :: m.tlbLru.dropLast })
      | none => (none, m)
  else (none, m)

def loadTlbEntry (m : MMU config) (virtualAddr : Word) (pte : PageTableEntry) : MMU config :=
  if !config.enableTlb || !pte.present then m
  else
    match m.allocateTlbEntry virtualAddr with
    | (some k, m) => m.setTlbEntry k
        { virtualPage := virtualAddr >>> 12, physicalFrame := pte.frame
          writable := pte.writable, user := pte.user, valid := true }
    | (none, m) => m

/-- The page table base stays. -/
def flushTlb (m : MMU config) : MMU config :=
  { m with
    tlbEntries k := { m.tlbEntries k with valid := false }
    tlbLru := List.finRange config.tlbEntries }

/-! ## The page walk -/

/-- `readWord` is the memory interface of the MMU. A leaf in the first 4 MiB may
stand directly in the root table. -/
def readPageTableEntry (m : MMU config) (readWord : Word → Word) (virtualAddr : Word) :
    PageTableEntry :=
  let vpn1 := (virtualAddr >>> 22) &&& 0x3FF
  let vpn0 := (virtualAddr >>> 12) &&& 0x3FF
  let direct := readWord (m.pageTableBase + vpn0 * 4)
  if vpn1 == 0 && (direct &&& 0x01 != 0 && direct &&& 0x0E != 0) then .ofWord direct
  else
    let pte1 := readWord (m.pageTableBase + vpn1 * 4)
    if pte1 &&& 0x01 == 0 then {}
    else
      let ppn := (pte1 >>> 10) &&& 0x3FFFFF
      .ofWord (readWord (ppn <<< 12 + vpn0 * 4))

def translateAddress (m : MMU config) (readWord : Word → Word) (vaddr : Word)
    (isWrite isInstruction : Bool) : Except ExceptionType Word × MMU config :=
  if m.pageTableBase == 0 then (.ok vaddr, m)
  else
    let pageOffset := getPageOffset config vaddr
    match m.findTlbEntry vaddr with
    | (some entry, m) =>
      if isWrite && !entry.writable then
        (.error (if isInstruction then .instructionPageFault else .storeAmoPageFault), m)
      else (.ok (getPhysicalAddress config entry.physicalFrame pageOffset), m)
    | (none, m) =>
      let pte := m.readPageTableEntry readWord vaddr
      if !pte.present then
        (.error (if isInstruction then .instructionPageFault
          else if isWrite then .storeAmoPageFault else .loadPageFault), m)
      else if isWrite && !pte.writable then (.error .storeAmoPageFault, m)
      else (.ok (getPhysicalAddress config pte.frame pageOffset), m.loadTlbEntry vaddr pte)

/-- Without a page table every address is its own translation. -/
theorem translateAddress_off {m : MMU config} (h : m.pageTableBase = 0) (readWord : Word → Word)
    (vaddr : Word) (isWrite isInstruction : Bool) :
    m.translateAddress readWord vaddr isWrite isInstruction = (.ok vaddr, m) := by
  unfold translateAddress
  simp [h]

end MMU
end RiscvEmulator.Memory
