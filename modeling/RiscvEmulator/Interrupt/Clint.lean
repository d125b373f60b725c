import Mathlib.Logic.Function.Basic
import RiscvEmulator.Memory.Word

/-! # The core local interruptor

`CLINT` of `CLINT.cpp`: a timer shared by all cores, a compare value and a
software interrupt bit for each. Its lock is held during one call only. -/
namespace RiscvEmulator.Interrupt
open Memory

structure CLINT (N : Nat) where
  mtime : BitVec 64
  mtimecmp : Fin N → BitVec 64
  msip : Fin N → Bool

namespace CLINT
variable {N : Nat}

def clintBase : BitVec 64 := 0x02000000
def msipBase : Nat := 0x0000
def mtimecmpBase : Nat := 0x4000
def mtimeOffset : Nat := 0xBFF8

def init (N : Nat) : CLINT N where
  mtime := 0
  mtimecmp _ := 0xFFFFFFFFFFFFFFFF
  msip _ := false

/-- The core with a number, `none` if it is not valid. -/
def core (N : Nat) (coreId : Nat) : Option (Fin N) :=
  if h : coreId < N then some ⟨coreId, h⟩ else none

/-- The registers of the memory map; `mtime` only answers to 8-byte accesses. -/
inductive Register (N : Nat) where
  | msip (coreId : Fin N)
  | mtimecmp (coreId : Fin N)
  | mtime

def register (N : Nat) (addr : BitVec 64) (size : Nat) : Option (Register N) :=
  let offset := (addr - clintBase).toNat
  if msipBase ≤ offset ∧ offset < msipBase + N * 4 then
    (core N ((offset - msipBase) / 4)).map .msip
  else if mtimecmpBase ≤ offset ∧ offset < mtimecmpBase + N * 8 then
    (core N ((offset - mtimecmpBase) / 8)).map .mtimecmp
  else if offset = mtimeOffset ∧ 8 ≤ size then some .mtime
  else none

def read (c : CLINT N) (addr : BitVec 64) (size : Nat) : BitVec 64 :=
  match register N addr size with
  | some (.msip coreId) => if c.msip coreId then 1 else 0
  | some (.mtimecmp coreId) => c.mtimecmp coreId
  | some .mtime => c.mtime
  | none => 0

def write (c : CLINT N) (addr value : BitVec 64) (size : Nat) : CLINT N :=
  match register N addr size with
  | some (.msip coreId) => { c with msip := Function.update c.msip coreId (value != 0) }
  | some (.mtimecmp coreId) => { c with mtimecmp := Function.update c.mtimecmp coreId value }
  | some .mtime => { c with mtime := value }
  | none => c

def updateTimer (c : CLINT N) (deltaCycles : BitVec 64) : CLINT N :=
  { c with mtime := c.mtime + deltaCycles }

def hasTimerInterrupt (c : CLINT N) (coreId : Fin N) : Bool := c.mtimecmp coreId ≤ c.mtime

def hasSoftwareInterrupt (c : CLINT N) (coreId : Fin N) : Bool := c.msip coreId

end CLINT
end RiscvEmulator.Interrupt
