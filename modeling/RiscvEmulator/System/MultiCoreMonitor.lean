import Mathlib.Data.List.FinRange
import RiscvEmulator.Memory.ByteMemory

/-! # The monitor of the cores

`MultiCoreMonitor` holds for each core whether it may execute, and keeps a copy
of these states in memory. -/
namespace RiscvEmulator.System
open Memory

inductive CoreState where
  | halt | running | idle | error
deriving DecidableEq, Repr

def CoreState.toValue : CoreState → Word
  | .halt => 0x01
  | .running => 0x02
  | .idle => 0x03
  | .error => 0xFF

/-- `value_to_core_state`, which nothing calls. -/
def CoreState.ofValue (value : Word) : CoreState :=
  if value = 0x01 then .halt
  else if value = 0x02 then .running
  else if value = 0x03 then .idle
  else .error

structure MultiCoreMonitor (N : Nat) where
  coreStates : Fin N → CoreState
  initializationPhase : Bool

namespace MultiCoreMonitor
variable {N : Nat}

def coreStatesAddr : Nat := 0x90000
def initPhaseAddr : Nat := 0x98004

/-- Core 0 runs, the others are halted until it releases them. -/
def init (N : Nat) : MultiCoreMonitor N where
  coreStates i := if i.val = 0 then .running else .halt
  initializationPhase := true

/-- Core 0 goes on after an error. -/
def shouldCoreExecute (m : MultiCoreMonitor N) (coreId : Fin N) : Bool :=
  match m.coreStates coreId with
  | .running => true
  | .halt | .idle => false
  | .error => coreId.val == 0

def writeCoreStateToMemory {n : Nat} (m : MultiCoreMonitor N) (memory : ByteMemory n)
    (coreId : Fin N) : ByteMemory n :=
  let addr := coreStatesAddr + coreId.val * 4
  if addr + 4 ≤ n then ⟨store32 memory.bytes addr (m.coreStates coreId).toValue⟩ else memory

def writeInitializationPhaseToMemory {n : Nat} (m : MultiCoreMonitor N) (memory : ByteMemory n) :
    ByteMemory n :=
  if initPhaseAddr + 4 ≤ n then
    ⟨store32 memory.bytes initPhaseAddr (if m.initializationPhase then 1 else 0)⟩
  else memory

def writeStateToMemory {n : Nat} (m : MultiCoreMonitor N) (memory : ByteMemory n) :
    ByteMemory n :=
  if coreStatesAddr + N * 4 ≤ n then
    m.writeInitializationPhaseToMemory
      ((List.finRange N).foldl (fun memory i => m.writeCoreStateToMemory memory i) memory)
  else memory

/-! ## What it leaves alone -/

/-- A byte outside the array of states. -/
def OutsideStates (N x : Nat) : Prop := x < coreStatesAddr ∨ coreStatesAddr + 4 * N ≤ x

theorem writeCoreStates_outside {n x : Nat} (m : MultiCoreMonitor N) (l : List (Fin N))
    (memory : ByteMemory n) (hx : OutsideStates N x) :
    (l.foldl (fun memory i => m.writeCoreStateToMemory memory i) memory).bytes x =
      memory.bytes x := by
  induction l generalizing memory with
  | nil => rfl
  | cons i l ih =>
    rw [List.foldl_cons, ih]
    unfold writeCoreStateToMemory
    simp only
    split
    · refine store32_other _ _ _ _ ?_
      unfold OutsideStates at hx
      omega
    · rfl

/-- The monitor writes no state there. -/
structure LeavesAlone (N x : Nat) : Prop where
  states : OutsideStates N x
  phase : x < initPhaseAddr ∨ initPhaseAddr + 4 ≤ x

theorem writeStateToMemory_outside {n x : Nat} (m : MultiCoreMonitor N) (memory : ByteMemory n)
    (h : LeavesAlone N x) : (m.writeStateToMemory memory).bytes x = memory.bytes x := by
  obtain ⟨hx, hphase⟩ := h
  unfold writeStateToMemory
  split
  · unfold writeInitializationPhaseToMemory
    split
    · rw [← writeCoreStates_outside m (List.finRange N) memory hx]
      exact store32_other _ _ _ _ (by omega)
    · exact writeCoreStates_outside m (List.finRange N) memory hx
  · rfl

end MultiCoreMonitor
end RiscvEmulator.System
