import RiscvEmulator.System.Step

/-! # Running the simulator

`execute_core_step`, and the loops of `run` and `debug_run` with the release of the
cores. Logging, profiling and the progress messages are left out, and no debugger
is attached. -/
namespace RiscvEmulator.System
open Memory Cores Interrupt

/-- The simulator with what the loops keep between cycles, and the part of the
monitor that watches for the release signal. -/
structure Emulation (N n : Nat) extends Simulator N n where
  releaseSignalDetected : Bool
  releaseSignalCycle : Nat
  releaseProcessed : Bool
  releaseAllCoresCalled : Bool
  globalCycleCount : Nat

namespace Simulator
variable {N n : Nat}

/-! ## One core -/

/-- A jump to its own address. -/
def jumpsToItself (pc instr : Word) : Bool :=
  if instr &&& 0x7f == 0x6f then
    let immJ := ((instr >>> 21) &&& 0x3ff) <<< 1
    let immJ := immJ ||| (((instr >>> 20) &&& 0x1) <<< 11)
    let immJ := immJ ||| (((instr >>> 12) &&& 0xff) <<< 12)
    let immJ := immJ ||| (((instr >>> 31) &&& 0x1) <<< 20)
    let signedImm := if immJ &&& 0x100000 != 0 then immJ ||| 0xffe00000 else immJ
    pc + signedImm == pc
  else false

/-- Whether the turn of core `i` comes to its step: it has not finished, and it has
booted, is core 0 or has been released. -/
def entersStep (s : Simulator N n) (i : Fin N) : Bool :=
  !(s.cores i).hasFinished && ((s.cores i).hasBooted || i.val == 0 || s.coreBootedFlags i)

/-- The check for an infinite loop after the step, with another fetch
(`read_instruction`). -/
def checkInfiniteLoop (s : Simulator N n) (i : Fin N) : Simulator N n :=
  let pc := (s.cores i).pc
  let (instr, s) := s.fetch i pc
  if jumpsToItself pc instr then s.setCore i { s.cores i with hasFinished := true } else s

def executeCoreStep (s : Simulator N n) (i : Fin N) : Except Abort (Simulator N n) :=
  if s.entersStep i then
    ((s.setCore i { s.cores i with hasBooted := true }).step i).map (·.checkInfiniteLoop i)
  else .ok s

/-- One step on each core. -/
def coresStep (s : Simulator N n) : Except Abort (Simulator N n) :=
  (List.finRange N).foldlM executeCoreStep s

def allCoresFinished (s : Simulator N n) : Bool :=
  (List.finRange N).all fun i => (s.cores i).hasFinished

/-! ## Release -/

def releaseSignalAddr : Nat := 0x98000

/-- What `check_release_signal` finds in memory. -/
def releaseSignal (s : Simulator N n) : Bool :=
  decide (releaseSignalAddr + 4 ≤ n) && load32 s.memory.bytes releaseSignalAddr == 0xDEADBEEF

def releaseAllCores (s : Simulator N n) : Simulator N n :=
  { s with
    coreBootedFlags i := if i.val = 0 then s.coreBootedFlags i else true
    cores i := if i.val = 0 then s.cores i else { s.cores i with hasBooted := true } }

def updateTimer (s : Simulator N n) : Simulator N n :=
  { s with clint := s.clint.updateTimer 1 }

/-- Let the halted cores run, and write the states of all of them to memory. -/
def releaseCores (s : Simulator N n) : Simulator N n :=
  let states i := if i.val ≠ 0 ∧ s.multiCoreMonitor.coreStates i = .halt then .running
    else s.multiCoreMonitor.coreStates i
  let monitor := { s.multiCoreMonitor with coreStates := states }
  { s with
    multiCoreMonitor := monitor
    memory := if MultiCoreMonitor.coreStatesAddr + N * 4 ≤ n then
        (List.finRange N).foldl (fun memory i => monitor.writeCoreStateToMemory memory i) s.memory
      else s.memory }

end Simulator

namespace Emulation
variable {N n : Nat}

def checkReleaseSignal (e : Emulation N n) : Bool × Emulation N n :=
  if e.releaseSignal then (true, { e with releaseSignalDetected := true }) else (false, e)

def handleReleaseSignal (e : Emulation N n) (currentCycle : Nat) : Emulation N n :=
  if !e.releaseSignalDetected || e.releaseProcessed then e
  else { e with
    toSimulator := e.releaseCores
    releaseSignalCycle := currentCycle
    releaseProcessed := true }

/-- The release, which both loops make after the cores' steps. -/
def release (e : Emulation N n) (currentCycle : Nat) : Emulation N n :=
  { e with
    toSimulator := e.releaseAllCores
    releaseAllCoresCalled := true }.handleReleaseSignal currentCycle

/-! ## `run` -/

/-- The cycle after the cores' steps, which have led to `s`. -/
def endRunCycle (e : Emulation N n) (currentCycle : Nat) (s : Simulator N n) : Emulation N n :=
  let (signal, e) := { e with toSimulator := s.updateTimer }.checkReleaseSignal
  let e := if signal && !e.releaseAllCoresCalled then e.release currentCycle else e
  { e with
    globalCycleCount := currentCycle + 1
    toSimulator := e.updateTimer }

def runCycle (e : Emulation N n) (currentCycle : Nat) : Except Abort (Emulation N n) :=
  e.coresStep.map (e.endRunCycle currentCycle)

/-- The loop, with the number of cycles still to go. -/
def runLoop (e : Emulation N n) (currentCycle : Nat) : Nat → Except Abort (Emulation N n)
  | 0 => .ok e
  | cycles + 1 => do
    let e ← e.runCycle currentCycle
    if e.allCoresFinished then return e
    else e.runLoop (currentCycle + 1) cycles

def run (e : Emulation N n) (cycles : Word) : Except Abort (Emulation N n) :=
  { e with globalCycleCount := 0 }.runLoop 0 cycles.toNat

/-! ## `debug_run` -/

/-- The release signal is looked at only as long as the cores have not been released. -/
def endDebugCycle (e : Emulation N n) (s : Simulator N n) : Emulation N n :=
  let e := { e with toSimulator := s }
  let e := if !e.releaseAllCoresCalled then
      let (signal, e) := e.checkReleaseSignal
      if signal then e.release 0 else e
    else e
  { e with toSimulator := e.updateTimer }

def debugCycle (e : Emulation N n) : Except Abort (Emulation N n) :=
  e.coresStep.map e.endDebugCycle

def debugLoop (e : Emulation N n) : Nat → Except Abort (Emulation N n)
  | 0 => .ok e
  | steps + 1 =>
    if e.allCoresFinished then .ok e
    else do (← e.debugCycle).debugLoop steps

def debugRun (e : Emulation N n) (steps : Word) : Except Abort (Emulation N n) :=
  e.debugLoop steps.toNat

end Emulation
end RiscvEmulator.System
