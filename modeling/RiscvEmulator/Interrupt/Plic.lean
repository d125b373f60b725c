import Mathlib.Logic.Function.Basic
import RiscvEmulator.Memory.Word

/-! # The platform level interrupt controller

`PLIC` of `PLIC.cpp`. A core asks it whether a source is pending for it, enabled and
above its threshold; a target claims the best such source and completes it. The
register accesses and the lock are in `PlicRegisters`. -/
namespace RiscvEmulator.Interrupt
open Memory

/-- The vectors are indexed by source, by word of 32 sources and by target. -/
structure PLIC where
  numSources : Nat
  numTargets : Nat
  priorities : Nat → Word
  pending : Nat → Word
  enable : Nat → Nat → Word
  thresholds : Nat → Word
  /-- The source a target has claimed, 0 for none. -/
  claimed : Nat → Nat

namespace PLIC

def maxSources : Nat := 1024
def maxTargets : Nat := 15872

def init (numSources numTargets : Nat) : PLIC where
  numSources := if numSources = 0 ∨ maxSources < numSources then 32 else numSources
  numTargets := if numTargets = 0 ∨ maxTargets < numTargets then 4 else numTargets
  priorities _ := 0
  pending _ := 0
  enable _ _ := 0
  thresholds _ := 0
  claimed _ := 0

/-- Source 0 is reserved. -/
def isValidSourceId (p : PLIC) (sourceId : Nat) : Bool := 0 < sourceId && sourceId < p.numSources

def isValidTargetId (p : PLIC) (targetId : Nat) : Bool := targetId < p.numTargets

/-- The words of the pending and enable bitmaps. -/
def bitmapWords (p : PLIC) : Nat := (p.numSources + 31) / 32

def getPendingBit (p : PLIC) (sourceId : Nat) : Bool :=
  sourceId / 32 < p.bitmapWords && (p.pending (sourceId / 32)).getLsbD (sourceId % 32)

def getEnableBit (p : PLIC) (targetId sourceId : Nat) : Bool :=
  sourceId / 32 < p.bitmapWords && (p.enable targetId (sourceId / 32)).getLsbD (sourceId % 32)

/-- The loop over the sources, with the best source and priority so far. Source
0 is reserved. -/
def findHighestPriorityPending (p : PLIC) (targetId : Nat) : Nat :=
  ((List.range p.numSources).drop 1).foldl (fun (best : Nat × Word) source =>
    if p.getPendingBit source && p.getEnableBit targetId source then
      let priority := p.priorities source
      if p.thresholds targetId < priority && best.2 < priority then (source, priority) else best
    else best) (0, 0) |>.1

def hasPendingInterrupts (p : PLIC) (targetId : Nat) : Bool :=
  targetId < p.numTargets && p.findHighestPriorityPending targetId != 0

theorem init_hasPendingInterrupts (numSources numTargets targetId : Nat) :
    (init numSources numTargets).hasPendingInterrupts targetId = false := by
  have hbit : ∀ source, (init numSources numTargets).getPendingBit source = false :=
    fun source => by simp [getPendingBit, init]
  simp [hasPendingInterrupts, findHighestPriorityPending, hbit]

/-! ## Its calls -/

/-- Set or clear the bit of a source in a word of its bitmap. -/
def updateBit (word : Word) (sourceId : Nat) (value : Bool) : Word :=
  if value then word ||| (1#32 <<< (sourceId % 32)) else word &&& ~~~(1#32 <<< (sourceId % 32))

def updatePendingBit (p : PLIC) (sourceId : Nat) (pending : Bool) : PLIC :=
  if sourceId / 32 < p.bitmapWords then
    { p with
      pending := Function.update p.pending (sourceId / 32)
        (updateBit (p.pending (sourceId / 32)) sourceId pending) }
  else p

def updateEnableBit (p : PLIC) (targetId sourceId : Nat) (enabled : Bool) : PLIC :=
  if sourceId / 32 < p.bitmapWords then
    { p with
      enable := Function.update p.enable targetId (Function.update (p.enable targetId)
        (sourceId / 32) (updateBit (p.enable targetId (sourceId / 32)) sourceId enabled)) }
  else p

def setPending (p : PLIC) (sourceId : Nat) (pending : Bool) : PLIC :=
  if p.isValidSourceId sourceId then p.updatePendingBit sourceId pending else p

def setPriority (p : PLIC) (sourceId : Nat) (priority : Word) : PLIC :=
  if p.isValidSourceId sourceId then
    { p with priorities := Function.update p.priorities sourceId (priority &&& 0x7) }
  else p

def setEnable (p : PLIC) (targetId sourceId : Nat) (enabled : Bool) : PLIC :=
  if p.isValidTargetId targetId && p.isValidSourceId sourceId then
    p.updateEnableBit targetId sourceId enabled
  else p

def setThreshold (p : PLIC) (targetId : Nat) (threshold : Word) : PLIC :=
  if p.isValidTargetId targetId then
    { p with thresholds := Function.update p.thresholds targetId (threshold &&& 0x7) }
  else p

/-- Enter a claim and clear the pending bit of its source. -/
def markClaimed (p : PLIC) (targetId sourceId : Nat) : PLIC :=
  { p with claimed := Function.update p.claimed targetId sourceId }.updatePendingBit sourceId false

/-- What `claim` does under the lock. A target that has claimed a source is told so
again. -/
def claimPending (p : PLIC) (targetId : Nat) : Nat × PLIC :=
  if p.claimed targetId ≠ 0 then (p.claimed targetId, p)
  else
    let sourceId := p.findHighestPriorityPending targetId
    (sourceId, if sourceId ≠ 0 then p.markClaimed targetId sourceId else p)

def claim (p : PLIC) (targetId : Nat) : Nat × PLIC :=
  if p.isValidTargetId targetId then p.claimPending targetId else (0, p)

def claimInterrupt (p : PLIC) (targetId sourceId : Nat) : PLIC :=
  if p.isValidTargetId targetId && p.isValidSourceId sourceId then p.markClaimed targetId sourceId
  else p

/-- What `complete` does under the lock. -/
def completeClaimed (p : PLIC) (targetId sourceId : Nat) : PLIC :=
  if p.claimed targetId = sourceId then
    { p with claimed := Function.update p.claimed targetId 0 }
  else p

def complete (p : PLIC) (targetId sourceId : Nat) : PLIC :=
  if p.isValidTargetId targetId && p.isValidSourceId sourceId then
    p.completeClaimed targetId sourceId
  else p

end PLIC
end RiscvEmulator.Interrupt
