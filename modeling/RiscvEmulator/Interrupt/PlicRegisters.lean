import RiscvEmulator.Interrupt.Plic
import RiscvEmulator.Lib.Mutex

/-! # Register accesses of the PLIC

`PLIC::read` and `PLIC::write` with the lock: both hold it while they decode the
address, and `claim` and `complete`, which they call for a claim register, acquire it
again. Logging is left out. -/
namespace RiscvEmulator.Interrupt
open Memory Lib.Mutex

namespace PLIC

def plicBase : BitVec 64 := 0x0C000000
def priorityBase : Nat := 0x000000
def pendingBase : Nat := 0x001000
def enableBase : Nat := 0x002000
def claimCompleteBase : Nat := 0x200000

/-- The registers of the memory map. -/
inductive PlicRegister where
  | priority (sourceId : Nat)
  | pending (wordIndex : Nat)
  | enable (targetId wordIndex : Nat)
  | claimComplete (targetId : Nat)
  | threshold (targetId : Nat)
deriving DecidableEq

/-- The ranges do not overlap for the sizes that the constructor allows; `write` has no
range for the pending words, which comes to the same. -/
def register (p : PLIC) (addr : BitVec 64) : Option PlicRegister :=
  let offset := (addr - plicBase).toNat
  let enableBytes := p.bitmapWords * 4
  if priorityBase ≤ offset ∧ offset < priorityBase + p.numSources * 4 then
    some (.priority ((offset - priorityBase) / 4))
  else if pendingBase ≤ offset ∧ offset < pendingBase + p.bitmapWords * 4 then
    some (.pending ((offset - pendingBase) / 4))
  else if enableBase ≤ offset ∧ offset < enableBase + p.numTargets * enableBytes then
    some (.enable ((offset - enableBase) / enableBytes) ((offset - enableBase) % enableBytes / 4))
  else if claimCompleteBase ≤ offset ∧ offset < claimCompleteBase + p.numTargets * 4 then
    some (.claimComplete ((offset - claimCompleteBase) / 4))
  else if claimCompleteBase + p.numTargets * 4 ≤ offset ∧
      offset < claimCompleteBase + p.numTargets * 8 then
    some (.threshold ((offset - claimCompleteBase - p.numTargets * 4) / 4))
  else none

/-! ## Calls that lock -/

/-- `claim`, which checks the target before it locks. -/
def lockedClaim (targetId : Nat) : Call PLIC Nat := fun s =>
  if s.value.isValidTargetId targetId then withLock (plain (·.claimPending targetId)) s
  else .ok (0, s)

def lockedComplete (targetId sourceId : Nat) : Call PLIC Unit := fun s =>
  if s.value.isValidTargetId targetId && s.value.isValidSourceId sourceId then
    withLock (plain fun p => ((), p.completeClaimed targetId sourceId)) s
  else .ok ((), s)

/-- `size` is only logged. -/
def read (addr : BitVec 64) (_size : Int) : Call PLIC Word := withLock fun s =>
  match s.value.register addr with
  | some (.priority sourceId) =>
    plain (fun p => (if p.isValidSourceId sourceId then p.priorities sourceId else 0, p)) s
  | some (.pending wordIndex) => plain (fun p => (p.pending wordIndex, p)) s
  | some (.enable targetId wordIndex) =>
    plain (fun p => (if p.isValidTargetId targetId && decide (wordIndex < p.bitmapWords) then
      p.enable targetId wordIndex else 0, p)) s
  | some (.claimComplete targetId) =>
    if s.value.isValidTargetId targetId then
      (lockedClaim targetId s).map fun (sourceId, s) => (BitVec.ofNat 32 sourceId, s)
    else .ok (0, s)
  | some (.threshold targetId) =>
    plain (fun p => (if p.isValidTargetId targetId then p.thresholds targetId else 0, p)) s
  | none => .ok (0, s)

/-- Priorities and thresholds are stored as `set_priority` and `set_threshold` store
them, but under the lock of the write. -/
def write (addr : BitVec 64) (value : Word) (_size : Int) : Call PLIC Unit := withLock fun s =>
  match s.value.register addr with
  | some (.priority sourceId) => plain (fun p => ((), p.setPriority sourceId value)) s
  | some (.pending _) => .ok ((), s)
  | some (.enable targetId wordIndex) =>
    plain (fun p => ((), if p.isValidTargetId targetId && decide (wordIndex < p.bitmapWords) then
      { p with
        enable := Function.update p.enable targetId
          (Function.update (p.enable targetId) wordIndex value) } else p)) s
  | some (.claimComplete targetId) =>
    if s.value.isValidTargetId targetId then lockedComplete targetId value.toNat s else .ok ((), s)
  | some (.threshold targetId) => plain (fun p => ((), p.setThreshold targetId value)) s
  | none => .ok ((), s)

/-- The target whose claim register an address is. -/
def claimRegister (p : PLIC) (addr : BitVec 64) : Option Nat :=
  match p.register addr with
  | some (.claimComplete targetId) => some targetId
  | _ => none

/-- The read returns with the lock free; of a claim register it returns, and leaves, what
`claim` does. -/
def ReadReturns (p : PLIC) (addr : BitVec 64) (size : Int) : Prop :=
  ∃ v q, Returns (read addr size) p v q ∧
    ∀ targetId, p.claimRegister addr = some targetId →
      v = BitVec.ofNat 32 (p.claim targetId).1 ∧ q = (p.claim targetId).2

/-- The write returns with the lock free; of a claim register it leaves what `complete`
does. -/
def WriteReturns (p : PLIC) (addr : BitVec 64) (value : Word) (size : Int) : Prop :=
  ∃ q, Returns (write addr value size) p () q ∧
    ∀ targetId, p.claimRegister addr = some targetId → q = p.complete targetId value.toNat

variable {p : PLIC} {addr : BitVec 64} {targetId : Nat}

/-! ## When they return -/

theorem claimRegister_eq_some (h : p.claimRegister addr = some targetId) :
    p.register addr = some (.claimComplete targetId) := by
  unfold claimRegister at h
  split at h
  · next t hr => rw [hr, Option.some.inj h]
  · cases h

/-- Every claim register is that of a target. -/
theorem claimRegister_valid (h : p.claimRegister addr = some targetId) :
    p.isValidTargetId targetId = true := by
  have hr := claimRegister_eq_some h
  unfold register at hr
  simp only at hr
  split at hr
  · cases hr
  split at hr
  · cases hr
  split at hr
  · cases hr
  split at hr
  · next hrange =>
    cases hr
    unfold isValidTargetId
    rw [decide_eq_true_iff]
    omega
  · split at hr <;> cases hr

theorem read_claim_stuck (h : p.claimRegister addr = some targetId) (size : Int) (v : Word)
    (q : PLIC) : ¬ Returns (read addr size) p v q := by
  refine withLock_stuck ?_ v q
  simp only [claimRegister_eq_some h, claimRegister_valid h, if_true, lockedClaim,
    withLock_held, Except.map]

theorem write_claim_stuck {value : Word} (h : p.claimRegister addr = some targetId)
    (hv : p.isValidSourceId value.toNat = true) (size : Int) (q : PLIC) :
    ¬ Returns (write addr value size) p () q := by
  refine withLock_stuck ?_ () q
  simp only [claimRegister_eq_some h, claimRegister_valid h, hv, Bool.and_self, if_true,
    lockedComplete, withLock_held]

/-- A value that is no source completes nothing, before the lock is tried. -/
theorem write_claim_invalid {value : Word} (h : p.claimRegister addr = some targetId)
    (hv : p.isValidSourceId value.toNat = false) (size : Int) :
    Returns (write addr value size) p () p ∧ p.complete targetId value.toNat = p := by
  constructor
  · refine withLock_returns ?_
    simp only [claimRegister_eq_some h, claimRegister_valid h, hv, lockedComplete, Bool.and_false]
    rfl
  · simp [complete, hv]

/-- Any other register is read and written under the one lock. -/
theorem read_other (h : p.claimRegister addr = none) (size : Int) :
    ∃ v, Returns (read addr size) p v p := by
  refine Exists.imp (fun v => withLock_returns) ?_
  cases hr : p.register addr with
  | none => exact ⟨0, rfl⟩
  | some r =>
    cases r with
    | claimComplete t => simp [claimRegister, hr] at h
    | priority _ => exact ⟨_, rfl⟩
    | pending _ => exact ⟨_, rfl⟩
    | enable _ _ => exact ⟨_, rfl⟩
    | threshold _ => exact ⟨_, rfl⟩

theorem write_other (h : p.claimRegister addr = none) (value : Word) (size : Int) :
    ∃ q, Returns (write addr value size) p () q := by
  refine Exists.imp (fun q => withLock_returns) ?_
  cases hr : p.register addr with
  | none => exact ⟨p, rfl⟩
  | some r =>
    cases r with
    | claimComplete t => simp [claimRegister, hr] at h
    | priority _ => exact ⟨_, rfl⟩
    | pending _ => exact ⟨_, rfl⟩
    | enable _ _ => exact ⟨_, rfl⟩
    | threshold _ => exact ⟨_, rfl⟩

/-- `read` and `write`, called with the lock free, return with it free, and a claim
register does what `claim` and `complete` do, except for reads of a claim register and
writes of a valid source id to one: there they get stuck. -/
theorem register_access_iff (p : PLIC) (addr : BitVec 64) (value : Word) (size : Int) :
    (p.ReadReturns addr size ↔ p.claimRegister addr = none) ∧
      (p.WriteReturns addr value size ↔
        p.claimRegister addr = none ∨ p.isValidSourceId value.toNat = false) := by
  cases hc : p.claimRegister addr with
  | none =>
    refine ⟨iff_of_true ?_ rfl, iff_of_true ?_ (.inl rfl)⟩
    · obtain ⟨v, hread⟩ := read_other hc size
      exact ⟨v, p, hread, fun t ht => by simp [hc] at ht⟩
    · obtain ⟨q, hwrite⟩ := write_other hc value size
      exact ⟨q, hwrite, fun t ht => by simp [hc] at ht⟩
  | some t =>
    constructor
    · refine iff_of_false ?_ (by simp)
      rintro ⟨v, q, hread, _⟩
      exact read_claim_stuck hc size v q hread
    · cases hv : p.isValidSourceId value.toNat with
      | true =>
        refine iff_of_false ?_ (by simp)
        rintro ⟨q, hwrite, _⟩
        exact write_claim_stuck hc hv size q hwrite
      | false =>
        refine iff_of_true ?_ (.inr rfl)
        refine ⟨p, (write_claim_invalid hc hv size).1, fun t' ht' => ?_⟩
        exact ((write_claim_invalid ht' hv size).2).symm

/-- The claim register of core 0. -/
theorem claim_register_deadlock : ¬ (PLIC.init 32 4).ReadReturns 0x0C200000 4 := by
  rintro ⟨v, q, hread, _⟩
  exact read_claim_stuck (show (PLIC.init 32 4).claimRegister 0x0C200000 = some 0 by decide) 4 v q
    hread

end PLIC
end RiscvEmulator.Interrupt
