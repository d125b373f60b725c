/-! # A lock that is not reentrant

Calls on a value behind a lock. A call that acquires the lock while it is held never
goes on; with one thread nobody else holds it. -/
namespace RiscvEmulator.Lib.Mutex

/-- The lock and the value behind it. -/
structure Guarded (σ : Type) where
  held : Bool
  value : σ
deriving DecidableEq

inductive Stuck where
  | relock
deriving DecidableEq, Repr

/-- A call that returns, or that gets stuck. -/
abbrev Call (σ α : Type) := Guarded σ → Except Stuck (α × Guarded σ)

variable {σ α : Type}

/-- A body that does not touch the lock. -/
def plain (f : σ → α × σ) : Call σ α := fun s =>
  .ok ((f s.value).1, { s with value := (f s.value).2 })

/-- Acquire the lock, run the body and release it, however the body is left. -/
def withLock (body : Call σ α) : Call σ α := fun s =>
  if s.held then .error .relock
  else (body { s with held := true }).map fun (a, t) => (a, { t with held := false })

/-- The free lock with a value. -/
def free (v : σ) : Guarded σ := ⟨false, v⟩

/-- Called with the lock free, it returns `a` with the lock free and the value `w`. -/
def Returns (call : Call σ α) (v : σ) (a : α) (w : σ) : Prop := call (free v) = .ok (a, free w)

theorem withLock_held {body : Call σ α} {s : Guarded σ} (h : s.held = true) :
    withLock body s = .error .relock := if_pos h

/-- A body that leaves the lock alone returns under it. -/
theorem withLock_returns {body : Call σ α} {v w : σ} {a : α}
    (h : body ⟨true, v⟩ = .ok (a, ⟨true, w⟩)) : Returns (withLock body) v a w := by
  unfold Returns withLock free
  simp [h, Except.map]

/-- A body that acquires the lock again gets stuck. -/
theorem withLock_stuck {body : Call σ α} {v : σ} (h : body ⟨true, v⟩ = .error .relock) (a : α)
    (w : σ) : ¬ Returns (withLock body) v a w := by
  unfold Returns withLock free
  simp [h, Except.map]

end RiscvEmulator.Lib.Mutex
