import Mathlib.Data.List.FinRange
import Mathlib.Logic.Function.Basic
import RiscvEmulator.Lib.History
import RiscvEmulator.Memory.Word

/-! # The coherence directory

`CacheCoherence` of `Coherence.cpp`: for every address that has been accessed, the
state of each core's copy. Nothing is stored there; the Simulator keeps one and
does not ask it. At most one copy is modified, and then it is the only one; a copy
is valid from the core's access to the next claim of another core, which is what
the hit counters count. -/
namespace RiscvEmulator.Memory
open Lib.History

inductive CoherenceState where
  | invalid | shared | modified
deriving DecidableEq, Repr

structure CoherenceStats where
  readHits : BitVec 64 := 0
  readMisses : BitVec 64 := 0
  writeHits : BitVec 64 := 0
  writeMisses : BitVec 64 := 0
  invalidations : BitVec 64 := 0
  broadcasts : BitVec 64 := 0
deriving DecidableEq, Repr

/-- The vector of states of an address, `none` before its first access. -/
structure CacheCoherence (N : Nat) where
  directory : Word → Option (Fin N → CoherenceState)
  stats : CoherenceStats

inductive DirectoryCall (N : Nat) where
  | handleRead (coreId : Fin N) (address : Word)
  | handleWrite (coreId : Fin N) (address : Word)
  | invalidateOtherCores (coreId : Fin N) (address : Word)
  | broadcastUpdate (coreId : Fin N) (address : Word)
deriving DecidableEq

namespace CacheCoherence
variable {N : Nat}

def init (N : Nat) : CacheCoherence N where
  directory _ := none
  stats := {}

def setStates (c : CacheCoherence N) (address : Word) (states : Fin N → CoherenceState) :
    CacheCoherence N :=
  { c with directory := Function.update c.directory address (some states) }

def mapStats (c : CacheCoherence N) (f : CoherenceStats → CoherenceStats) : CacheCoherence N :=
  { c with stats := f c.stats }

/-- The vector of a first access: `coreId` in `state`, the others invalid. -/
def firstAccess (coreId : Fin N) (state : CoherenceState) : Fin N → CoherenceState :=
  Function.update (fun _ => .invalid) coreId state

/-- What a read miss does to the others. -/
def downgrade (states : Fin N → CoherenceState) (coreId : Fin N) (i : Fin N) : CoherenceState :=
  if i ≠ coreId ∧ states i = .modified then .shared else states i

def handleRead (c : CacheCoherence N) (coreId : Fin N) (address : Word) :
    CoherenceState × CacheCoherence N :=
  match c.directory address with
  | none =>
    (.shared, (c.setStates address (firstAccess coreId .shared)).mapStats fun st =>
      { st with readMisses := st.readMisses + 1 })
  | some states =>
    if states coreId = .invalid then
      (.shared, (c.setStates address
          (Function.update (downgrade states coreId) coreId .shared)).mapStats fun st =>
        { st with readMisses := st.readMisses + 1 })
    else
      (states coreId, c.mapStats fun st => { st with readHits := st.readHits + 1 })

/-- The loop that invalidates the copies of the other cores. -/
def invalidateStates (states : Fin N → CoherenceState) (coreId : Fin N) (i : Fin N) :
    CoherenceState :=
  if i ≠ coreId ∧ states i ≠ .invalid then .invalid else states i

/-- How many copies the loop invalidates. -/
def countInvalidations (states : Fin N → CoherenceState) (coreId : Fin N) : Nat :=
  (List.finRange N).countP fun i => decide (i ≠ coreId ∧ states i ≠ .invalid)

/-- Take the line for `coreId`, from every other core. -/
def takeLine (c : CacheCoherence N) (coreId : Fin N) (address : Word)
    (states : Fin N → CoherenceState) : CacheCoherence N :=
  (c.setStates address
      (Function.update (invalidateStates states coreId) coreId .modified)).mapStats fun st =>
    { st with
      invalidations := st.invalidations + BitVec.ofNat 64 (countInvalidations states coreId) }

def handleWrite (c : CacheCoherence N) (coreId : Fin N) (address : Word) :
    CoherenceState × CacheCoherence N :=
  match c.directory address with
  | none =>
    (.modified, (c.setStates address (firstAccess coreId .modified)).mapStats fun st =>
      { st with writeMisses := st.writeMisses + 1 })
  | some states =>
    match states coreId with
    | .invalid =>
      (.modified, (c.mapStats fun st =>
        { st with writeMisses := st.writeMisses + 1 }).takeLine coreId address states)
    | .shared =>
      (.modified, (c.mapStats fun st =>
        { st with writeHits := st.writeHits + 1 }).takeLine coreId address states)
    | .modified => (.modified, c.mapStats fun st => { st with writeHits := st.writeHits + 1 })

def invalidateOtherCores (c : CacheCoherence N) (coreId : Fin N) (address : Word) :
    CacheCoherence N :=
  match c.directory address with
  | none => c
  | some states => (c.setStates address (invalidateStates states coreId)).mapStats fun st =>
      { st with
        invalidations := st.invalidations + BitVec.ofNat 64 (countInvalidations states coreId) }

def broadcastUpdate (c : CacheCoherence N) (coreId : Fin N) (address : Word) :
    CacheCoherence N :=
  (c.mapStats fun st => { st with broadcasts := st.broadcasts + 1 }).invalidateOtherCores
    coreId address

/-! ## Sequences of calls -/

def call (c : CacheCoherence N) : DirectoryCall N → CacheCoherence N
  | .handleRead i x => (c.handleRead i x).2
  | .handleWrite i x => (c.handleWrite i x).2
  | .invalidateOtherCores i x => c.invalidateOtherCores i x
  | .broadcastUpdate i x => c.broadcastUpdate i x

/-- The directory after the calls, from the constructor on. -/
def afterCalls (N : Nat) (calls : List (DirectoryCall N)) : CacheCoherence N :=
  calls.foldl call (init N)

/-- The state of core `i`'s copy. -/
def stateOf (c : CacheCoherence N) (address : Word) (i : Fin N) : CoherenceState :=
  ((c.directory address).map (· i)).getD .invalid

/-- One of the hit counters moves. -/
def CountsAsHit (c : CacheCoherence N) (a : DirectoryCall N) : Prop :=
  (c.call a).stats.readHits ≠ c.stats.readHits ∨
    (c.call a).stats.writeHits ≠ c.stats.writeHits

instance (c : CacheCoherence N) (a : DirectoryCall N) : Decidable (c.CountsAsHit a) :=
  inferInstanceAs (Decidable (_ ∨ _))

end CacheCoherence

namespace DirectoryCall
variable {N : Nat}

/-- Core `i` reads or writes the address. -/
def Accesses (i : Fin N) (address : Word) (a : DirectoryCall N) : Prop :=
  a = .handleRead i address ∨ a = .handleWrite i address

/-- A core other than `i` claims the address: it writes, invalidates or broadcasts. -/
def Takes (i : Fin N) (address : Word) (a : DirectoryCall N) : Prop :=
  ∃ j, j ≠ i ∧ (a = .handleWrite j address ∨ a = .invalidateOtherCores j address ∨
    a = .broadcastUpdate j address)

def address : DirectoryCall N → Word
  | .handleRead _ x | .handleWrite _ x | .invalidateOtherCores _ x | .broadcastUpdate _ x => x

/-- What a call makes of the states of its address. -/
def onStates (states : Fin N → CoherenceState) : DirectoryCall N → Fin N → CoherenceState
  | .handleRead i _ => if states i = .invalid then
      Function.update (CacheCoherence.downgrade states i) i .shared else states
  | .handleWrite i _ => if states i = .modified then states else
      Function.update (CacheCoherence.invalidateStates states i) i .modified
  | .invalidateOtherCores i _ | .broadcastUpdate i _ => CacheCoherence.invalidateStates states i

end DirectoryCall

namespace CacheCoherence
variable {N : Nat} {c : CacheCoherence N} {x y : Word} {i j : Fin N}
  {states : Fin N → CoherenceState} {a : DirectoryCall N}

/-! ## One address -/

/-- At most one core has a modified copy, and then the others have none. -/
def SingleWriter (states : Fin N → CoherenceState) : Prop :=
  ∀ i, states i = .modified → ∀ j, j ≠ i → states j = .invalid

theorem downgrade_none : downgrade (fun _ => .invalid) i = fun _ => .invalid := by
  funext j
  simp [downgrade]

theorem invalidateStates_none : invalidateStates (fun _ => .invalid) i = fun _ => .invalid := by
  funext j
  simp [invalidateStates]

theorem invalidateStates_other (h : j ≠ i) : invalidateStates states i j = .invalid := by
  unfold invalidateStates
  split
  · rfl
  · next hn => exact not_not.mp fun hj => hn ⟨h, hj⟩

theorem invalidateStates_self : invalidateStates states i i = states i := if_neg fun h => h.1 rfl

theorem downgrade_ne_modified (h : j ≠ i) : downgrade states i j ≠ .modified := by
  unfold downgrade
  split
  · simp
  · next hn => exact fun hj => hn ⟨h, hj⟩

theorem downgrade_invalid_iff : downgrade states i j = .invalid ↔ states j = .invalid := by
  unfold downgrade
  split
  · next h => simp [h.2]
  · rfl

theorem invalidateStates_singleWriter (states : Fin N → CoherenceState) (i : Fin N) :
    SingleWriter (invalidateStates states i) := by
  intro j hj k hk
  by_cases hji : j = i
  · exact invalidateStates_other (hji ▸ hk)
  · rw [invalidateStates_other hji] at hj
    cases hj

theorem SingleWriter.onStates (h : SingleWriter states) (a : DirectoryCall N) :
    SingleWriter (a.onStates states) := by
  cases a with
  | handleRead i x =>
    by_cases hi : states i = .invalid
    · simp only [DirectoryCall.onStates, if_pos hi]
      intro j hj k hk
      by_cases hji : j = i
      · simp [hji] at hj
      · rw [Function.update_of_ne hji] at hj
        exact absurd hj (downgrade_ne_modified hji)
    · simpa only [DirectoryCall.onStates, if_neg hi] using h
  | handleWrite i x =>
    by_cases hi : states i = .modified
    · simpa only [DirectoryCall.onStates, if_pos hi] using h
    · simp only [DirectoryCall.onStates, if_neg hi]
      intro j hj k hk
      by_cases hji : j = i
      · rw [Function.update_of_ne (hji ▸ hk)]
        exact invalidateStates_other (hji ▸ hk)
      · rw [Function.update_of_ne hji, invalidateStates_other hji] at hj
        cases hj
  | invalidateOtherCores i x => exact invalidateStates_singleWriter states i
  | broadcastUpdate i x => exact invalidateStates_singleWriter states i

theorem invalidate_valid_iff : invalidateStates states j i ≠ .invalid ↔
    states i ≠ .invalid ∧ j = i := by
  by_cases hji : i = j
  · subst hji
    rw [invalidateStates_self]
    simp
  · simp [invalidateStates_other hji, Ne.symm hji]

/-- A copy is valid after a call if the call is an access of its core, or it was valid
and the call is no claim of another core. -/
theorem onStates_valid_iff (h : SingleWriter states) (a : DirectoryCall N) :
    a.onStates states i ≠ .invalid ↔
      a.Accesses i a.address ∨ (states i ≠ .invalid ∧ ¬ a.Takes i a.address) := by
  cases a with
  | handleRead j x =>
    have hacc : (DirectoryCall.handleRead j x).Accesses i x ↔ j = i := by
      simp [DirectoryCall.Accesses]
    have htakes : ¬ (DirectoryCall.handleRead j x).Takes i x := by simp [DirectoryCall.Takes]
    by_cases hj : states j = .invalid
    · simp only [DirectoryCall.onStates, if_pos hj, DirectoryCall.address, hacc, htakes]
      by_cases hji : i = j
      · simp [hji]
      · simp [hji, Ne.symm hji, downgrade_invalid_iff]
    · simp only [DirectoryCall.onStates, if_neg hj, DirectoryCall.address, hacc, htakes]
      constructor
      · exact fun hi => .inr ⟨hi, not_false⟩
      · rintro (rfl | hi)
        · exact hj
        · exact hi.1
  | handleWrite j x =>
    have hacc : (DirectoryCall.handleWrite j x).Accesses i x ↔ j = i := by
      simp [DirectoryCall.Accesses]
    have htakes : (DirectoryCall.handleWrite j x).Takes i x ↔ j ≠ i := by
      simp [DirectoryCall.Takes]
    have honly : (DirectoryCall.handleWrite j x).onStates states i ≠ .invalid ↔ j = i := by
      by_cases hj : states j = .modified
      · simp only [DirectoryCall.onStates, if_pos hj]
        constructor
        · exact fun hi => Decidable.byContradiction fun hji => hi (h j hj i (Ne.symm hji))
        · rintro rfl
          simp [hj]
      · simp only [DirectoryCall.onStates, if_neg hj]
        by_cases hji : i = j
        · simp [hji]
        · simp [hji, Ne.symm hji, invalidateStates_other hji]
    rw [honly, DirectoryCall.address, hacc, htakes]
    tauto
  | invalidateOtherCores j x =>
    have hacc : ¬ (DirectoryCall.invalidateOtherCores j x).Accesses i x := by
      simp [DirectoryCall.Accesses]
    have htakes : (DirectoryCall.invalidateOtherCores j x).Takes i x ↔ j ≠ i := by
      simp [DirectoryCall.Takes]
    simp only [DirectoryCall.onStates, DirectoryCall.address, hacc, htakes, invalidate_valid_iff]
    tauto
  | broadcastUpdate j x =>
    have hacc : ¬ (DirectoryCall.broadcastUpdate j x).Accesses i x := by
      simp [DirectoryCall.Accesses]
    have htakes : (DirectoryCall.broadcastUpdate j x).Takes i x ↔ j ≠ i := by
      simp [DirectoryCall.Takes]
    simp only [DirectoryCall.onStates, DirectoryCall.address, hacc, htakes, invalidate_valid_iff]
    tauto

/-! ## All addresses -/

theorem stateOf_setStates :
    (c.setStates x states).stateOf y = if y = x then states else c.stateOf y := by
  funext i
  unfold stateOf setStates
  by_cases h : y = x
  · subst h
    simp
  · simp [h]

theorem stateOf_of_none (h : c.directory x = none) : c.stateOf x = fun _ => .invalid := by
  funext i
  simp [stateOf, h]

theorem stateOf_of_some (h : c.directory x = some states) : c.stateOf x = states := by
  funext i
  simp [stateOf, h]

/-- Setting the states they had. -/
theorem stateOf_same (h : c.stateOf x = states) :
    c.stateOf y = if y = x then states else c.stateOf y := by
  by_cases hy : y = x
  · rw [if_pos hy, hy, h]
  · rw [if_neg hy]

theorem handleRead_stateOf : (c.handleRead i x).2.stateOf y = if y = x then
    (DirectoryCall.handleRead i x).onStates (c.stateOf x) else c.stateOf y := by
  unfold handleRead
  cases h : c.directory x with
  | none =>
    rw [stateOf_of_none h, DirectoryCall.onStates, downgrade_none, if_pos rfl]
    exact stateOf_setStates
  | some states =>
    rw [stateOf_of_some h, DirectoryCall.onStates]
    by_cases hs : states i = .invalid
    · simp only [hs, if_true]
      exact stateOf_setStates
    · simp only [hs, if_false]
      exact stateOf_same (stateOf_of_some h)

theorem handleWrite_stateOf : (c.handleWrite i x).2.stateOf y = if y = x then
    (DirectoryCall.handleWrite i x).onStates (c.stateOf x) else c.stateOf y := by
  have htaken : c.stateOf x i ≠ .modified →
      (DirectoryCall.handleWrite i x).onStates (c.stateOf x) =
        Function.update (invalidateStates (c.stateOf x) i) i .modified := fun h => if_neg h
  unfold handleWrite
  cases h : c.directory x with
  | none =>
    rw [htaken (by simp [stateOf_of_none h]), stateOf_of_none h, invalidateStates_none]
    exact stateOf_setStates
  | some states =>
    have hst := stateOf_of_some h
    rw [hst] at htaken ⊢
    cases hs : states i with
    | invalid =>
      rw [htaken (by simp [hs])]
      simp only [hs]
      exact stateOf_setStates
    | shared =>
      rw [htaken (by simp [hs])]
      simp only [hs]
      exact stateOf_setStates
    | modified =>
      rw [DirectoryCall.onStates, if_pos hs]
      simp only [hs]
      exact stateOf_same hst

theorem invalidateOtherCores_stateOf : (c.invalidateOtherCores i x).stateOf y =
    if y = x then invalidateStates (c.stateOf x) i else c.stateOf y := by
  unfold invalidateOtherCores
  cases h : c.directory x with
  | none =>
    rw [stateOf_of_none h, invalidateStates_none]
    exact stateOf_same (stateOf_of_none h)
  | some states =>
    rw [stateOf_of_some h]
    exact stateOf_setStates

/-- A call works on the states of its address. -/
theorem call_stateOf (c : CacheCoherence N) (a : DirectoryCall N) (y : Word) :
    (c.call a).stateOf y = if y = a.address then a.onStates (c.stateOf y) else c.stateOf y := by
  have hsame : (c.call a).stateOf y =
      if y = a.address then a.onStates (c.stateOf a.address) else c.stateOf y := by
    cases a with
    | handleRead i x => exact handleRead_stateOf
    | handleWrite i x => exact handleWrite_stateOf
    | invalidateOtherCores i x => exact invalidateOtherCores_stateOf
    | broadcastUpdate i x => exact invalidateOtherCores_stateOf (c := c.mapStats _)
  rw [hsame]
  split
  · next h => rw [h]
  · rfl

/-! ## Every run -/

/-- The invariant: one writer at every address. -/
def OneWriter (c : CacheCoherence N) : Prop := ∀ x, SingleWriter (c.stateOf x)

theorem init_oneWriter : (init N).OneWriter := by
  intro x i h
  cases h

theorem OneWriter.call (h : c.OneWriter) (a : DirectoryCall N) : (c.call a).OneWriter := by
  intro y
  rw [call_stateOf]
  split
  · exact (h y).onStates a
  · exact h y

/-- Core `i` has accessed the address, and since then no other core has claimed it. -/
def AccessedSince (i : Fin N) (x : Word) : List (DirectoryCall N) → Prop :=
  Since (DirectoryCall.Accesses i x) (DirectoryCall.Takes i x)

theorem call_valid_iff (h : c.OneWriter) (a : DirectoryCall N) :
    (c.call a).stateOf x i ≠ .invalid ↔
    a.Accesses i x ∨ (c.stateOf x i ≠ .invalid ∧ ¬ a.Takes i x) := by
  rw [call_stateOf]
  by_cases hx : x = a.address
  · rw [if_pos hx, hx]
    exact onStates_valid_iff (h a.address) a
  · rw [if_neg hx]
    have hacc : ¬ a.Accesses i x := by
      rintro (rfl | rfl) <;> exact hx rfl
    have htakes : ¬ a.Takes i x := by
      rintro ⟨j, _, rfl | rfl | rfl⟩ <;> exact hx rfl
    simp [hacc, htakes]

theorem afterCalls_oneWriter (calls : List (DirectoryCall N)) : (afterCalls N calls).OneWriter :=
  List.foldlRecOn calls call init_oneWriter fun _ h a _ => h.call a

theorem afterCalls_valid_iff (calls : List (DirectoryCall N)) :
    (afterCalls N calls).stateOf x i ≠ .invalid ↔ AccessedSince i x calls :=
  foldl_iff_since (S := fun c : CacheCoherence N => c.stateOf x i ≠ .invalid)
    (fun _ a h => OneWriter.call h a) (fun _ a h => call_valid_iff h a) calls init_oneWriter
    fun h => h rfl

/-! ## Hits -/

/-- An access of core `i` counts as a hit if its copy is valid. -/
theorem access_hit_iff (h : a.Accesses i x) :
    c.CountsAsHit a ↔ c.stateOf x i ≠ .invalid := by
  rcases h with rfl | rfl
  · cases hd : c.directory x with
    | none => simp [CountsAsHit, call, handleRead, hd, mapStats, setStates, stateOf]
    | some states =>
      by_cases hs : states i = .invalid
      · simp [CountsAsHit, call, handleRead, hd, hs, mapStats, setStates, stateOf]
      · simp [CountsAsHit, call, handleRead, hd, hs, mapStats, stateOf]
  · cases hd : c.directory x with
    | none => simp [CountsAsHit, call, handleWrite, hd, mapStats, setStates, stateOf]
    | some states =>
      cases hs : states i <;>
        simp [CountsAsHit, call, handleWrite, hd, hs, mapStats, setStates, takeLine, stateOf]

theorem not_hit_of_invalidation (h : ∀ i x, ¬ a.Accesses i x) : ¬ c.CountsAsHit a := by
  have hinv : ∀ (c : CacheCoherence N) i x,
      (c.invalidateOtherCores i x).stats.readHits = c.stats.readHits ∧
        (c.invalidateOtherCores i x).stats.writeHits = c.stats.writeHits := by
    intro c i x
    unfold invalidateOtherCores
    split <;> exact ⟨rfl, rfl⟩
  cases a with
  | handleRead i x => exact absurd (.inl rfl) (h i x)
  | handleWrite i x => exact absurd (.inr rfl) (h i x)
  | invalidateOtherCores i x => simp [CountsAsHit, call, hinv]
  | broadcastUpdate i x => simp [CountsAsHit, call, broadcastUpdate, hinv, mapStats]

/-- After any calls, at every address at most one core has a modified copy, and then
no other core has one; and a call counts as a hit exactly if it is an access of a
core that has accessed the address before, with no claim of another core since. -/
theorem directory_history (calls : List (DirectoryCall N)) :
    (∀ x i, (afterCalls N calls).stateOf x i = .modified →
      ∀ j, j ≠ i → (afterCalls N calls).stateOf x j = .invalid) ∧
    ∀ a, (afterCalls N calls).CountsAsHit a ↔
      ∃ i x, a.Accesses i x ∧ AccessedSince i x calls := by
  refine ⟨afterCalls_oneWriter calls, fun a => ⟨fun hhit => ?_, ?_⟩⟩
  · by_contra hnone
    refine not_hit_of_invalidation (fun i x ha => hnone ⟨i, x, ha, ?_⟩) hhit
    exact (afterCalls_valid_iff calls).mp ((access_hit_iff ha).mp hhit)
  · rintro ⟨i, x, ha, hsince⟩
    exact (access_hit_iff ha).mpr ((afterCalls_valid_iff calls).mpr hsince)

end CacheCoherence
end RiscvEmulator.Memory
