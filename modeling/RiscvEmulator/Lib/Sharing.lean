import RiscvEmulator.Lib.LineCache

/-! # Private caches over a shared memory

Several caches copy one memory. Nothing keeps the copies in step: a cache that
modifies a line tells the others nothing. `Coherent` says when the copies are
right all the same, and the rules below under which conditions a move of one
cache keeps it. They ask for one writer or many readers of a line, which is what
a coherence protocol would establish. -/
namespace RiscvEmulator.Lib.LineCache

variable {ι α L β : Type*}

structure Shared (ι α L β : Type*) where
  caches : ι → Lines α L β
  memory : α → β

namespace Shared

/-- One cache over the memory. -/
def seenBy (S : Shared ι α L β) (i : ι) : State α L β := ⟨S.caches i, S.memory⟩

/-- The caches after `i` has moved. -/
def set [DecidableEq ι] (S : Shared ι α L β) (i : ι) (t : State α L β) : Shared ι α L β :=
  ⟨Function.update S.caches i t.lines, t.memory⟩

variable (line : α → L)

/-- All copies of the word are `v`, and so is the memory if no cache has modified
its line. -/
structure Current (S : Shared ι α L β) (x : α) (v : β) : Prop where
  copies : ∀ i w, (S.caches i).held x = some w → w = v
  memory : (∀ i, (S.caches i).dirty (line x) = false) → S.memory x = v

/-- Every word is what `f` says. -/
def Coherent (S : Shared ι α L β) (f : α → β) : Prop := ∀ x, S.Current line x (f x)

/-- Nobody but `i` has modified the line of `x`. -/
def NoOtherDirty (S : Shared ι α L β) (i : ι) (x : α) : Prop :=
  ∀ j, j ≠ i → (S.caches j).dirty (line x) = false

/-- Nobody but `i` has a copy of `x`. -/
def NoOtherCopy (S : Shared ι α L β) (i : ι) (x : α) : Prop :=
  ∀ j, j ≠ i → (S.caches j).held x = none

/-- `i` may look at `x`: it has a copy, or nobody else has modified the line. -/
def MayRead (S : Shared ι α L β) (i : ι) (x : α) : Prop :=
  ((S.caches i).held x).isSome = true ∨ S.NoOtherDirty line i x

variable {line} {S : Shared ι α L β} {f : α → β} {i : ι} {x : α} {v : β}

section
variable [DecidableEq ι]

@[simp] theorem set_caches_self (t : State α L β) : (S.set i t).caches i = t.lines := by
  simp [set]

theorem set_caches_other {j : ι} (h : j ≠ i) (t : State α L β) :
    (S.set i t).caches j = S.caches j := by
  simp [set, h]

@[simp] theorem set_memory (t : State α L β) : (S.set i t).memory = t.memory := rfl

@[simp] theorem seenBy_set (t : State α L β) : (S.set i t).seenBy i = t := by
  simp [seenBy]

@[simp] theorem set_set (t t' : State α L β) : (S.set i t).set i t' = S.set i t' := by
  simp [set]

theorem set_noOtherCopy {t : State α L β} (h : S.NoOtherCopy i x) :
    (S.set i t).NoOtherCopy i x := by
  intro j hj
  rw [set_caches_other hj]
  exact h j hj

end

theorem NoOtherCopy.noOtherDirty (h : S.NoOtherCopy i x)
    (hg : ∀ j, (S.caches j).Granular line) : S.NoOtherDirty line i x := by
  intro j hj
  cases hd : (S.caches j).dirty (line x) with
  | false => rfl
  | true =>
    have := (hg j).dirtyHeld x hd
    simp [h j hj] at this

/-! ## Reading -/

/-- What `i` sees of a word it may look at is right. -/
theorem Current.view (h : S.Current line x v) (hg : (S.caches i).Granular line)
    (hr : S.MayRead line i x) : (S.seenBy i).view x = v := by
  cases hs : (S.caches i).held x with
  | some w => simpa [State.view, seenBy, hs] using h.copies i w hs
  | none =>
    have hno : S.NoOtherDirty line i x := by
      rcases hr with hr | hr
      · simp [hs] at hr
      · exact hr
    have hm := h.memory fun j => by
      by_cases hj : j = i
      · subst hj
        cases hd : (S.caches j).dirty (line x) with
        | false => rfl
        | true =>
          have := hg.dirtyHeld x hd
          simp [hs] at this
      · exact hno j hj
    simpa [State.view, seenBy, hs] using hm

theorem Coherent.view (h : S.Coherent line f) (hg : (S.caches i).Granular line)
    (hr : S.MayRead line i x) : (S.seenBy i).view x = f x :=
  (h x).view hg hr

variable [DecidableEq ι] [DecidableEq L]

/-- Bringing in a line `i` may look at keeps every word what it is. -/
theorem Current.touch {y : α} {t : State α L β} (h : S.Current line y v)
    (hg : (S.caches i).Granular line) (hr : line y = line x → S.MayRead line i x)
    (ht : Touch line x (S.seenBy i) t) : (S.set i t).Current line y v where
  copies j w hw := by
    by_cases hj : j = i
    · subst hj
      rw [set_caches_self] at hw
      rcases ht.held_cases hw with ⟨hs, _⟩ | ⟨hl, hn, rfl, _, _⟩
      · exact h.copies j w hs
      · -- a word just read: nobody has modified the line
        have hy : (S.seenBy j).view y = v := h.view hg (.inr fun k hk => by
          rcases hr hl with hr | hr
          · rw [show (S.caches j).held x = none from hn] at hr
            cases hr
          · rw [hl]; exact hr k hk)
        have hyn : (S.seenBy j).lines.held y = none := by
          cases hs : (S.seenBy j).lines.held y with
          | none => rfl
          | some w =>
            have := hg.whole y x hl (by simpa [seenBy] using congrArg Option.isSome hs)
            simp [show (S.caches j).held x = none from hn] at this
        rwa [State.view, hyn, Option.getD_none] at hy
    · rw [set_caches_other hj] at hw
      exact h.copies j w hw
  memory hclean := by
    have hothers : S.NoOtherDirty line i y := by
      intro j hj
      have := hclean j
      rwa [set_caches_other hj] at this
    have hi := hclean i
    rw [set_caches_self] at hi
    cases hd : (S.caches i).dirty (line y) with
    | true =>
      rw [set_memory, ht.written hg hd hi]
      exact h.view hg (.inr hothers)
    | false =>
      have hall : ∀ j, (S.caches j).dirty (line y) = false := by
        intro j
        by_cases hj : j = i
        · rw [hj, hd]
        · exact hothers j hj
      rcases ht.memory_cases y with hm | ⟨hd', _⟩
      · rw [set_memory, hm]
        exact h.memory hall
      · rw [show (S.seenBy i).lines.dirty (line y) = false from hd] at hd'
        cases hd'

theorem Coherent.touch {t : State α L β} (h : S.Coherent line f)
    (hg : (S.caches i).Granular line) (hr : S.MayRead line i x)
    (ht : Touch line x (S.seenBy i) t) : (S.set i t).Coherent line f :=
  fun y => (h y).touch hg (fun _ => hr) ht

/-! ## Storing -/

omit [DecidableEq L] in
/-- A word nobody else has a copy of is what `i` and the memory have. -/
theorem NoOtherCopy.current {p : Lines α L β} {m : α → β} (ho : S.NoOtherCopy i x)
    (hp : ∀ w, p.held x = some w → w = v) (hm : p.dirty (line x) = false → m x = v) :
    (S.set i ⟨p, m⟩).Current line x v where
  copies j w hw := by
    by_cases hj : j = i
    · subst hj
      rw [set_caches_self] at hw
      exact hp w hw
    · rw [set_caches_other hj, ho j hj] at hw
      cases hw
  memory hall := by
    have := hall i
    rw [set_caches_self] at this
    exact hm this

omit [DecidableEq L] in
/-- A move of `i` that neither changes the word nor unmarks its line. -/
theorem Current.frame {p : Lines α L β} {m : α → β} (h : S.Current line x v)
    (hp : ∀ w, p.held x = some w → (S.caches i).held x = some w) (hm : m x = S.memory x)
    (hd : p.dirty (line x) = false → (S.caches i).dirty (line x) = false) :
    (S.set i ⟨p, m⟩).Current line x v where
  copies j w hw := by
    by_cases hj : j = i
    · subst hj
      rw [set_caches_self] at hw
      exact h.copies j w (hp w hw)
    · rw [set_caches_other hj] at hw
      exact h.copies j w hw
  memory hall := by
    refine hm.trans (h.memory fun j => ?_)
    have := hall j
    by_cases hj : j = i
    · subst hj
      rw [set_caches_self] at this
      exact hd this
    · rwa [set_caches_other hj] at this

variable [DecidableEq α]

/-- A store into a held line nobody else has a copy of. -/
theorem NoOtherCopy.store (ho : S.NoOtherCopy i x) :
    (S.set i ((S.seenBy i).store line x v)).Current line x v :=
  ho.current (fun w hw => by simpa [eq_comm] using hw) fun hd => by simp at hd

omit [DecidableEq L] in
/-- A store that also reaches the memory. -/
theorem NoOtherCopy.storeBoth (ho : S.NoOtherCopy i x) :
    (S.set i ((S.seenBy i).storeBoth x v)).Current line x v :=
  ho.current (fun w hw => by simpa [eq_comm] using hw) fun _ => by simp

/-- A store around the cache. -/
theorem NoOtherCopy.through (ho : S.NoOtherCopy i x) :
    (S.set i ((S.seenBy i).through line x v)).Current line x v :=
  ho.current (fun w hw => by simp [State.storeMemory, Lines.drop] at hw)
    fun _ => by simp [State.storeMemory]

theorem Coherent.store (h : S.Coherent line f) (ho : S.NoOtherCopy i x) :
    (S.set i ((S.seenBy i).store line x v)).Coherent line (Function.update f x v) := by
  intro y
  by_cases hy : y = x
  · subst hy
    rw [Function.update_self]
    exact ho.store
  · rw [Function.update_of_ne hy]
    refine (h y).frame (fun w hw => ?_) rfl fun hd => ?_
    · simpa [seenBy, hy] using hw
    · by_cases hl : line y = line x <;> simp_all [seenBy]

omit [DecidableEq L] in
theorem Coherent.storeBoth (h : S.Coherent line f) (ho : S.NoOtherCopy i x) :
    (S.set i ((S.seenBy i).storeBoth x v)).Coherent line (Function.update f x v) := by
  intro y
  by_cases hy : y = x
  · subst hy
    rw [Function.update_self]
    exact ho.storeBoth
  · rw [Function.update_of_ne hy]
    refine (h y).frame (fun w hw => ?_) (Function.update_of_ne hy ..) id
    simpa [seenBy, hy] using hw

/-- A store around the cache, if no other word of the line is lost with it. -/
theorem Coherent.through (h : S.Coherent line f) (hg : ∀ j, (S.caches j).Granular line)
    (ho : S.NoOtherCopy i x) (hs : (S.seenBy i).Synced line x) :
    (S.set i ((S.seenBy i).through line x v)).Coherent line (Function.update f x v) := by
  intro y
  by_cases hy : y = x
  · subst hy
    rw [Function.update_self]
    exact ho.through
  · rw [Function.update_of_ne hy]
    have hm : ((S.seenBy i).through line x v).memory y = S.memory y :=
      Function.update_of_ne hy ..
    by_cases hl : line y = line x
    · -- the own copy is dropped; the memory has the word already
      have hno : S.NoOtherDirty line i y := by
        intro j hj
        rw [hl]
        exact ho.noOtherDirty hg j hj
      constructor
      · intro j w hw
        by_cases hj : j = i
        · subst hj
          rw [set_caches_self] at hw
          simp [State.through, State.drop, State.storeMemory, Lines.drop, hl] at hw
        · rw [set_caches_other hj] at hw
          exact (h y).copies j w hw
      · intro _
        rw [set_memory, hm]
        exact (hs y hl hy).symm.trans (h.view (hg i) (.inr hno))
    · refine (h y).frame (fun w hw => ?_) hm fun hd => ?_
      · simpa [State.through, State.drop, State.storeMemory, Lines.drop, seenBy, hl] using hw
      · simpa [State.through, State.drop, State.storeMemory, Lines.drop, seenBy, hl] using hd

/-! ## Lines nobody has modified -/

omit [DecidableEq ι] [DecidableEq L] [DecidableEq α] in
/-- No cache has modified the line: the memory alone decides its words. -/
def Unmodified (S : Shared ι α L β) (l : L) : Prop := ∀ i, (S.caches i).dirty l = false

omit [DecidableEq L] [DecidableEq α] in
theorem Unmodified.set {l : L} {t : State α L β} (h : S.Unmodified l)
    (ht : t.lines.dirty l = true → (S.caches i).dirty l = true) : (S.set i t).Unmodified l := by
  intro j
  by_cases hj : j = i
  · subst hj
    rw [set_caches_self]
    cases hd : t.lines.dirty l with
    | false => rfl
    | true => rw [← ht hd, h j]
  · rw [set_caches_other hj]
    exact h j

omit [DecidableEq α] in
/-- Moving lines does not change the words of such a line. -/
theorem Unmodified.touch {l : L} {t : State α L β} (h : S.Unmodified l)
    (ht : Touch line x (S.seenBy i) t) :
    (S.set i t).Unmodified l ∧ ∀ y, line y = l → t.memory y = S.memory y := by
  refine ⟨h.set ht.dirty_le, ?_⟩
  intro y hy
  rcases ht.memory_cases y with hm | ⟨hd, _⟩
  · exact hm
  · rw [hy, show (S.seenBy i).lines.dirty l = false from h i] at hd
    cases hd

/-- Nor does a store to another line, after it has been brought in. -/
theorem Unmodified.store {l : L} {t : State α L β} (h : S.Unmodified l)
    (ht : Touch line x (S.seenBy i) t) (hx : line x ≠ l) :
    (S.set i (t.store line x v)).Unmodified l ∧
      ∀ y, line y = l → (t.store line x v).memory y = S.memory y := by
  refine ⟨h.set fun hd => ht.dirty_le ?_, (h.touch ht).2⟩
  rwa [store_dirty, Function.update_of_ne (Ne.symm hx)] at hd

/-- A store around the cache changes the one word it names. -/
theorem Unmodified.through {l : L} (h : S.Unmodified l) :
    (S.set i ((S.seenBy i).through line x v)).Unmodified l :=
  h.set through_dirty_le

end Shared
end RiscvEmulator.Lib.LineCache
