import RiscvEmulator.Lib.Sharing

/-! # Lines with an owner

Private caches over a shared memory that nothing keeps in step, and a program that
does not need it: every line belongs to one cache, or to nobody, and no cache copies
a line of another or stores into one that is not its own. Then every copy is right at
any time. Stores to the lines of `through` go around the cache, so that none of them
is ever modified. -/
namespace RiscvEmulator.Lib.LineCache

variable {ι α L β : Type*}

/-- To whom a word belongs, and whether stores to it go around the cache. Words of
one line are alike. -/
structure Partition (ι : Type*) (line : α → L) where
  owner : α → Option ι
  through : α → Prop
  owner_line : ∀ {x y}, line y = line x → owner y = owner x
  through_line : ∀ {x y}, line y = line x → (through y ↔ through x)

namespace Partition
variable {line : α → L} (P : Partition ι line)

/-- `i` may look at the word. -/
def Readable (i : ι) (x : α) : Prop := P.owner x = none ∨ P.owner x = some i

theorem Readable.line_eq {P : Partition ι line} {i : ι} {x y : α} (h : P.Readable i x)
    (hl : line y = line x) : P.Readable i y := by
  unfold Readable
  rw [P.owner_line hl]
  exact h

/-- The caches have kept to it. -/
structure Kept (S : Shared ι α L β) : Prop where
  held : ∀ i x, ((S.caches i).held x).isSome = true → P.Readable i x
  dirty : ∀ i x, (S.caches i).dirty (line x) = true → P.owner x = some i ∧ ¬P.through x

variable {P} {S : Shared ι α L β} {f : α → β} {i : ι} {x : α} {v : β}

namespace Kept

/-- Nobody has modified a line that belongs to nobody, or that stores go around. -/
theorem unmodified (h : P.Kept S) (hx : P.owner x = none ∨ P.through x) :
    S.Unmodified (line x) := by
  intro j
  cases hd : (S.caches j).dirty (line x) with
  | false => rfl
  | true =>
    obtain ⟨howner, hthrough⟩ := h.dirty j x hd
    rcases hx with hx | hx
    · rw [hx] at howner
      cases howner
    · exact absurd hx hthrough

theorem noOtherDirty (h : P.Kept S) (hr : P.Readable i x) : S.NoOtherDirty line i x := by
  intro j hj
  cases hd : (S.caches j).dirty (line x) with
  | false => rfl
  | true =>
    have howner := (h.dirty j x hd).1
    rcases hr with hr | hr
    · rw [hr] at howner
      cases howner
    · exact absurd (Option.some.inj (howner.symm.trans hr)) hj

theorem mayRead (h : P.Kept S) (hr : P.Readable i x) : S.MayRead line i x :=
  .inr (h.noOtherDirty hr)

theorem noOtherCopy (h : P.Kept S) (hx : P.owner x = some i) : S.NoOtherCopy i x := by
  intro j hj
  cases hc : (S.caches j).held x with
  | none => rfl
  | some w =>
    rcases h.held j x (by simp [hc]) with hr | hr
    · rw [hr] at hx
      cases hx
    · exact absurd (Option.some.inj (hr.symm.trans hx)) hj

/-- The memory is up to date where nobody has modified anything. -/
theorem memory (h : P.Kept S) (hc : S.Coherent line f) (hx : P.owner x = none ∨ P.through x) :
    S.memory x = f x := (hc x).memory (h.unmodified hx)

theorem view (h : P.Kept S) (hc : S.Coherent line f) (hg : (S.caches i).Granular line)
    (hr : P.Readable i x) : (S.seenBy i).view x = f x := hc.view hg (h.mayRead hr)

/-- A store around the cache loses no word of its line. -/
theorem synced (h : P.Kept S) (hc : S.Coherent line f) (hg : (S.caches i).Granular line)
    (hr : P.Readable i x) (hx : P.through x) : (S.seenBy i).Synced line x := by
  intro y hl _
  rw [h.view hc hg (hr.line_eq hl)]
  exact (h.memory hc (.inr ((P.through_line hl).mpr hx))).symm

/-! ## Moves -/

variable [DecidableEq ι]

/-- Cache `i` has moved. -/
theorem set {t : State α L β} (h : P.Kept S)
    (hheld : ∀ y, (t.lines.held y).isSome = true →
      ((S.caches i).held y).isSome = true ∨ P.Readable i y)
    (hdirty : ∀ y, t.lines.dirty (line y) = true →
      (S.caches i).dirty (line y) = true ∨ P.owner y = some i ∧ ¬P.through y) :
    P.Kept (S.set i t) where
  held j y hy := by
    by_cases hj : j = i
    · subst hj
      rw [Shared.set_caches_self] at hy
      exact (hheld y hy).elim (h.held j y) id
    · rw [Shared.set_caches_other hj] at hy
      exact h.held j y hy
  dirty j y hy := by
    by_cases hj : j = i
    · subst hj
      rw [Shared.set_caches_self] at hy
      exact (hdirty y hy).elim (h.dirty j y) id
    · rw [Shared.set_caches_other hj] at hy
      exact h.dirty j y hy

variable [DecidableEq L]

/-- Bringing in a line that `i` may look at. -/
theorem touch {t : State α L β} (h : P.Kept S) (hr : P.Readable i x)
    (ht : Touch line x (S.seenBy i) t) : P.Kept (S.set i t) := by
  refine h.set (fun y hy => ?_) fun y hy => .inl (ht.dirty_le hy)
  obtain ⟨w, hw⟩ := Option.isSome_iff_exists.mp hy
  rcases ht.held_cases hw with ⟨hs, _⟩ | ⟨hl, _⟩
  · exact .inl (Option.isSome_iff_exists.mpr ⟨w, hs⟩)
  · exact .inr (hr.line_eq hl)

variable [DecidableEq α]

/-- A store into an own line that has been brought in. -/
theorem store {t : State α L β} (h : P.Kept S) (hx : P.owner x = some i) (hn : ¬P.through x)
    (ht : Touch line x (S.seenBy i) t) : P.Kept (S.set i (t.store line x v)) := by
  have h' := h.touch (.inr hx) ht
  rw [← Shared.set_set (t := t)]
  refine h'.set (fun y hy => ?_) fun y hy => ?_
  · by_cases hyx : y = x
    · exact .inr (.inr (hyx ▸ hx))
    · refine .inl ?_
      rw [Shared.set_caches_self]
      simpa [State.store, hyx] using hy
  · by_cases hl : line y = line x
    · refine .inr ⟨(P.owner_line hl).trans hx, ?_⟩
      intro hthrough
      exact hn ((P.through_line hl).mp hthrough)
    · refine .inl ?_
      rw [store_dirty, Function.update_of_ne hl] at hy
      rw [Shared.set_caches_self]
      exact hy

/-- A store around the cache. -/
theorem through (h : P.Kept S) : P.Kept (S.set i ((S.seenBy i).through line x v)) := by
  refine h.set (fun y hy => .inl ?_) fun y hy => .inl (through_dirty_le hy)
  simp only [State.through, State.drop, State.storeMemory, Lines.drop] at hy
  split at hy
  · cases hy
  · exact hy

end Kept
end Partition
end RiscvEmulator.Lib.LineCache
