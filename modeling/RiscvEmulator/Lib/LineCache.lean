import Mathlib.Logic.Function.Basic

/-! # A write-back cache of whole lines over a flat memory

What a cache is for, with its ways, tags and replacement order forgotten: a
partial copy of a memory `α → β`, taken and given back one line at a time, plus
a dirty mark per line. `line` says to which line an address belongs. Which line
is evicted is left open; every result holds for any choice.

The *view* of an address is its copy where there is one and the memory word
otherwise. Moving lines in and out (`Touch`) never changes the view of a
consistent state; stores change it at one address only. -/
namespace RiscvEmulator.Lib.LineCache

variable {α L β : Type*}

/-- The copies a cache holds, word by word, and the lines it has modified. -/
@[ext] structure Lines (α L β : Type*) where
  held : α → Option β
  dirty : L → Bool

/-- A cache over the memory it copies. -/
@[ext] structure State (α L β : Type*) where
  lines : Lines α L β
  memory : α → β

/-- Nothing cached. -/
def Lines.empty : Lines α L β := ⟨fun _ => none, fun _ => false⟩

/-- What a reader of the cache sees. -/
def State.view (s : State α L β) (x : α) : β := (s.lines.held x).getD (s.memory x)

variable (line : α → L)

/-- Whole lines are held, and only held lines are dirty. -/
structure Lines.Granular (p : Lines α L β) : Prop where
  whole : ∀ x y, line x = line y → (p.held x).isSome = true → (p.held y).isSome = true
  dirtyHeld : ∀ x, p.dirty (line x) = true → (p.held x).isSome = true

/-- A line that is not dirty agrees with the memory. -/
def State.Clean (s : State α L β) : Prop :=
  ∀ x v, s.lines.held x = some v → s.lines.dirty (line x) = false → s.memory x = v

/-- The memory has what the reader sees of the line of `x`, except perhaps `x`. -/
def State.Synced (s : State α L β) (x : α) : Prop :=
  ∀ y, line y = line x → y ≠ x → s.view y = s.memory y

variable [DecidableEq L]

/-- Forget a line, modified or not. -/
def Lines.drop (p : Lines α L β) (l : L) : Lines α L β where
  held x := if line x = l then none else p.held x
  dirty := Function.update p.dirty l false

/-- Copy a line from `m`. -/
def Lines.fill (p : Lines α L β) (m : α → β) (l : L) : Lines α L β where
  held x := if line x = l then some (m x) else p.held x
  dirty := Function.update p.dirty l false

/-- The memory after a modified line is written back; unchanged for a clean one. -/
def Lines.writeBack (p : Lines α L β) (m : α → β) (l : L) (x : α) : β :=
  if line x = l ∧ p.dirty l = true then (p.held x).getD (m x) else m x

/-- Write a line back if it is modified, and forget it. -/
def State.evict (s : State α L β) (l : L) : State α L β where
  lines := s.lines.drop line l
  memory := s.lines.writeBack line s.memory l

def State.fill (s : State α L β) (l : L) : State α L β :=
  { s with lines := s.lines.fill line s.memory l }

def State.drop (s : State α L β) (l : L) : State α L β :=
  { s with lines := s.lines.drop line l }

/-- Write a line back if it is modified, and keep it. -/
def State.flush (s : State α L β) (l : L) : State α L β where
  lines := { s.lines with dirty := Function.update s.lines.dirty l false }
  memory := s.lines.writeBack line s.memory l

omit [DecidableEq L] in
/-- Write the modified lines of a kind back, and keep them. -/
def State.flushAll (s : State α L β) (P : L → Bool) : State α L β where
  lines := { s.lines with dirty := fun l => s.lines.dirty l && !P l }
  memory x := if s.lines.dirty (line x) && P (line x) then s.view x else s.memory x

variable [DecidableEq α]

/-- Store into a held line and mark it modified. -/
def State.store (s : State α L β) (x : α) (v : β) : State α L β :=
  { s with lines := ⟨Function.update s.lines.held x (some v),
      Function.update s.lines.dirty (line x) true⟩ }

/-- Store into the memory only. -/
def State.storeMemory (s : State α L β) (x : α) (v : β) : State α L β :=
  { s with memory := Function.update s.memory x v }

/-- Store into a held line and into the memory; the line's mark stays. -/
def State.storeBoth (s : State α L β) (x : α) (v : β) : State α L β where
  lines := { s.lines with held := Function.update s.lines.held x (some v) }
  memory := Function.update s.memory x v

/-- Store into the memory, around the cache, and forget the line of the word. -/
def State.through (s : State α L β) (x : α) (v : β) : State α L β :=
  (s.storeMemory x v).drop line (line x)

omit [DecidableEq α]

/-- Bring the line of `x` in: nothing to do on a hit; on a miss the line is
filled, after at most one other line has been evicted. -/
inductive Touch (x : α) (s : State α L β) : State α L β → Prop
  | hit : (s.lines.held x).isSome = true → Touch x s s
  | fill : s.lines.held x = none → Touch x s (s.fill line (line x))
  | replace (victim : L) : s.lines.held x = none → victim ≠ line x →
      Touch x s ((s.evict line victim).fill line (line x))

/-! ## Moving lines -/

variable {line} {s t : State α L β} {x : α}

theorem evict_memory_other {l : L} {y : α} (h : line y ≠ l) :
    (s.evict line l).memory y = s.memory y := by
  simp [State.evict, Lines.writeBack, h]

/-- What `Touch` leaves in the line it was asked for. -/
theorem Touch.held_self (h : Touch line x s t) : t.lines.held x = some (s.view x) := by
  cases h with
  | hit hs =>
    obtain ⟨v, hv⟩ := Option.isSome_iff_exists.mp hs
    simp [State.view, hv]
  | fill hn => simp [State.fill, Lines.fill, State.view, hn]
  | replace l hn hl =>
    simp only [State.fill, Lines.fill, if_true, State.view, hn, Option.getD_none]
    rw [evict_memory_other (Ne.symm hl)]

/-- A line just brought in is not brought in again. -/
theorem Touch.again {u : State α L β} (h : Touch line x s t) (h' : Touch line x t u) : u = t := by
  have hx := h.held_self
  cases h' with
  | hit _ => rfl
  | fill hn => rw [hx] at hn; cases hn
  | replace l hn _ => rw [hx] at hn; cases hn

/-- A copy after `Touch` was there before, with the same mark, or has just been
read from the memory. -/
theorem Touch.held_cases (h : Touch line x s t) {y : α} {v : β}
    (hy : t.lines.held y = some v) :
    (s.lines.held y = some v ∧ t.lines.dirty (line y) = s.lines.dirty (line y)) ∨
      (line y = line x ∧ s.lines.held x = none ∧ v = s.memory y ∧ t.memory y = s.memory y ∧
        t.lines.dirty (line y) = false) := by
  cases h with
  | hit _ => exact .inl ⟨hy, rfl⟩
  | fill hn =>
    by_cases hl : line y = line x
    · simp only [State.fill, Lines.fill, hl, if_true, Option.some.injEq] at hy
      exact .inr ⟨hl, hn, hy.symm, rfl, by simp [State.fill, Lines.fill, hl]⟩
    · simp only [State.fill, Lines.fill, hl, if_false] at hy
      exact .inl ⟨hy, by simp [State.fill, Lines.fill, hl]⟩
  | replace l hn hne =>
    by_cases hl : line y = line x
    · have hm : (s.evict line l).memory y = s.memory y :=
        evict_memory_other (by rw [hl]; exact Ne.symm hne)
      simp only [State.fill, Lines.fill, hl, if_true, Option.some.injEq] at hy
      refine .inr ⟨hl, hn, by rw [← hy, hm], hm, by simp [State.fill, Lines.fill, hl]⟩
    · simp only [State.fill, State.evict, Lines.fill, Lines.drop, hl, if_false] at hy
      split at hy
      · cases hy
      · rename_i hv
        exact .inl ⟨hy, by simp [State.fill, State.evict, Lines.fill, Lines.drop, hl, hv]⟩

/-- `Touch` changes the memory only at words of a modified line, which gets its
own copies and is no longer held. -/
theorem Touch.memory_cases (h : Touch line x s t) (y : α) :
    t.memory y = s.memory y ∨
      (s.lines.dirty (line y) = true ∧ t.memory y = s.view y ∧ t.lines.held y = none ∧
        t.lines.dirty (line y) = false) := by
  cases h with
  | hit _ => exact .inl rfl
  | fill _ => exact .inl rfl
  | replace l hn hne =>
    by_cases hl : line y = l
    · cases hd : s.lines.dirty l with
      | false => left; simp [State.fill, State.evict, Lines.writeBack, hl, hd]
      | true =>
        right
        refine ⟨hl ▸ hd, ?_, ?_, ?_⟩
        · simp [State.fill, State.evict, Lines.writeBack, hl, hd, State.view]
        · simp [State.fill, State.evict, Lines.fill, Lines.drop, hl, hne]
        · simp [State.fill, State.evict, Lines.fill, Lines.drop, hl, hne]
    · exact .inl (evict_memory_other hl)

/-- The word it was asked for is as it was for the reader. -/
theorem Touch.view_self (h : Touch line x s t) : t.view x = s.view x := by
  unfold State.view
  rw [h.held_self]
  rfl

/-- The line it was asked for is as it was in the memory. -/
theorem Touch.memory_line (h : Touch line x s t) {y : α} (hy : line y = line x) :
    t.memory y = s.memory y := by
  cases h with
  | hit _ => rfl
  | fill _ => rfl
  | replace l _ hne => exact evict_memory_other (hy ▸ Ne.symm hne)

theorem Touch.memory_self (h : Touch line x s t) : t.memory x = s.memory x := h.memory_line rfl

/-- `Touch` marks no line as modified. -/
theorem Touch.dirty_le (h : Touch line x s t) {l : L} (hd : t.lines.dirty l = true) :
    s.lines.dirty l = true := by
  cases h with
  | hit _ => exact hd
  | fill _ =>
    by_cases hl : l = line x
    · simp [State.fill, Lines.fill, hl] at hd
    · simpa [State.fill, Lines.fill, hl] using hd
  | replace v _ _ =>
    by_cases hl : l = line x
    · simp [State.fill, Lines.fill, hl] at hd
    · by_cases hv : l = v
      · subst hv
        simp [State.fill, State.evict, Lines.fill, Lines.drop, hl] at hd
      · simpa [State.fill, State.evict, Lines.fill, Lines.drop, hl, hv] using hd

/-- A modified line that is not marked any more has been written back. -/
theorem Touch.written (h : Touch line x s t) (hg : s.lines.Granular line) {y : α}
    (hs : s.lines.dirty (line y) = true) (ht : t.lines.dirty (line y) = false) :
    t.memory y = s.view y := by
  have hx : s.lines.held x = none → line y ≠ line x := by
    intro hn hl
    have := hg.dirtyHeld x (hl ▸ hs)
    simp [hn] at this
  cases h with
  | hit _ => rw [hs] at ht; cases ht
  | fill hn =>
    simp [State.fill, Lines.fill, hx hn, hs] at ht
  | replace l hn hne =>
    by_cases hl : line y = l
    · simp [State.fill, State.evict, Lines.writeBack, hl, hl ▸ hs, State.view]
    · simp [State.fill, State.evict, Lines.fill, Lines.drop, hx hn, hl, hs] at ht

/-- Dropping a line that is not held. -/
theorem drop_of_not_held {p : Lines α L β} (h : p.Granular line) (hx : p.held x = none) :
    p.drop line (line x) = p := by
  refine Lines.ext (funext fun y => ?_) (funext fun l => ?_)
  · simp only [Lines.drop]
    split
    · rename_i hl
      cases hy : p.held y with
      | none => rfl
      | some v =>
        have := h.whole y x hl (by simp [hy])
        simp [hx] at this
    · rfl
  · simp only [Lines.drop, Function.update_apply]
    split
    · rename_i hl
      cases hd : p.dirty l with
      | false => rfl
      | true =>
        have := h.dirtyHeld x (hl ▸ hd)
        simp [hx] at this
    · rfl

theorem Touch.clean (h : Touch line x s t) (hc : s.Clean line) : t.Clean line := by
  intro y v hy hd
  have hm : s.memory y = v → t.memory y = v := by
    intro hv
    rcases h.memory_cases y with hm | ⟨_, _, hn, _⟩
    · exact hm.trans hv
    · rw [hn] at hy; cases hy
  rcases h.held_cases hy with ⟨hs, he⟩ | ⟨_, _, rfl, _, _⟩
  · exact hm (hc y v hs (he ▸ hd))
  · exact hm rfl

/-- Where no copy is left, the memory has what the reader saw before. -/
theorem Touch.memory_unheld (h : Touch line x s t) (hc : s.Clean line) {y : α}
    (hy : t.lines.held y = none) : t.memory y = s.view y := by
  cases h with
  | hit _ => simp [State.view, hy]
  | fill _ =>
    by_cases hl : line y = line x
    · simp [State.fill, Lines.fill, hl] at hy
    · simp only [State.fill, Lines.fill, hl, if_false] at hy ⊢
      simp [State.view, hy]
  | replace l _ _ =>
    by_cases hl : line y = line x
    · simp [State.fill, Lines.fill, hl] at hy
    · simp only [State.fill, State.evict, Lines.fill, Lines.drop, hl, if_false] at hy ⊢
      by_cases hv : line y = l
      · cases hd : s.lines.dirty l with
        | true => simp [Lines.writeBack, hv, hd, State.view]
        | false =>
          cases hs : s.lines.held y with
          | none => simp [Lines.writeBack, hv, hd, State.view, hs]
          | some w => simp [Lines.writeBack, hv, hd, State.view, hs, hc y w hs (hv ▸ hd)]
      · simp only [hv, if_false] at hy
        simp [Lines.writeBack, hv, State.view, hy]

/-- Moving lines of a consistent cache shows nothing to its reader. -/
theorem Touch.view (h : Touch line x s t) (hg : s.lines.Granular line) (hc : s.Clean line) :
    t.view = s.view := by
  funext y
  cases ht : t.lines.held y with
  | none => simpa [State.view, ht] using h.memory_unheld hc ht
  | some v =>
    rcases h.held_cases ht with ⟨hs, _⟩ | ⟨hl, hn, hv, _, _⟩
    · simp [State.view, ht, hs]
    · have hs : s.lines.held y = none := by
        cases hs : s.lines.held y with
        | none => rfl
        | some w =>
          have := hg.whole y x hl (by simp [hs])
          simp [hn] at this
      simp [State.view, ht, hs, hv]

/-! ## Flushing -/

theorem flush_of_not_dirty {l : L} (h : s.lines.dirty l = false) : s.flush line l = s := by
  refine State.ext (Lines.ext rfl ?_) (funext fun y => ?_)
  · simp only [State.flush, ← h, Function.update_eq_self]
  · simp [State.flush, Lines.writeBack, h]

/-- What is written back is what the reader saw. -/
theorem flush_memory (hg : s.lines.Granular line) {l : L} {y : α} (hl : line y = l)
    (hd : s.lines.dirty l = true) : (s.flush line l).memory y = s.view y := by
  subst hl
  obtain ⟨v, hv⟩ := Option.isSome_iff_exists.mp (hg.dirtyHeld y hd)
  simp [State.flush, Lines.writeBack, State.view, hd, hv]

theorem flush_memory_other {l : L} {y : α} (h : line y ≠ l) :
    (s.flush line l).memory y = s.memory y := if_neg fun h' => h h'.1

theorem flush_view (hg : s.lines.Granular line) (l : L) : (s.flush line l).view = s.view := by
  cases hd : s.lines.dirty l with
  | false => rw [flush_of_not_dirty hd]
  | true =>
    funext y
    by_cases hl : line y = l
    · obtain ⟨v, hv⟩ := Option.isSome_iff_exists.mp (hg.dirtyHeld y (hl ▸ hd))
      simp [State.flush, State.view, hv]
    · have hm := flush_memory_other (s := s) hl
      unfold State.view
      rw [hm]
      rfl

theorem flush_clean (hg : s.lines.Granular line) (hc : s.Clean line) (l : L) :
    (s.flush line l).Clean line := by
  cases hd : s.lines.dirty l with
  | false => rwa [flush_of_not_dirty hd]
  | true =>
    intro y v hv hclean
    by_cases hl : line y = l
    · rw [flush_memory hg hl hd]
      change s.lines.held y = some v at hv
      rw [State.view, hv]
      rfl
    · rw [flush_memory_other hl]
      refine hc y v hv ?_
      simpa [State.flush, hl] using hclean

/-! ## Flushing many lines -/

variable {P Q : L → Bool}

omit [DecidableEq L] in
theorem flushAll_congr (h : ∀ l, s.lines.dirty l = true → P l = Q l) :
    s.flushAll line P = s.flushAll line Q := by
  have hand : ∀ l, (s.lines.dirty l && P l) = (s.lines.dirty l && Q l) := by
    intro l
    cases hd : s.lines.dirty l with
    | false => rfl
    | true => rw [h l hd]
  have hnot : ∀ l, (s.lines.dirty l && !P l) = (s.lines.dirty l && !Q l) := by
    intro l
    cases hd : s.lines.dirty l with
    | false => rfl
    | true => rw [h l hd]
  refine State.ext (Lines.ext rfl (funext hnot)) (funext fun x => ?_)
  simp only [State.flushAll, hand]

omit [DecidableEq L] in
theorem flushAll_none : s.flushAll line (fun _ => false) = s :=
  State.ext (Lines.ext rfl (funext fun _ => Bool.and_true _)) (funext fun x => by
    simp [State.flushAll])

theorem flush_eq_flushAll (hg : s.lines.Granular line) (l : L) :
    s.flush line l = s.flushAll line fun l' => decide (l' = l) := by
  refine State.ext (Lines.ext rfl (funext fun l' => ?_)) (funext fun x => ?_)
  · by_cases hl : l' = l <;> simp [State.flush, State.flushAll, hl]
  · by_cases hl : line x = l
    · cases hd : s.lines.dirty l with
      | false =>
        rw [flush_of_not_dirty hd]
        simp [State.flushAll, hl, hd]
      | true =>
        rw [flush_memory hg hl hd]
        simp [State.flushAll, hl, hd]
    · rw [flush_memory_other hl]
      simp [State.flushAll, hl]

omit [DecidableEq L] in
theorem flushAll_view (hg : s.lines.Granular line) : (s.flushAll line P).view = s.view := by
  funext x
  cases hx : s.lines.held x with
  | some v => simp [State.flushAll, State.view, hx]
  | none =>
    have hclean : s.lines.dirty (line x) = false := by
      by_contra hd
      have := hg.dirtyHeld x (Bool.not_eq_false _ ▸ hd)
      rw [hx] at this
      cases this
    simp [State.flushAll, State.view, hx, hclean]

omit [DecidableEq L] in
theorem flushAll_flushAll (hg : s.lines.Granular line) :
    (s.flushAll line P).flushAll line Q = s.flushAll line fun l => P l || Q l := by
  have hview := flushAll_view (P := P) hg
  refine State.ext (Lines.ext rfl (funext fun l => ?_)) (funext fun x => ?_)
  · simp [State.flushAll, Bool.and_assoc]
  · show (if (s.lines.dirty (line x) && !P (line x)) && Q (line x) then
      (s.flushAll line P).view x else (s.flushAll line P).memory x) = _
    rw [hview]
    cases hd : s.lines.dirty (line x) <;> cases hp : P (line x) <;>
      simp [State.flushAll, hd, hp]

omit [DecidableEq L] in
theorem flushAll_clean (hc : s.Clean line) : (s.flushAll line P).Clean line := by
  intro x v hx hclean
  change s.lines.held x = some v at hx
  change (s.lines.dirty (line x) && !P (line x)) = false at hclean
  show (if s.lines.dirty (line x) && P (line x) then s.view x else s.memory x) = v
  split
  · rw [State.view, hx]
    rfl
  · next hkept =>
    refine hc x v hx ?_
    cases hd : s.lines.dirty (line x) with
    | false => rfl
    | true => cases hp : P (line x) <;> simp [hd, hp] at hclean hkept

/-! ## Stores -/

variable {v : β}

section
variable [DecidableEq α]

/-- What was set in a line is lost when the line is dropped. -/
theorem drop_update {p : Lines α L β} (b : Bool) :
    (⟨Function.update p.held x (some v), Function.update p.dirty (line x) b⟩ :
      Lines α L β).drop line (line x) = p.drop line (line x) := by
  refine Lines.ext (funext fun y => ?_) (by simp [Lines.drop])
  by_cases hl : line y = line x
  · simp [Lines.drop, hl]
  · have hy : y ≠ x := fun he => hl (he ▸ rfl)
    simp [Lines.drop, hl, hy]

theorem store_dirty (l : L) : (s.store line x v).lines.dirty l =
    Function.update s.lines.dirty (line x) true l := rfl

theorem store_clean (hc : s.Clean line) : (s.store line x v).Clean line := by
  intro y w hy hd
  simp only [State.store, Function.update_apply] at hy hd ⊢
  split at hd
  · cases hd
  · rename_i hl
    have hyx : y ≠ x := fun he => hl (he ▸ rfl)
    rw [if_neg hyx] at hy
    exact hc y w hy hd

theorem store_view : (s.store line x v).view = Function.update s.view x v := by
  funext y
  by_cases hy : y = x
  · subst hy; simp [State.view, State.store]
  · simp [State.view, State.store, hy]

omit [DecidableEq L] in
theorem storeBoth_clean (hc : s.Clean line) : (s.storeBoth x v).Clean line := by
  intro y w hy hd
  by_cases hyx : y = x
  · subst hyx; simpa [State.storeBoth] using hy
  · simp only [State.storeBoth, Function.update_of_ne hyx] at hy hd ⊢
    exact hc y w hy hd

omit [DecidableEq L] in
theorem storeBoth_view : (s.storeBoth x v).view = Function.update s.view x v := by
  funext y
  by_cases hy : y = x
  · subst hy; simp [State.view, State.storeBoth]
  · simp [State.view, State.storeBoth, hy]

/-! ## Stores around the cache -/

theorem through_memory (y : α) :
    (s.through line x v).memory y = Function.update s.memory x v y := rfl

theorem through_clean (hc : s.Clean line) : (s.through line x v).Clean line := by
  intro y w hy hd
  simp only [State.through, State.drop, State.storeMemory, Lines.drop] at hy hd ⊢
  split at hy
  · cases hy
  · rename_i hl
    have hyx : y ≠ x := fun he => hl (he ▸ rfl)
    rw [Function.update_of_ne hyx]
    exact hc y w hy (by simpa [hl] using hd)

theorem through_dirty_le {l : L} (hd : (s.through line x v).lines.dirty l = true) :
    s.lines.dirty l = true := by
  simp only [State.through, State.drop, State.storeMemory, Lines.drop,
    Function.update_apply] at hd
  split at hd
  · cases hd
  · exact hd

/-- What is seen after a store around the cache: the line shows the memory. -/
theorem through_view_apply (y : α) : (s.through line x v).view y =
    if y = x then v else if line y = line x then s.memory y else s.view y := by
  by_cases hy : y = x
  · subst hy; simp [State.view, State.through, State.drop, State.storeMemory, Lines.drop]
  · by_cases hl : line y = line x <;>
      simp [State.view, State.through, State.drop, State.storeMemory, Lines.drop, hy, hl]

/-- A store around the cache is a store exactly when no other modified word of
the line is lost with it. -/
theorem through_view_iff :
    (s.through line x v).view = Function.update s.view x v ↔ s.Synced line x := by
  constructor
  · intro h y hl hne
    have := congrFun h y
    rw [through_view_apply, if_neg hne, if_pos hl, Function.update_of_ne hne] at this
    exact this.symm
  · intro h
    funext y
    rw [through_view_apply]
    by_cases hy : y = x
    · subst hy; simp
    · rw [if_neg hy, Function.update_of_ne hy]
      split
      · rename_i hl
        exact (h y hl hy).symm
      · rfl

end

/-! ## Writing back -/

omit [DecidableEq L] in
/-- A line that is not modified is `Synced`. -/
theorem synced_of_not_dirty (hc : s.Clean line) (hd : s.lines.dirty (line x) = false) :
    s.Synced line x := by
  intro y hl _
  cases hy : s.lines.held y with
  | none => simp [State.view, hy]
  | some w => simp [State.view, hy, hc y w hy (hl ▸ hd)]

end RiscvEmulator.Lib.LineCache
