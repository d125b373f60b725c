import RiscvEmulator.Lib.LineCache
import RiscvEmulator.Lib.Recency
import RiscvEmulator.Memory.Cache

/-! # The lines a cache holds

`Cache.lines` forgets ways and replacement order. `Cache.Tagged` is the invariant
of the entries; under it a change of one way is a change of one line. -/
namespace RiscvEmulator.Memory
open Lib.LineCache Lib.Recency

namespace Cache
variable {g : Geometry}

def lines (c : Cache g) : Lines WordAddr (Fin g.numSets × Word) Word where
  held x := (c.findEntry (byteAddr x)).map fun w =>
    (c.cacheEntries (g.line x).1 w).data (g.index x)
  dirty l := match c.lookup l.1 l.2 with
    | some w => (c.cacheEntries l.1 w).dirty
    | none => false

/-- No tag is held twice in a set, and every tag is one of an address. -/
structure Tagged (c : Cache g) : Prop where
  unique : ∀ s w w', (c.cacheEntries s w).valid = true → (c.cacheEntries s w').valid = true →
    (c.cacheEntries s w).tag = (c.cacheEntries s w').tag → w = w'
  home : ∀ s w, (c.cacheEntries s w).valid = true →
    ∃ x, g.line x = (s, (c.cacheEntries s w).tag)

/-- Between operations the replacement order also lists every way once. -/
structure WF (c : Cache g) : Prop extends Tagged c where
  lru : ∀ s, (c.lruLists s).Perm (List.finRange g.ways)

theorem init_wf (n : Nat) : (init g n).WF where
  unique s w w' h := by simp [init] at h
  home s w h := by simp [init] at h
  lru s := List.Perm.refl _

theorem init_lines (n : Nat) : (init g n).lines = Lines.empty := by
  have hl : ∀ s t, (init g n).lookup s t = none := by
    intro s t
    simp [lookup, init]
  simp [lines, findEntry, hl, Lines.empty]

/-! ## Entries -/

@[simp] theorem setEntry_lruLists (c : Cache g) (s : Fin g.numSets) (w : Fin g.ways)
    (e : CacheEntry) : (c.setEntry s w e).lruLists = c.lruLists := rfl
@[simp] theorem updateLru_cacheEntries (c : Cache g) (s : Fin g.numSets) (w : Fin g.ways) :
    (c.updateLru s w).cacheEntries = c.cacheEntries := rfl
@[simp] theorem popLru_cacheEntries (c : Cache g) (s : Fin g.numSets) :
    (c.popLru s).cacheEntries = c.cacheEntries := rfl
@[simp] theorem mapStats_cacheEntries (c : Cache g) (f : CacheStats → CacheStats) :
    (c.mapStats f).cacheEntries = c.cacheEntries := rfl
@[simp] theorem mapStats_lruLists (c : Cache g) (f : CacheStats → CacheStats) :
    (c.mapStats f).lruLists = c.lruLists := rfl

theorem setEntry_apply (c : Cache g) (s s' : Fin g.numSets) (w w' : Fin g.ways)
    (e : CacheEntry) : (c.setEntry s w e).cacheEntries s' w' =
      if s' = s ∧ w' = w then e else c.cacheEntries s' w' := by
  simp only [setEntry, Function.update_apply]
  by_cases hs : s' = s
  · subst hs
    by_cases hw : w' = w <;> simp [hw]
  · simp [hs]

@[simp] theorem setEntry_self (c : Cache g) (s : Fin g.numSets) (w : Fin g.ways)
    (e : CacheEntry) : (c.setEntry s w e).cacheEntries s w = e := by
  simp [setEntry_apply]

@[simp] theorem setEntry_setEntry (c : Cache g) (s : Fin g.numSets) (w : Fin g.ways)
    (e e' : CacheEntry) : (c.setEntry s w e).setEntry s w e' = c.setEntry s w e' := by
  simp [setEntry]

/-- Only the entries matter for what is found. -/
theorem lookup_congr {c c' : Cache g} (h : c.cacheEntries = c'.cacheEntries) :
    c.lookup = c'.lookup := by
  funext s t
  simp only [lookup, h]

theorem lines_congr {c c' : Cache g} (h : c.cacheEntries = c'.cacheEntries) :
    c.lines = c'.lines := by
  simp only [lines, findEntry, lookup_congr h, h]

theorem lookup_eq_none_iff {c : Cache g} {s : Fin g.numSets} {t : Word} :
    c.lookup s t = none ↔
      ∀ w, (c.cacheEntries s w).valid = true → (c.cacheEntries s w).tag ≠ t := by
  simp [lookup]

theorem lookup_valid {c : Cache g} {s : Fin g.numSets} {t : Word} {w : Fin g.ways}
    (h : c.lookup s t = some w) :
    (c.cacheEntries s w).valid = true ∧ (c.cacheEntries s w).tag = t := by
  have := List.find?_some h
  simpa using this

theorem valid_of_findInvalid {c : Cache g} {s : Fin g.numSets} (hf : c.findInvalid s = none)
    (w : Fin g.ways) : (c.cacheEntries s w).valid = true := by
  simpa using List.find?_eq_none.mp hf w (List.mem_finRange w)

namespace Tagged
variable {c : Cache g}

theorem lookup_eq_some_iff (h : c.Tagged) {s : Fin g.numSets} {t : Word} {w : Fin g.ways} :
    c.lookup s t = some w ↔
      (c.cacheEntries s w).valid = true ∧ (c.cacheEntries s w).tag = t := by
  refine ⟨lookup_valid, fun ⟨hv, ht⟩ => ?_⟩
  cases hl : c.lookup s t with
  | none => exact absurd ht (lookup_eq_none_iff.mp hl w hv)
  | some w' =>
    obtain ⟨hv', ht'⟩ := lookup_valid hl
    rw [h.unique s w' w hv' hv (ht'.trans ht.symm)]

theorem held_eq_some_iff (h : c.Tagged) {x : WordAddr} {v : Word} : c.lines.held x = some v ↔
    ∃ w, (c.cacheEntries (g.line x).1 w).valid = true ∧
      (c.cacheEntries (g.line x).1 w).tag = (g.line x).2 ∧
      (c.cacheEntries (g.line x).1 w).data (g.index x) = v := by
  simp only [lines, findEntry, Option.map_eq_some_iff]
  constructor
  · rintro ⟨w, hw, hv⟩
    obtain ⟨h1, h2⟩ := lookup_valid hw
    exact ⟨w, h1, h2, hv⟩
  · rintro ⟨w, h1, h2, hv⟩
    exact ⟨w, h.lookup_eq_some_iff.mpr ⟨h1, h2⟩, hv⟩

theorem dirty_eq_true_iff (h : c.Tagged) {l : Fin g.numSets × Word} : c.lines.dirty l = true ↔
    ∃ w, (c.cacheEntries l.1 w).valid = true ∧ (c.cacheEntries l.1 w).tag = l.2 ∧
      (c.cacheEntries l.1 w).dirty = true := by
  simp only [lines]
  constructor
  · intro hd
    split at hd
    · rename_i w hw
      obtain ⟨h1, h2⟩ := lookup_valid hw
      exact ⟨w, h1, h2, hd⟩
    · cases hd
  · rintro ⟨w, h1, h2, hd⟩
    rw [h.lookup_eq_some_iff.mpr ⟨h1, h2⟩]
    exact hd

end Tagged

theorem held_eq_none_iff {c : Cache g} {x : WordAddr} :
    c.lines.held x = none ↔ c.lookup (g.line x).1 (g.line x).2 = none := by
  simp only [lines, findEntry, Option.map_eq_none_iff]
  rfl

theorem lines_granular (c : Cache g) : c.lines.Granular g.line where
  whole x y hxy hs := by
    rw [Option.isSome_iff_ne_none, ne_eq, held_eq_none_iff] at hs ⊢
    rwa [← hxy]
  dirtyHeld x hd := by
    rw [Option.isSome_iff_ne_none, ne_eq, held_eq_none_iff]
    intro hn
    simp [lines, hn] at hd

/-! ## Changing one way -/

namespace Tagged
variable {c : Cache g} {s : Fin g.numSets} {w : Fin g.ways} {e : CacheEntry}

/-- Only the entries matter. -/
theorem congr {c' : Cache g} (h : c.Tagged) (he : c'.cacheEntries = c.cacheEntries) :
    c'.Tagged where
  unique := by rw [he]; exact h.unique
  home := by rw [he]; exact h.home

/-- A way may get a new entry if that is free, or has a tag of the set that no
other way has. -/
theorem setEntry (h : c.Tagged) (he : e.valid = true → (∃ x, g.line x = (s, e.tag)) ∧
    ∀ w', w' ≠ w → (c.cacheEntries s w').valid = true → (c.cacheEntries s w').tag ≠ e.tag) :
    (c.setEntry s w e).Tagged where
  unique s' w1 w2 := by
    simp only [setEntry_apply]
    by_cases hs : s' = s
    · subst hs
      by_cases h1 : w1 = w <;> by_cases h2 : w2 = w <;>
        simp only [h1, h2, and_self, and_false, if_true, if_false]
      · exact fun _ _ _ => trivial
      · intro hv hv2 ht
        exact absurd ht.symm ((he hv).2 w2 h2 hv2)
      · intro hv1 hv ht
        exact absurd ht ((he hv).2 w1 h1 hv1)
      · exact h.unique s' w1 w2
    · simp only [hs, false_and, if_false]
      exact h.unique s' w1 w2
  home s' w' := by
    simp only [setEntry_apply]
    split
    · rename_i hsw
      rw [hsw.1]
      exact fun hv => (he hv).1
    · exact h.home s' w'

/-- Freeing a way drops the line it held. -/
theorem lines_free (h : c.Tagged) (hv : (c.cacheEntries s w).valid = true)
    (he : e.valid = false) :
    (c.setEntry s w e).lines = c.lines.drop g.line (s, (c.cacheEntries s w).tag) := by
  have h' : (c.setEntry s w e).Tagged := h.setEntry (by simp [he])
  have hu := h.unique s
  refine Lines.ext ?_ ?_
  · funext x
    refine Option.ext fun v => ?_
    rw [h'.held_eq_some_iff]
    simp only [Lines.drop, setEntry_apply]
    split
    · rename_i hl
      simp only [hl, true_and, reduceCtorEq, iff_false]
      grind
    · rename_i hl
      rw [h.held_eq_some_iff]
      grind
  · funext l
    rw [Bool.eq_iff_iff, h'.dirty_eq_true_iff]
    simp only [Lines.drop, setEntry_apply, Function.update_apply]
    split
    · rename_i hl
      simp only [hl, true_and]
      grind
    · rename_i hl
      rw [h.dirty_eq_true_iff]
      grind

/-- A free way that gets a tag no other way of the set has, with the words of
that line in `m`, fills the line. -/
theorem lines_fill (h : c.Tagged) {x : WordAddr} {m : WordAddr → Word}
    (hv : (c.cacheEntries (g.line x).1 w).valid = false)
    (hn : c.lookup (g.line x).1 (g.line x).2 = none)
    (he : e.valid = true ∧ e.dirty = false ∧ e.tag = (g.line x).2)
    (hd : ∀ y, g.line y = g.line x → e.data (g.index y) = m y) :
    (c.setEntry (g.line x).1 w e).lines = c.lines.fill g.line m (g.line x) := by
  rw [lookup_eq_none_iff] at hn
  have h' : (c.setEntry (g.line x).1 w e).Tagged :=
    h.setEntry fun _ => ⟨⟨x, by rw [he.2.2]⟩, fun w' _ hv' => he.2.2 ▸ hn w' hv'⟩
  refine Lines.ext ?_ ?_
  · funext y
    refine Option.ext fun v => ?_
    rw [h'.held_eq_some_iff]
    simp only [Lines.fill, setEntry_apply]
    split
    · rename_i hl
      rw [hl, ← hd y hl]
      grind
    · rename_i hl
      rw [h.held_eq_some_iff]
      grind
  · funext l
    rw [Bool.eq_iff_iff, h'.dirty_eq_true_iff]
    simp only [Lines.fill, setEntry_apply, Function.update_apply]
    split
    · rename_i hl
      grind
    · rename_i hl
      rw [h.dirty_eq_true_iff]
      grind

/-- A way may get other contents for the tag it has. -/
theorem setEntry_same {s : Fin g.numSets} {t : Word} (h : c.Tagged)
    (hw : c.lookup s t = some w) (ht : e.tag = t) : (c.setEntry s w e).Tagged := by
  obtain ⟨hv, htag⟩ := lookup_valid hw
  refine h.setEntry fun _ => ⟨?_, fun w' hne hv' htw => hne (h.unique s w' w hv' hv ?_)⟩
  · rw [ht, ← htag]
    exact h.home s w hv
  · rw [htw, ht, htag]

/-- Setting one word of a held line. -/
theorem lines_set (h : c.Tagged) {x : WordAddr} {v : Word} {mark : Bool}
    (hw : c.lookup (g.line x).1 (g.line x).2 = some w) (he : e.valid = true)
    (ht : e.tag = (g.line x).2)
    (hd : e.data = Function.update (c.cacheEntries (g.line x).1 w).data (g.index x) v)
    (hm : e.dirty = ((c.cacheEntries (g.line x).1 w).dirty || mark)) :
    (c.setEntry (g.line x).1 w e).lines = ⟨Function.update c.lines.held x (some v),
      Function.update c.lines.dirty (g.line x) (c.lines.dirty (g.line x) || mark)⟩ := by
  obtain ⟨hv, htag⟩ := lookup_valid hw
  have hu := h.unique (g.line x).1
  have hself : e.data (g.index x) = v := by rw [hd, Function.update_self]
  have hother : ∀ i, i ≠ g.index x → e.data i = (c.cacheEntries (g.line x).1 w).data i := by
    intro i hi
    rw [hd, Function.update_of_ne hi]
  clear hd
  have h' : (c.setEntry (g.line x).1 w e).Tagged := h.setEntry_same hw ht
  refine Lines.ext ?_ ?_
  · funext y
    refine Option.ext fun u => ?_
    rw [h'.held_eq_some_iff]
    simp only [setEntry_apply, Function.update_apply]
    by_cases hyx : y = x
    · subst hyx
      rw [if_pos rfl]
      grind
    · rw [if_neg hyx, h.held_eq_some_iff]
      have hi : g.line y = g.line x → g.index y ≠ g.index x := fun hl hi =>
        hyx (g.index_inj hl hi)
      by_cases hl : g.line y = g.line x
      · rw [hl]
        have := hi hl
        grind
      · have : ¬((g.line y).1 = (g.line x).1 ∧ (g.line y).2 = (g.line x).2) := fun hp =>
          hl (Prod.ext hp.1 hp.2)
        grind
  · funext l
    have hdx : c.lines.dirty (g.line x) = (c.cacheEntries (g.line x).1 w).dirty := by
      simp only [lines, hw]
    rw [Bool.eq_iff_iff, h'.dirty_eq_true_iff]
    simp only [setEntry_apply, Function.update_apply]
    split
    · rename_i hl
      rw [hdx, hl, ← hm]
      grind
    · rename_i hl
      have : ¬(l.1 = (g.line x).1 ∧ l.2 = (g.line x).2) := fun hp => hl (Prod.ext hp.1 hp.2)
      rw [h.dirty_eq_true_iff]
      grind

/-- Clearing the mark of a held line. -/
theorem lines_clearDirty (h : c.Tagged) {x : WordAddr}
    (hw : c.lookup (g.line x).1 (g.line x).2 = some w) :
    (c.setEntry (g.line x).1 w
        { c.cacheEntries (g.line x).1 w with dirty := false }).lines =
      { c.lines with dirty := Function.update c.lines.dirty (g.line x) false } := by
  obtain ⟨hv, htag⟩ := lookup_valid hw
  have hu := h.unique (g.line x).1
  have h' := h.setEntry_same (e := { c.cacheEntries (g.line x).1 w with dirty := false }) hw htag
  refine Lines.ext ?_ ?_
  · funext y
    refine Option.ext fun u => ?_
    rw [h'.held_eq_some_iff, h.held_eq_some_iff]
    simp only [setEntry_apply]
    grind
  · funext l
    rw [Bool.eq_iff_iff, h'.dirty_eq_true_iff]
    simp only [setEntry_apply, Function.update_apply]
    split
    · grind
    · rename_i hl
      have : ¬(l.1 = (g.line x).1 ∧ l.2 = (g.line x).2) := fun hp => hl (Prod.ext hp.1 hp.2)
      rw [h.dirty_eq_true_iff]
      grind

end Tagged

/-- A way freed in a full set is the one that is found. -/
theorem findInvalid_freed {c c' : Cache g} {s : Fin g.numSets} {w : Fin g.ways} {e : CacheEntry}
    (hfull : c.findInvalid s = none) (he : e.valid = false)
    (hentries : c'.cacheEntries = (c.setEntry s w e).cacheEntries) :
    c'.findInvalid s = some w := by
  have hfreed : ∀ j, (!(c'.cacheEntries s j).valid) = true ↔ j = w := fun j => by
    rw [hentries, setEntry_apply]
    by_cases hj : j = w <;> simp [hj, he, valid_of_findInvalid hfull]
  cases hfind : c'.findInvalid s with
  | none =>
    have hw := List.find?_eq_none.mp hfind w (List.mem_finRange w)
    exact absurd ((hfreed w).mpr rfl) hw
  | some j =>
    have hsome := List.find?_some hfind
    rw [(hfreed j).mp hsome]

/-- Freeing a way brings no tag in. -/
theorem lookup_freed {c c' : Cache g} {s : Fin g.numSets} {w : Fin g.ways} {e : CacheEntry}
    {tag : Word} (hn : c.lookup s tag = none) (he : e.valid = false)
    (hentries : c'.cacheEntries = (c.setEntry s w e).cacheEntries) : c'.lookup s tag = none := by
  rw [lookup_eq_none_iff] at hn ⊢
  intro j hvalid
  rw [hentries, setEntry_apply] at hvalid ⊢
  split at hvalid
  · rw [he] at hvalid
    cases hvalid
  · next hne =>
    rw [if_neg hne]
    exact hn j hvalid

/-- The order is complete again once the way in use is moved to the front. -/
theorem Tagged.updateLru {c : Cache g} {s : Fin g.numSets} {w : Fin g.ways} (h : c.Tagged)
    (hn : (c.lruLists s).Nodup) (hm : ∀ w', w' ≠ w → w' ∈ c.lruLists s)
    (ho : ∀ s', s' ≠ s → (c.lruLists s').Perm (List.finRange g.ways)) :
    (c.updateLru s w).WF where
  toTagged := h.congr rfl
  lru s' := by
    simp only [Cache.updateLru, Function.update_apply]
    split
    · exact front_perm hn hm
    · rename_i hs
      exact ho s' hs

theorem WF.nodup {c : Cache g} (h : c.WF) (s : Fin g.numSets) : (c.lruLists s).Nodup :=
  (h.lru s).nodup_iff.mpr (List.nodup_finRange _)

theorem WF.mem {c : Cache g} (h : c.WF) (s : Fin g.numSets) (w : Fin g.ways) :
    w ∈ c.lruLists s :=
  (h.lru s).mem_iff.mpr (List.mem_finRange w)

end Cache
end RiscvEmulator.Memory
