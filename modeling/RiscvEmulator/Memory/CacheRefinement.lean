import RiscvEmulator.Memory.CacheLines

/-! # A cache level refines its lines

Over a memory that behaves as a word memory, every operation of a `Level` is one
of the moves of `Lib.LineCache`: an access is a `Touch`, a write-back store sets
a held word, a store that is written through and the atomics go around the
cache. `Good` is the invariant they all keep, whoever else uses the memory;
`Consistent` holds of the only user of a memory. -/
namespace RiscvEmulator.Memory
open Lib.LineCache Lib.Recency

namespace Level
variable {g : Geometry} {σ : Type} [MemoryInterface σ] (M : WordMemory σ)

/-- What a level is about: the lines held and the contents behind them. -/
def state (lv : Level g σ) : State WordAddr (Fin g.numSets × Word) Word :=
  ⟨lv.cache.lines, M.content lv.memory⟩

/-- The sets are in order, the memory behind is, and it backs the dirty lines. -/
structure Good (lv : Level g σ) : Prop where
  wf : lv.cache.WF
  inv : M.inv lv.memory
  backed : ∀ x, lv.cache.lines.dirty (g.line x) = true → M.dom x

/-- Lines that are not dirty also agree with the memory. -/
structure Consistent (lv : Level g σ) : Prop extends Good M lv where
  clean : (lv.state M).Clean g.line

variable {M} {lv : Level g σ} {x : WordAddr}

/-! ## Moving blocks -/

/-- Writing a block back is `Lines.writeBack`. -/
theorem writeBackBlock_spec {w : Fin g.ways} (ht : lv.cache.Tagged) (hi : M.inv lv.memory)
    (hw : lv.cache.lookup (g.line x).1 (g.line x).2 = some w)
    (hd : (lv.cache.cacheEntries (g.line x).1 w).dirty = true)
    (hdom : ∀ y, g.line y = g.line x → M.dom y) :
    M.inv (lv.writeBackBlock (g.line x).1 w).memory ∧
      M.content (lv.writeBackBlock (g.line x).1 w).memory =
        lv.cache.lines.writeBack g.line (M.content lv.memory) (g.line x) := by
  obtain ⟨hv, htag⟩ := Cache.lookup_valid hw
  have hspec := M.writeBlock_spec lv.memory (g.base x)
    ((List.range g.wordsPerBlock).map (lv.cache.cacheEntries (g.line x).1 w).data) hi
    (fun i hi => hdom _ (g.line_base_add (by simpa using hi)))
  rw [← g.blockAddressOf_line, ← htag] at hspec
  refine ⟨hspec.1, hspec.2.trans (funext fun y => ?_)⟩
  rw [writeMany_apply _ _ _ _ (by simpa using g.wordsPerBlock_le)]
  simp only [List.length_map, List.length_range, Lines.writeBack]
  by_cases hl : g.line y = g.line x
  · have hlt := g.line_eq_iff_offset.mp hl
    have hdirty : lv.cache.lines.dirty (g.line x) = true :=
      ht.dirty_eq_true_iff.mpr ⟨w, hv, htag, hd⟩
    have hheld : lv.cache.lines.held y =
        some ((lv.cache.cacheEntries (g.line x).1 w).data (g.index y)) :=
      ht.held_eq_some_iff.mpr ⟨w, by rw [hl]; exact ⟨hv, htag, rfl⟩⟩
    rw [if_pos hlt, if_pos ⟨hl, hdirty⟩, hheld, g.offset_eq_index hl]
    simp [g.index_lt]
  · rw [if_neg fun h => hl (g.line_eq_iff_offset.mpr h), if_neg fun h => hl h.1]

/-- Evicting frees the way at the end of the replacement order. -/
theorem evictLruEntry_entries {s : Fin g.numSets} {w : Fin g.ways}
    (hlast : (lv.cache.lruLists s).getLast? = some w) :
    (lv.evictLruEntry s).cache.cacheEntries = (lv.cache.setEntry s w
      { lv.cache.cacheEntries s w with valid := false, dirty := false }).cacheEntries := by
  unfold evictLruEntry
  rw [hlast]
  simp only
  split <;> rfl

/-- Evicting is `State.evict` of the line that the way at the end holds. -/
theorem evictLruEntry_spec {s : Fin g.numSets} {w : Fin g.ways} (h : lv.Good M)
    (hlast : (lv.cache.lruLists s).getLast? = some w)
    (hv : (lv.cache.cacheEntries s w).valid = true) :
    M.inv (lv.evictLruEntry s).memory ∧
      (lv.evictLruEntry s).cache.lruLists =
        Function.update lv.cache.lruLists s (lv.cache.lruLists s).dropLast ∧
      (lv.evictLruEntry s).state M =
        (lv.state M).evict g.line (s, (lv.cache.cacheEntries s w).tag) := by
  obtain ⟨x, hx⟩ := h.wf.home s w hv
  have hs : (g.line x).1 = s := congrArg Prod.fst hx
  have htag : (g.line x).2 = (lv.cache.cacheEntries s w).tag := congrArg Prod.snd hx
  have hlines := h.wf.toTagged.lines_free hv
    (e := { lv.cache.cacheEntries s w with valid := false, dirty := false }) rfl
  have hdirty : lv.cache.lines.dirty (s, (lv.cache.cacheEntries s w).tag) =
      (lv.cache.cacheEntries s w).dirty := by
    simp only [Cache.lines, h.wf.lookup_eq_some_iff.mpr ⟨hv, rfl⟩]
  by_cases hd : (lv.cache.cacheEntries s w).dirty = true
  · have hw : lv.cache.lookup (g.line x).1 (g.line x).2 = some w :=
      h.wf.lookup_eq_some_iff.mpr ⟨by rw [hs]; exact hv, by rw [hs, htag]⟩
    have hback := writeBackBlock_spec (M := M) h.wf.toTagged h.inv hw (by rw [hs]; exact hd)
      fun y hy => h.backed y (by rw [hy, hx, hdirty, hd])
    rw [hs, hx] at hback
    simp only [evictLruEntry, hlast, hd, if_true]
    refine ⟨hback.1, rfl, State.ext ?_ hback.2⟩
    exact (Cache.lines_congr rfl).trans hlines
  · simp only [evictLruEntry, hlast, hd]
    refine ⟨h.inv, rfl, State.ext ((Cache.lines_congr rfl).trans hlines) ?_⟩
    funext y
    simp [state, State.evict, Lines.writeBack, hdirty, hd, mapCache]

/-- A free way that gets the tag of `x` and its block holds the line of `x`. -/
theorem claim_load_spec {w : Fin g.ways} (ht : lv.cache.Tagged) (hi : M.inv lv.memory)
    (hfree : (lv.cache.cacheEntries (g.line x).1 w).valid = false)
    (hn : lv.cache.lookup (g.line x).1 (g.line x).2 = none) :
    let lv' := (lv.claim (g.line x).1 w (g.line x).2).loadBlock (byteAddr x) (g.line x).1 w
    lv'.cache.Tagged ∧ M.inv lv'.memory ∧ lv'.cache.lruLists = lv.cache.lruLists ∧
      lv'.cache.lookup (g.line x).1 (g.line x).2 = some w ∧
      lv'.state M = (lv.state M).fill g.line (g.line x) := by
  intro lv'
  obtain ⟨hread, hinv, hcont⟩ := M.readBlock_spec lv.memory (g.base x) g.wordsPerBlock hi
  rw [← g.getBlockAddress_byteAddr] at hread hinv hcont
  set block := MemoryInterface.readBlock lv.memory (g.getBlockAddress (byteAddr x))
    g.wordsPerBlock with hb
  let e : CacheEntry :=
    { tag := (g.line x).2, data := fun i => block.1.getD i 0, valid := true, dirty := false }
  have hcache : lv'.cache = lv.cache.setEntry (g.line x).1 w e := by
    simp [lv', loadBlock, claim, mapCache, e, hb]
  have htag : (lv.cache.setEntry (g.line x).1 w e).Tagged :=
    ht.setEntry fun _ => ⟨⟨x, rfl⟩, fun w' _ hv => Cache.lookup_eq_none_iff.mp hn w' hv⟩
  refine ⟨hcache ▸ htag, hinv, by rw [hcache]; rfl, ?_, State.ext ?_ hcont⟩
  · rw [hcache]
    exact htag.lookup_eq_some_iff.mpr (by simp [e])
  · change lv'.cache.lines = _
    rw [hcache]
    refine ht.lines_fill hfree hn ⟨rfl, rfl, rfl⟩ fun y hy => ?_
    show block.1.getD (g.index y) 0 = _
    rw [hread, readMany_getD _ _ (g.index_lt y), g.base_add_index hy]
    rfl

section
variable {s : Fin g.numSets} {w : Fin g.ways} {tag : Word}

theorem allocateEntry_free (hf : lv.cache.findInvalid s = some w) :
    lv.allocateEntry s tag = (w, lv.claim s w tag) := by
  simp only [allocateEntry, hf]

/-- In a full set, allocation takes the way that it evicts. -/
theorem allocateEntry_full (hf : lv.cache.findInvalid s = none)
    (hlast : (lv.cache.lruLists s).getLast? = some w) :
    lv.allocateEntry s tag = (w, (lv.evictLruEntry s).claim s w tag) := by
  simp only [allocateEntry, hf, Cache.findInvalid_freed hf rfl (evictLruEntry_entries hlast)]

end

/-- On a miss a way is found, and the line of `x` is brought in. -/
theorem allocate_load_spec (h : lv.Good M)
    (hn : lv.cache.lookup (g.line x).1 (g.line x).2 = none) :
    let r := lv.allocateEntry (g.line x).1 (g.line x).2
    let lv' := r.2.loadBlock (byteAddr x) (g.line x).1 r.1
    (lv'.cache.updateLru (g.line x).1 r.1).WF ∧ M.inv lv'.memory ∧
      lv'.cache.lookup (g.line x).1 (g.line x).2 = some r.1 ∧
      Touch g.line x (lv.state M) (lv'.state M) := by
  have hheld : (lv.state M).lines.held x = none := Cache.held_eq_none_iff.mpr hn
  intro r lv'
  cases hf : lv.cache.findInvalid (g.line x).1 with
  | some w =>
    have hr : r = (w, lv.claim (g.line x).1 w (g.line x).2) := allocateEntry_free hf
    have hfree : (lv.cache.cacheEntries (g.line x).1 w).valid = false := by
      simpa using List.find?_some hf
    obtain ⟨h1, h2, h3, h4, h5⟩ := claim_load_spec (M := M) h.wf.toTagged h.inv hfree hn
    simp only [lv', hr]
    refine ⟨h1.updateLru (h3 ▸ h.wf.nodup _) (fun w' _ => h3 ▸ h.wf.mem _ w')
      (fun s' _ => h3 ▸ h.wf.lru s'), h2, h4, ?_⟩
    rw [h5]
    exact .fill hheld
  | none =>
    obtain ⟨w, hlast⟩ := exists_last (h.wf.lru (g.line x).1) g.ways_pos
    have hv : (lv.cache.cacheEntries (g.line x).1 w).valid = true := Cache.valid_of_findInvalid hf w
    have hent := evictLruEntry_entries hlast
    obtain ⟨hinv, hlru, hstate⟩ := evictLruEntry_spec (M := M) h hlast hv
    have htag : (lv.evictLruEntry (g.line x).1).cache.Tagged :=
      (h.wf.toTagged.setEntry (by simp)).congr hent
    have hfree : ((lv.evictLruEntry (g.line x).1).cache.cacheEntries (g.line x).1 w).valid =
        false := by
      rw [hent, Cache.setEntry_self]
    obtain ⟨h1, h2, h3, h4, h5⟩ := claim_load_spec (M := M) htag hinv hfree
      (Cache.lookup_freed hn rfl hent)
    have hr : r = (w, (lv.evictLruEntry (g.line x).1).claim (g.line x).1 w (g.line x).2) :=
      allocateEntry_full hf hlast
    simp only [lv', hr]
    rw [hlru] at h3
    refine ⟨h1.updateLru ?_ ?_ ?_, h2, h4, ?_⟩
    · rw [h3, Function.update_self]
      exact (h.wf.nodup (g.line x).1).sublist (List.dropLast_sublist _)
    · intro w' hw'
      have hmem := h.wf.mem (g.line x).1 w'
      rw [← List.dropLast_append_getLast? w hlast] at hmem
      rw [h3, Function.update_self]
      simpa [hw'] using hmem
    · intro s' hs'
      rw [h3, Function.update_of_ne hs']
      exact h.wf.lru s'
    · rw [h5, hstate]
      refine .replace _ hheld ?_
      intro hl
      exact Cache.lookup_eq_none_iff.mp hn w hv (congrArg Prod.snd hl)

/-! ## Accesses -/

/-- The invariant of a level survives `Touch`. -/
theorem Good.touch {lv' : Level g σ} (h : lv.Good M) (hw : lv'.cache.WF) (hi : M.inv lv'.memory)
    (ht : Touch g.line x (lv.state M) (lv'.state M)) : lv'.Good M where
  wf := hw
  inv := hi
  backed y hd := h.backed y (ht.dirty_le hd)

/-- An access brings the line of `x` in, and shows its reader nothing else. -/
theorem access_spec (h : lv.Good M) (x : WordAddr) (coreId : Nat) :
    (lv.access (byteAddr x) coreId).2.2.Good M ∧
      (lv.access (byteAddr x) coreId).2.2.cache.findEntry (byteAddr x) =
        some (lv.access (byteAddr x) coreId).2.1 ∧
      Touch g.line x (lv.state M) ((lv.access (byteAddr x) coreId).2.2.state M) := by
  cases hf : lv.cache.findEntry (byteAddr x) with
  | some w =>
    have hheld : ((lv.state M).lines.held x).isSome = true := by
      simp [state, Cache.lines, hf]
    simp only [access, hf]
    refine ⟨?_, hf, .hit hheld⟩
    refine h.touch (Cache.Tagged.updateLru (h.wf.toTagged.congr rfl) (h.wf.nodup _)
      (fun w' _ => h.wf.mem _ w') (fun s' _ => h.wf.lru s')) h.inv (.hit hheld)
  | none =>
    let lv0 := lv.mapCache (·.mapStats (·.miss g.toCacheConfig coreId))
    have h0 : lv0.Good M := ⟨⟨h.wf.toTagged.congr rfl, h.wf.lru⟩, h.inv, h.backed⟩
    obtain ⟨h1, h2, h3, h4⟩ := allocate_load_spec (M := M) (x := x) h0 hf
    simp only [access, hf]
    exact ⟨h.touch h1 h2 h4, h3, h4⟩

omit [MemoryInterface σ] in
theorem held_of_findEntry {w : Fin g.ways} (hw : lv.cache.findEntry (byteAddr x) = some w) :
    lv.cache.lines.held x = some ((lv.cache.cacheEntries (g.line x).1 w).data (g.index x)) := by
  simp [Cache.lines, hw]

/-- A read returns what the view shows and leaves the view alone. -/
theorem read_spec (h : lv.Good M) (x : WordAddr) (coreId : Nat) :
    (lv.read (byteAddr x) coreId).2.1 = (lv.state M).view x ∧
      (lv.read (byteAddr x) coreId).2.2.Good M ∧
      Touch g.line x (lv.state M) ((lv.read (byteAddr x) coreId).2.2.state M) := by
  obtain ⟨h1, h2, h3⟩ := access_spec h x coreId
  refine ⟨?_, h1, h3⟩
  have hheld := h3.held_self
  rw [show ((lv.access (byteAddr x) coreId).2.2.state M).lines.held x = _ from
    held_of_findEntry h2, Option.some.injEq] at hheld
  simp only [read, g.wordIndex_byteAddr]
  exact hheld

/-- A read anywhere in a word is a read of the word. -/
theorem read_wordOf (lv : Level g σ) (a : Word) (coreId : Nat) :
    lv.read a coreId = lv.read (byteAddr (wordOf a)) coreId := by
  obtain ⟨h1, h2, h3, h4⟩ := g.address_wordOf a
  simp only [read, access, Cache.findEntry, loadBlock, h1, h2, h3, h4]

/-! ## Stores -/

omit [MemoryInterface σ] in
/-- Setting a word of a held line. -/
theorem setWord_spec {w : Fin g.ways} (h : lv.cache.WF)
    (hw : lv.cache.findEntry (byteAddr x) = some w) (v : Word) (mark : Bool) :
    (lv.setWord (byteAddr x) v w mark).cache.WF ∧
    (lv.setWord (byteAddr x) v w mark).cache.lines =
      ⟨Function.update lv.cache.lines.held x (some v),
        Function.update lv.cache.lines.dirty (g.line x)
          (lv.cache.lines.dirty (g.line x) || mark)⟩ := by
  obtain ⟨hv, ht⟩ := Cache.lookup_valid hw
  simp only [setWord, mapCache, g.wordIndex_byteAddr]
  exact ⟨⟨h.setEntry_same hw ht, h.lru⟩, h.lines_set hw hv ht rfl rfl⟩

/-- A write-back store: bring the line in, then set the word and mark the line.
The memory has to back the line. -/
theorem store_spec (h : lv.Good M) (x : WordAddr) (v : Word) (coreId : Nat)
    (hdom : ∀ y, g.line y = g.line x → M.dom y) :
    let r := lv.access (byteAddr x) coreId
    let lv' := r.2.2.setWord (byteAddr x) v r.2.1 true
    lv'.Good M ∧ ∃ t, Touch g.line x (lv.state M) t ∧ lv'.state M = t.store g.line x v := by
  intro r lv'
  obtain ⟨h1, h2, h3⟩ := access_spec h x coreId
  obtain ⟨hw, hl⟩ := setWord_spec h1.wf h2 v true
  have hstate : lv'.state M = (r.2.2.state M).store g.line x v :=
    State.ext (by simpa [state, State.store] using hl) rfl
  refine ⟨⟨hw, h1.inv, fun y hd => ?_⟩, _, h3, hstate⟩
  by_cases hy : g.line y = g.line x
  · exact hdom y hy
  · refine h1.backed y ?_
    change (lv'.state M).lines.dirty (g.line y) = true at hd
    rw [hstate, store_dirty, Function.update_of_ne hy] at hd
    exact hd

/-- A store on the memory face inside the write-through window: the word is set
in the line and in the memory, and the line keeps its mark. -/
theorem storeBoth_spec (h : lv.Good M) (x : WordAddr) (v : Word) (coreId : Nat)
    (hdom : M.dom x) :
    let r := lv.access (byteAddr x) coreId
    let lv1 := r.2.2.setWord (byteAddr x) v r.2.1 false
    let lv' := { lv1 with memory := MemoryInterface.writeWord lv1.memory (byteAddr x) v }
    lv'.Good M ∧ ∃ t, Touch g.line x (lv.state M) t ∧ lv'.state M = t.storeBoth x v := by
  intro r lv1 lv'
  obtain ⟨h1, h2, h3⟩ := access_spec h x coreId
  obtain ⟨hw, hl⟩ := setWord_spec h1.wf h2 v false
  obtain ⟨hi, hc⟩ := M.writeWord_spec r.2.2.memory x v h1.inv hdom
  have hstate : lv'.state M = (r.2.2.state M).storeBoth x v :=
    State.ext (by simpa [state, State.storeBoth] using hl) hc
  refine ⟨⟨hw, hi, fun y hd => ?_⟩, _, h3, hstate⟩
  refine h1.backed y ?_
  change (lv'.state M).lines.dirty (g.line y) = true at hd
  rw [hstate] at hd
  exact hd

/-! ## Around the cache -/

omit [MemoryInterface σ] in
theorem invalidate_spec {c : Cache g} (h : c.WF) (x : WordAddr) :
    (c.invalidate (byteAddr x)).WF ∧
      (c.invalidate (byteAddr x)).lines = c.lines.drop g.line (g.line x) := by
  cases hf : c.findEntry (byteAddr x) with
  | some w =>
    obtain ⟨hv, ht⟩ := Cache.lookup_valid hf
    simp only [Cache.invalidate, hf]
    refine ⟨⟨h.setEntry (by simp), h.lru⟩, ?_⟩
    rw [h.lines_free hv rfl, ht]
    rfl
  | none =>
    simp only [Cache.invalidate, hf]
    exact ⟨h, (drop_of_not_held c.lines_granular (Cache.held_eq_none_iff.mpr hf)).symm⟩

/-- Storing around the cache and dropping the own copy of the line. -/
theorem through_spec {lv' : Level g σ} (h : lv.Good M) (x : WordAddr) (v : Word)
    (hw : lv'.cache.WF)
    (hl : lv'.cache.lines = lv.cache.lines.drop g.line (g.line x))
    (hi : M.inv lv'.memory)
    (hc : M.content lv'.memory = Function.update (M.content lv.memory) x v) :
    lv'.Good M ∧ lv'.state M = (lv.state M).through g.line x v := by
  have hstate : lv'.state M = (lv.state M).through g.line x v := State.ext hl hc
  refine ⟨⟨hw, hi, fun y hd => h.backed y ?_⟩, hstate⟩
  change (lv'.state M).lines.dirty (g.line y) = true at hd
  rw [hstate] at hd
  exact through_dirty_le hd

/-- A store whose address is in the window or the page table region. -/
theorem write_through_spec (h : lv.Good M) {addr physAddr : Word} (x : WordAddr) (v : Word)
    (coreId : Nat) (ha : writeThroughAddr addr physAddr = some (byteAddr x)) (hdom : M.dom x) :
    (lv.write addr physAddr v coreId).2.Good M ∧
      (lv.write addr physAddr v coreId).2.state M = (lv.state M).through g.line x v := by
  obtain ⟨hi, hc⟩ := M.writeWord_spec lv.memory x v h.inv hdom
  simp only [write, ha]
  cases hf : lv.cache.findEntry (byteAddr x) with
  | none =>
    refine through_spec h x v ⟨h.wf.toTagged.congr rfl, h.wf.lru⟩ ?_ hi hc
    exact (drop_of_not_held lv.cache.lines_granular (Cache.held_eq_none_iff.mpr hf)).symm
  | some w =>
    obtain ⟨hw, hl⟩ := setWord_spec h.wf hf v false
    obtain ⟨hw', hl'⟩ := invalidate_spec hw x
    refine through_spec h x v ⟨hw'.toTagged.congr rfl, hw'.lru⟩ ?_ hi hc
    exact hl'.trans (hl ▸ drop_update _)

/-- Any other store. -/
theorem write_spec (h : lv.Good M) {addr : Word} (x : WordAddr) (v : Word) (coreId : Nat)
    (ha : writeThroughAddr addr (byteAddr x) = none) (hdom : ∀ y, g.line y = g.line x → M.dom y) :
    (lv.write addr (byteAddr x) v coreId).2.Good M ∧ ∃ t, Touch g.line x (lv.state M) t ∧
      (lv.write addr (byteAddr x) v coreId).2.state M = t.store g.line x v := by
  simp only [write, ha]
  exact store_spec h x v coreId hdom

theorem atomicUpdate_spec (h : lv.Good M) (x : WordAddr) (op : Word → Option Word)
    (coreId : Nat) (hdom : M.dom x) :
    (lv.atomicUpdate (byteAddr x) op coreId).1 = M.content lv.memory x ∧
      (lv.atomicUpdate (byteAddr x) op coreId).2.Good M ∧
      (lv.atomicUpdate (byteAddr x) op coreId).2.state M = (lv.state M).through g.line x
        ((op (M.content lv.memory x)).getD (M.content lv.memory x)) := by
  obtain ⟨hr, hi, hc⟩ := M.readWord_spec lv.memory x h.inv
  obtain ⟨hw, hl⟩ := invalidate_spec h.wf x
  have hw' : ((lv.cache.invalidate (byteAddr x)).mapStats
      (·.miss g.toCacheConfig coreId)).WF := ⟨hw.toTagged.congr rfl, hw.lru⟩
  refine ⟨hr, ?_⟩
  cases ho : op (M.content lv.memory x) with
  | some v =>
    obtain ⟨hi', hc'⟩ := M.writeWord_spec _ x v hi hdom
    refine through_spec h x v ?_ ?_ ?_ ?_ <;> simp only [atomicUpdate, hr, ho]
    · exact hw'
    · exact hl
    · exact hi'
    · rw [hc', hc]
  | none =>
    refine through_spec h x _ ?_ ?_ ?_ ?_ <;> simp only [atomicUpdate, hr, ho]
    · exact hw'
    · exact hl
    · exact hi
    · rw [hc]
      simp

/-! ## The memory face -/

/-- A word of the memory face is a touch followed by a store, which in the
write-through window reaches the memory as well. -/
theorem writeWord_spec (h : lv.Good M) (x : WordAddr) (v : Word)
    (hdom : ∀ y, g.line y = g.line x → M.dom y) :
    (lv.writeWord (byteAddr x) v).Good M ∧ ∃ t, Touch g.line x (lv.state M) t ∧
      (lv.writeWord (byteAddr x) v).state M =
        if isWriteThrough (byteAddr x) then t.storeBoth x v else t.store g.line x v := by
  simp only [writeWord]
  split
  · exact storeBoth_spec h x v 0 (hdom x rfl)
  · exact store_spec h x v 0 hdom

/-! ## The only user of a memory -/

namespace Consistent

theorem touch_view {t} (h : lv.Consistent M) (ht : Touch g.line x (lv.state M) t) :
    t.view = (lv.state M).view :=
  ht.view lv.cache.lines_granular h.clean

theorem access (h : lv.Consistent M) (x : WordAddr) (coreId : Nat) :
    (lv.access (byteAddr x) coreId).2.2.Consistent M := by
  obtain ⟨h1, _, h3⟩ := access_spec h.toGood x coreId
  exact ⟨h1, h3.clean h.clean⟩

theorem read (h : lv.Consistent M) (x : WordAddr) (coreId : Nat) :
    (lv.read (byteAddr x) coreId).2.2.Consistent M := h.access x coreId

theorem writeWord (h : lv.Consistent M) (x : WordAddr) (v : Word)
    (hdom : ∀ y, g.line y = g.line x → M.dom y) :
    (lv.writeWord (byteAddr x) v).Consistent M ∧
      ((lv.writeWord (byteAddr x) v).state M).view = Function.update (lv.state M).view x v := by
  obtain ⟨h1, t, ht, hs⟩ := writeWord_spec h.toGood x v hdom
  have hc := ht.clean h.clean
  refine ⟨⟨h1, hs ▸ ?_⟩, ?_⟩
  · split
    · exact storeBoth_clean hc
    · exact store_clean hc
  · rw [hs, ← h.touch_view ht]
    split
    · exact storeBoth_view
    · exact store_view

theorem readBlock (h : lv.Consistent M) (x : WordAddr) (n : Nat) :
    (lv.readBlock (byteAddr x) n).1 = readMany (lv.state M).view x n ∧
      (lv.readBlock (byteAddr x) n).2.Consistent M ∧
      ((lv.readBlock (byteAddr x) n).2.state M).view = (lv.state M).view := by
  induction n generalizing lv x with
  | zero => exact ⟨rfl, h, rfl⟩
  | succ n ih =>
    obtain ⟨h1, _, h3⟩ := read_spec h.toGood x 0
    have hview := h.touch_view h3
    obtain ⟨i1, i2, i3⟩ := ih (h.read x 0) (x + 1)
    rw [← byteAddr_add_four] at i1 i2 i3
    refine ⟨?_, i2, i3.trans hview⟩
    show _ :: _ = _ :: _
    rw [← hview, ← i1, hview]
    exact congrArg (· :: _) h1

theorem writeBlock (h : lv.Consistent M) (x : WordAddr) (ws : List Word)
    (hdom : ∀ i < ws.length, ∀ y, g.line y = g.line (x + BitVec.ofNat 30 i) → M.dom y) :
    (lv.writeBlock (byteAddr x) ws).Consistent M ∧
      ((lv.writeBlock (byteAddr x) ws).state M).view = writeMany (lv.state M).view x ws := by
  induction ws generalizing lv x with
  | nil => exact ⟨h, rfl⟩
  | cons w ws ih =>
    have h0 : ∀ y, g.line y = g.line x → M.dom y := by simpa using hdom 0 (by simp)
    obtain ⟨h1, h2⟩ := h.writeWord x w h0
    rw [Level.writeBlock, writeMany, byteAddr_add_four, ← h2]
    refine ih h1 (x + 1) fun i hi => ?_
    have := hdom (i + 1) (by simpa using hi)
    rwa [BitVec.ofNat_add, BitVec.add_comm (BitVec.ofNat 30 i), ← BitVec.add_assoc] at this

end Consistent

/-- A level over a word memory is a word memory again, whose contents are what
the level shows. It backs the lines the memory backs. -/
def wordMemory (g : Geometry) (M : WordMemory σ) : WordMemory (Level g σ) where
  inv := Consistent M
  content lv := (lv.state M).view
  dom x := ∀ y, g.line y = g.line x → M.dom y
  readWord_spec _ x h := ⟨(read_spec h.toGood x 0).1, h.read x 0,
    h.touch_view (read_spec h.toGood x 0).2.2⟩
  writeWord_spec _ x v h hdom := h.writeWord x v hdom
  readBlock_spec _ x n h := h.readBlock x n
  writeBlock_spec _ x ws h hdom := h.writeBlock x ws hdom

/-- A cache just built shows the memory. -/
theorem init_consistent (n : Nat) {memory : σ} (h : M.inv memory) :
    (⟨Cache.init g n, memory⟩ : Level g σ).Consistent M where
  wf := Cache.init_wf n
  inv := h
  backed x hd := by simp [Cache.init_lines, Lines.empty] at hd
  clean x v hx := by simp [state, Cache.init_lines, Lines.empty] at hx

theorem init_view (n : Nat) (memory : σ) :
    ((⟨Cache.init g n, memory⟩ : Level g σ).state M).view = M.content memory := by
  funext x
  simp [state, State.view, Cache.init_lines, Lines.empty]

end Level
end RiscvEmulator.Memory
