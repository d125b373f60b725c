import RiscvEmulator.Lib.LruStack
import RiscvEmulator.Memory.CacheOrder

/-! # How long a line stays

The valid tags of a set in replacement order are a table that gives up the tag used least
recently. So a line that was read or written stays until as many others of its set have
been as the set has ways, and of two caches that differ in their ways alone, the larger one
holds at every moment of every run the lines of the smaller one, and misses no more often. -/
namespace RiscvEmulator.Memory
open Lib Lib.LruStack

namespace Cache
variable {g : Geometry} {c c' : Cache g} {s : Fin g.numSets} {w : Fin g.ways} {a t : Word}
  {log : Log g}

/-- The tag that a way holds. -/
def tagIn (c : Cache g) (s : Fin g.numSets) (w : Fin g.ways) : Option Word :=
  if (c.cacheEntries s w).valid then some (c.cacheEntries s w).tag else none

/-- The tags of a set, from the one used last on. -/
def resident (c : Cache g) (s : Fin g.numSets) : List Word := keys (c.tagIn s) (c.lruLists s)

theorem tagIn_eq_some : c.tagIn s w = some t ↔ c.lineIn s w = some (s, t) := by
  unfold tagIn lineIn
  split <;> simp

theorem tagIn_eq_none : c.tagIn s w = none ↔ c.lineIn s w = none := by
  unfold tagIn lineIn
  split <;> simp

theorem tagIn_congr (h : c'.lineIn s w = c.lineIn s w) : c'.tagIn s w = c.tagIn s w := by
  refine Option.ext fun t => ?_
  rw [tagIn_eq_some, tagIn_eq_some, h]

theorem resident_congr (horder : c'.lruLists s = c.lruLists s)
    (hlines : ∀ w, c'.lineIn s w = c.lineIn s w) : c'.resident s = c.resident s := by
  have htags : c'.tagIn s = c.tagIn s := funext fun w => tagIn_congr (hlines w)
  unfold resident
  rw [horder, htags]

theorem InOrder.mem_resident (h : c.InOrder log) :
    g.getTag a ∈ c.resident (g.setOf a) ↔ (c.findEntry a).isSome := by
  unfold resident
  rw [mem_keys]
  constructor
  · rintro ⟨w, _, hw⟩
    cases hf : c.findEntry a with
    | some _ => rfl
    | none => exact absurd (tagIn_eq_some.mp hw) (lineIn_of_miss hf _ w)
  · intro hsome
    obtain ⟨w, hw⟩ := Option.isSome_iff_exists.mp hsome
    exact ⟨w, h.mem _ w, tagIn_eq_some.mpr (lineIn_of_findEntry hw)⟩

end Cache

namespace Geometry
variable (g : Geometry)

/-- What the table of a set sees of an act on the line of an address. -/
def onSet (s : Fin g.numSets) (a : Word) (f : Word → Act Word) : List (Act Word) :=
  if s = g.setOf a then [f (g.getTag a)] else []

end Geometry

/-! ## What an access and an invalidation do to a set -/

namespace Cache
variable {g : Geometry} {c c' : Cache g} {s : Fin g.numSets} {w : Fin g.ways} {a : Word}
  {log : Log g}

/-- A line comes to the front, in its way, in a free one or in the last one of a full set. -/
theorem InOrder.resident_use (h : c.InOrder log)
    (horder : c'.lruLists = Function.update c.lruLists (g.setOf a)
      (w :: (c.lruLists (g.setOf a)).filter (· != w)))
    (hline : ∀ s j, c'.lineIn s j =
      if s = g.setOf a ∧ j = w then some (g.lineOf a) else c.lineIn s j)
    (hnew : ∀ j, j ≠ w → c.lineIn (g.setOf a) j ≠ some (g.lineOf a))
    (hslot : c.lineIn (g.setOf a) w = some (g.lineOf a) ∨ c.lineIn (g.setOf a) w = none ∨
      (∀ j, c.lineIn (g.setOf a) j ≠ none) ∧ (c.lruLists (g.setOf a)).getLast? = some w)
    (s : Fin g.numSets) :
    c'.resident s = run g.ways (c.resident s) (g.onSet s a .use) := by
  unfold Geometry.onSet
  by_cases hs : s = g.setOf a
  · subst hs
    have hways : (c.lruLists (g.setOf a)).length = g.ways := by
      rw [(h.perm _).length_eq, List.length_finRange]
    have hkey : c'.tagIn (g.setOf a) w = some (g.getTag a) := by
      rw [tagIn_eq_some, hline, if_pos ⟨rfl, rfl⟩]
      rfl
    have hsame : ∀ j, j ≠ w → c'.tagIn (g.setOf a) j = c.tagIn (g.setOf a) j := fun j hj =>
      tagIn_congr (by rw [hline, if_neg fun hand => hj hand.2])
    rw [if_pos rfl]
    show keys _ (c'.lruLists (g.setOf a)) =
      LruStack.use g.ways (c.resident (g.setOf a)) (g.getTag a)
    rw [horder, Function.update_self]
    refine keys_use hways (h.nodup _) (h.mem _ w) hkey hsame (fun j hj hk => ?_) ?_
    · exact hnew j hj (tagIn_eq_some.mp hk)
    · refine hslot.imp tagIn_eq_some.mpr (Or.imp tagIn_eq_none.mpr fun ⟨hfull, hlast⟩ => ?_)
      exact ⟨fun j _ hnone => hfull j (tagIn_eq_none.mp hnone), hlast⟩
  · rw [if_neg hs]
    refine resident_congr (by rw [horder, Function.update_of_ne hs]) fun j => ?_
    rw [hline, if_neg fun hand => hs hand.1]

theorem lineIn_eq_none_of_invalid (h : (c.cacheEntries s w).valid = false) :
    c.lineIn s w = none := by
  unfold lineIn
  simp [h]

/-- The way that is allocated was free, or the last one of a full set. -/
theorem InOrder.allocateAlone_slot (h : c.InOrder log) (s : Fin g.numSets) (tag : Word) :
    let w := (c.allocateAlone s tag).1
    c.lineIn s w = none ∨
      (∀ j, c.lineIn s j ≠ none) ∧ (c.lruLists s).getLast? = some w := by
  unfold allocateAlone
  cases hfree : c.findInvalid s with
  | some w =>
    have hw := List.find?_some hfree
    exact .inl (lineIn_eq_none_of_invalid (by simpa using hw))
  | none =>
    obtain ⟨w, hlast⟩ := Lib.Recency.exists_last (h.perm s) g.ways_pos
    dsimp only
    rw [evictAlone_findInvalid hfree hlast]
    refine .inr ⟨fun j hj => ?_, hlast⟩
    have hvalid := valid_of_findInvalid hfree j
    have hheld : c.lineIn s j = some (s, (c.cacheEntries s j).tag) :=
      lineIn_eq_some.mpr ⟨hvalid, rfl⟩
    rw [hj] at hheld
    cases hheld

theorem InOrder.resident_hit (h : c.InOrder log) (hw : c.findEntry a = some w)
    (s : Fin g.numSets) :
    (c.updateLru (g.setOf a) w).resident s = run g.ways (c.resident s) (g.onSet s a .use) := by
  have hline := lineIn_of_findEntry hw
  refine h.resident_use rfl (fun s j => ?_) (fun j hj hl => ?_) (.inl hline) s
  · show c.lineIn s j = _
    split
    · next hand => rw [hand.1, hand.2, hline]
    · rfl
  · exact hj (h.unique _ j w (hl.trans hline.symm) (hl ▸ rfl))

theorem InOrder.resident_miss (h : c.InOrder log) (hmiss : c.findEntry a = none)
    (f : CacheStats → CacheStats) {r : Fin g.ways × Cache g}
    (hr : (c.mapStats f).allocateAlone (g.setOf a) (g.getTag a) = r) (s : Fin g.numSets) :
    (r.2.updateLru (g.setOf a) r.1).resident s =
      run g.ways (c.resident s) (g.onSet s a .use) := by
  have h₀ : (c.mapStats f).InOrder log := h.keeps (.of_eq rfl rfl)
  obtain ⟨w, hw, hlines, horder⟩ := h₀.allocateAlone_spec (g.setOf a) (g.getTag a)
  have hslot := h₀.allocateAlone_slot (g.setOf a) (g.getTag a)
  rw [hw] at hslot
  rw [← hr, hw]
  exact h₀.resident_use horder hlines (fun j _ => lineIn_of_miss hmiss _ j) (.inr hslot) s

/-- A line leaves its set. -/
theorem InOrder.resident_invalidate (h : c.InOrder log) (a : Word) (s : Fin g.numSets) :
    (c.invalidate a).resident s = run g.ways (c.resident s) (g.onSet s a .drop) := by
  unfold Geometry.onSet invalidate
  cases hf : c.findEntry a with
  | none =>
    dsimp only
    split
    · next hs =>
      subst hs
      have hmissing : g.getTag a ∉ c.resident (g.setOf a) := by
        rw [h.mem_resident, hf]
        simp
      exact (List.erase_of_not_mem hmissing).symm
    · rfl
  | some w =>
    have hline := lineIn_of_findEntry hf
    have hsame : ∀ s' j, ¬(s' = g.setOf a ∧ j = w) → (c.setEntry (g.setOf a) w
        { c.cacheEntries (g.setOf a) w with valid := false, dirty := false }).lineIn s' j =
          c.lineIn s' j := fun s' j hne => by
      rw [lineIn_setEntry, if_neg hne]
    dsimp only
    split
    · next hs =>
      subst hs
      refine keys_free (h.nodup _) (tagIn_eq_some.mpr hline) (fun j hj hk => ?_) ?_ fun j hj => ?_
      · have hj' := tagIn_eq_some.mp hk
        exact hj (h.unique _ j w (hj'.trans hline.symm) (hj' ▸ rfl))
      · rw [tagIn_eq_none, lineIn_setEntry]
        simp
      · exact tagIn_congr (hsame _ j fun hand => hj hand.2)
    · next hs =>
      exact resident_congr rfl fun j => hsame s j fun hand => hs hand.1

theorem resident_invalidateAll (c : Cache g) (s : Fin g.numSets) :
    c.invalidateAll.resident s = [] := by
  unfold resident keys
  exact List.filterMap_eq_nil_iff.mpr fun _ _ => rfl

theorem resident_init (g : Geometry) (numCores : Nat) (s : Fin g.numSets) :
    (init g numCores).resident s = [] := by
  unfold resident keys
  exact List.filterMap_eq_nil_iff.mpr fun _ _ => rfl

/-- The ways keep their lines and their order. -/
structure SameLines (c c' : Cache g) : Prop where
  order : c'.lruLists = c.lruLists
  lines : ∀ s w, c'.lineIn s w = c.lineIn s w

theorem SameLines.refl (c : Cache g) : c.SameLines c := ⟨rfl, fun _ _ => rfl⟩

theorem SameLines.trans {c₁ c₂ : Cache g} (h : c.SameLines c₁) (h' : c₁.SameLines c₂) :
    c.SameLines c₂ :=
  ⟨h'.order.trans h.order, fun s w => (h'.lines s w).trans (h.lines s w)⟩

theorem SameLines.setEntry {e : CacheEntry} (hvalid : e.valid = (c.cacheEntries s w).valid)
    (htag : e.tag = (c.cacheEntries s w).tag) : c.SameLines (c.setEntry s w e) where
  order := rfl
  lines s' w' := by
    rw [lineIn_setEntry]
    split
    · next hand =>
      rw [hand.1, hand.2, hvalid, htag]
      rfl
    · rfl

theorem SameLines.updateLru (h : c.SameLines c') (s : Fin g.numSets) (w : Fin g.ways) :
    (c.updateLru s w).SameLines (c'.updateLru s w) where
  order := by
    unfold Cache.updateLru
    rw [h.order]
  lines := h.lines

theorem SameLines.resident (h : c.SameLines c') (s : Fin g.numSets) :
    c'.resident s = c.resident s :=
  resident_congr (congrFun h.order s) (h.lines s)

end Cache

/-! ## Operations -/

namespace Level
variable {g : Geometry} {σ : Type} [MemoryInterface σ] {lv : Level g σ} {log : Log g}

theorem access_resident (lv : Level g σ) (h : lv.cache.InOrder log) (a : Word) (coreId : Nat)
    (s : Fin g.numSets) : (lv.access a coreId).2.2.cache.resident s =
      run g.ways (lv.cache.resident s) (g.onSet s a .use) := by
  unfold access
  cases hf : lv.cache.findEntry a with
  | some w => exact h.resident_hit hf s
  | none =>
    let lv₀ := lv.mapCache (·.mapStats (·.miss g.toCacheConfig coreId))
    have hmiss := h.resident_miss hf (·.miss g.toCacheConfig coreId)
      (lv₀.allocateEntry_cache (g.setOf a) (g.getTag a)).symm s
    have hload : (lv₀.allocateEntry (g.setOf a) (g.getTag a)).2.cache.SameLines
        ((lv₀.allocateEntry (g.setOf a) (g.getTag a)).2.loadBlock a (g.setOf a)
          (lv₀.allocateEntry (g.setOf a) (g.getTag a)).1).cache := Cache.SameLines.setEntry rfl rfl
    rw [← hmiss]
    exact (hload.updateLru _ _).resident s

omit [MemoryInterface σ] in
theorem setWord_resident (lv : Level g σ) (a data : Word) (w : Fin g.ways) (mark : Bool)
    (s : Fin g.numSets) : (lv.setWord a data w mark).cache.resident s = lv.cache.resident s := by
  have hset : lv.cache.SameLines (lv.setWord a data w mark).cache :=
    Cache.SameLines.setEntry rfl rfl
  exact hset.resident s

theorem write_resident (lv : Level g σ) (h : lv.cache.InOrder log) (addr physAddr data : Word)
    (coreId : Nat) (s : Fin g.numSets) :
    (lv.write addr physAddr data coreId).2.cache.resident s =
      run g.ways (lv.cache.resident s) (match writeThroughAddr addr physAddr with
        | some writeAddr => g.onSet s writeAddr .drop
        | none => g.onSet s physAddr .use) := by
  unfold write
  cases writeThroughAddr addr physAddr with
  | some writeAddr =>
    dsimp only
    cases hf : lv.cache.findEntry writeAddr with
    | none =>
      have hdrop := h.resident_invalidate writeAddr s
      unfold Cache.invalidate at hdrop
      rw [hf] at hdrop
      exact hdrop
    | some w =>
      have hset : (lv.setWord writeAddr data w false).cache.InOrder log :=
        h.keeps (Cache.setWordAlone_keeps lv.cache writeAddr data w false)
      rw [← setWord_resident lv writeAddr data w false s]
      exact hset.resident_invalidate writeAddr s
  | none =>
    dsimp only
    rw [setWord_resident]
    exact access_resident lv h physAddr coreId s

theorem writeWord_resident (lv : Level g σ) (h : lv.cache.InOrder log) (a data : Word)
    (s : Fin g.numSets) : (lv.writeWord a data).cache.resident s =
      run g.ways (lv.cache.resident s) (g.onSet s a .use) := by
  rw [← access_resident lv h a 0 s]
  unfold writeWord
  dsimp only
  split <;> exact setWord_resident _ _ _ _ _ s

theorem atomicUpdate_resident (lv : Level g σ) (h : lv.cache.InOrder log) (a : Word)
    (op : Word → Option Word) (coreId : Nat) (s : Fin g.numSets) :
    (lv.atomicUpdate a op coreId).2.cache.resident s =
      run g.ways (lv.cache.resident s) (g.onSet s a .drop) :=
  h.resident_invalidate a s

theorem flushWay_sameLines (lv : Level g σ) (s : Fin g.numSets) (w : Fin g.ways) :
    lv.cache.SameLines (lv.flushWay s w).cache := by
  unfold flushWay
  split
  · exact Cache.SameLines.setEntry rfl rfl
  · exact Cache.SameLines.refl _

theorem flush_sameLines (lv : Level g σ) (a : Word) : lv.cache.SameLines (lv.flush a).cache := by
  unfold flush
  split
  · exact lv.flushWay_sameLines _ _
  · exact Cache.SameLines.refl _

theorem flushRange_sameLines (lv : Level g σ) (startAddr size : Word) :
    lv.cache.SameLines (lv.flushRange startAddr size).cache := by
  unfold flushRange
  refine List.foldlRecOn _ _ (motive := fun lv' : Level g σ => lv.cache.SameLines lv'.cache)
    (Cache.SameLines.refl _) fun lv₁ h₁ s _ => ?_
  refine List.foldlRecOn _ _ (motive := fun lv' : Level g σ => lv.cache.SameLines lv'.cache)
    h₁ fun lv₂ h₂ w _ => ?_
  dsimp only
  split
  · split
    · exact h₂.trans (lv₂.flushWay_sameLines s w)
    · exact h₂
  · exact h₂

end Level

/-! ## Runs over a next level -/

/-- What the table of a set sees of a call. -/
def CacheCall.acts {σ : Type} (g : Geometry) (s : Fin g.numSets) : CacheCall σ → List (Act Word)
  | .read physAddr _ | .readWord physAddr | .writeWord physAddr _ => g.onSet s physAddr .use
  | .write addr physAddr _ _ =>
    match writeThroughAddr addr physAddr with
    | some writeAddr => g.onSet s writeAddr .drop
    | none => g.onSet s physAddr .use
  | .atomic physAddr _ _ _ _ => g.onSet s physAddr .drop
  | .setMemoryInterface _ => []

namespace CacheStep
variable {σ : Type}

def acts (g : Geometry) (s : Fin g.numSets) : CacheStep σ → List (Act Word)
  | .call c => c.acts g s
  | .invalidate addr => g.onSet s addr .drop
  | .invalidateAll => [.clear]
  | .flush _ | .flushRange _ _ => []

/-- The next level is not taken away. -/
def StaysConnected : CacheStep σ → Prop
  | .call (.setMemoryInterface memory) => memory.isSome
  | _ => True

end CacheStep

namespace Level
variable {g : Geometry} {σ : Type} [MemoryInterface σ] {lv : Level g (Option σ)} {log : Log g}

omit [MemoryInterface σ] in
/-- A new cache over a next level. -/
def connected (g : Geometry) (numCores : Nat) (memory : σ) : Level g (Option σ) :=
  ⟨Cache.init g numCores, some memory⟩

theorem step_connected (hlv : lv.memory.isSome) {st : CacheStep σ} (hst : st.StaysConnected) :
    (lv.step st).memory.isSome := by
  obtain ⟨cache, memory⟩ := lv
  obtain ⟨memory, rfl⟩ := Option.isSome_iff_exists.mp hlv
  cases st with
  | call c =>
    cases c with
    | setMemoryInterface memory' => exact hst
    | _ => rfl
  | _ => rfl

theorem step_resident (hlv : lv.memory.isSome) (h : lv.cache.InOrder log) (st : CacheStep σ)
    (s : Fin g.numSets) :
    (lv.step st).cache.resident s = run g.ways (lv.cache.resident s) (st.acts g s) := by
  obtain ⟨cache, memory⟩ := lv
  obtain ⟨memory, rfl⟩ := Option.isSome_iff_exists.mp hlv
  cases st with
  | call c =>
    cases c with
    | read physAddr coreId => exact access_resident ⟨cache, memory⟩ h physAddr coreId s
    | write addr physAddr data coreId =>
      exact write_resident ⟨cache, memory⟩ h addr physAddr data coreId s
    | readWord physAddr => exact access_resident ⟨cache, memory⟩ h physAddr 0 s
    | writeWord physAddr data => exact writeWord_resident ⟨cache, memory⟩ h physAddr data s
    | atomic physAddr readAddr writeAddr op coreId =>
      exact atomicUpdate_resident ⟨cache, memory⟩ h physAddr op coreId s
    | setMemoryInterface memory' => rfl
  | invalidate addr => exact h.resident_invalidate addr s
  | invalidateAll => exact cache.resident_invalidateAll s
  | flush addr => exact (flush_sameLines ⟨cache, memory⟩ addr).resident s
  | flushRange startAddr size =>
    exact (flushRange_sameLines ⟨cache, memory⟩ startAddr size).resident s

/-- The sets of a cache in order run as their tables do. -/
theorem steps_resident (hlv : lv.memory.isSome) (h : lv.cache.InOrder log)
    {steps : List (CacheStep σ)} (hsteps : ∀ st ∈ steps, st.StaysConnected)
    (s : Fin g.numSets) : (steps.foldl step lv).cache.resident s =
      run g.ways (lv.cache.resident s) (steps.flatMap (·.acts g s)) := by
  induction steps generalizing lv log with
  | nil => rfl
  | cons st steps ih =>
    have hnext := step_connected hlv (hsteps st List.mem_cons_self)
    rw [List.foldl_cons, ih hnext (step_inOrder h st)
      fun st' hst' => hsteps st' (List.mem_cons_of_mem st hst'), step_resident hlv h,
      List.flatMap_cons]
    unfold run
    rw [List.foldl_append]

/-- The steps after which a cache is in order. -/
theorem steps_inOrder (h : lv.cache.InOrder log) (steps : List (CacheStep σ)) :
    ∃ log', (steps.foldl step lv).cache.InOrder log' := by
  induction steps generalizing lv log with
  | nil => exact ⟨log, h⟩
  | cons st steps ih => exact ih (step_inOrder h st)

end Level

/-! ## More ways -/

namespace Geometry

/-- The same blocks and sets, and as many ways or more. -/
structure Wider (g g' : Geometry) : Prop where
  blockSize : g'.blockSize = g.blockSize
  numSets : g'.numSets = g.numSets
  ways : g.ways ≤ g'.ways

namespace Wider
variable {g g' : Geometry} (h : g.Wider g')
include h

/-- The set of the same number. -/
def set (s : Fin g.numSets) : Fin g'.numSets := Fin.cast h.numSets.symm s

theorem setOf_eq (a : Word) : g'.setOf a = h.set (g.setOf a) := by
  apply Fin.ext
  show (g'.getSetIndex a).toNat = (g.getSetIndex a).toNat
  unfold getSetIndex CacheConfig.blockOffsetBits CacheConfig.setIndexBits
  rw [h.blockSize, h.numSets]

theorem getTag_eq (a : Word) : g'.getTag a = g.getTag a := by
  unfold getTag CacheConfig.tagShift CacheConfig.blockOffsetBits CacheConfig.setIndexBits
  rw [h.blockSize, h.numSets]

theorem onSet_eq (s : Fin g.numSets) (a : Word) (f : Word → Act Word) :
    g'.onSet (h.set s) a f = g.onSet s a f := by
  have hiff : h.set s = g'.setOf a ↔ s = g.setOf a := by
    rw [h.setOf_eq]
    exact ⟨fun heq => Fin.cast_injective _ heq, fun heq => heq ▸ rfl⟩
  unfold onSet
  simp only [hiff, h.getTag_eq]

theorem acts_eq {σ : Type} (s : Fin g.numSets) (st : CacheStep σ) :
    st.acts g' (h.set s) = st.acts g s := by
  cases st with
  | call c =>
    cases c with
    | write addr physAddr data coreId =>
      show (match writeThroughAddr addr physAddr with | some _ => _ | none => _) = _
      simp only [h.onSet_eq]
      rfl
    | setMemoryInterface memory => rfl
    | _ => exact h.onSet_eq s _ _
  | invalidate addr => exact h.onSet_eq s addr _
  | _ => rfl

end Wider
end Geometry

/-- The sets of the wider cache begin as those of the other one. -/
structure Includes {g g' : Geometry} (h : g.Wider g') (c : Cache g) (c' : Cache g') : Prop where
  inOrder : ∃ log, c.InOrder log
  inOrder' : ∃ log, c'.InOrder log
  sets : ∀ s, c.resident s <+: c'.resident (h.set s)

namespace Includes
variable {g g' : Geometry} {h : g.Wider g'}

theorem start (h : g.Wider g') {σ : Type} (numCores : Nat) (memory memory' : σ) :
    Includes h (Level.connected g numCores memory).cache
      (Level.connected g' numCores memory').cache where
  inOrder := ⟨_, .init g numCores⟩
  inOrder' := ⟨_, .init g' numCores⟩
  sets s := by
    unfold Level.connected
    rw [Cache.resident_init, Cache.resident_init]

variable {c : Cache g} {c' : Cache g'}

/-- What the cache has, the wider one has. -/
theorem findEntry (hc : Includes h c c') (a : Word) (hfound : (c.findEntry a).isSome) :
    (c'.findEntry a).isSome := by
  obtain ⟨_, horder⟩ := hc.inOrder
  obtain ⟨_, horder'⟩ := hc.inOrder'
  rw [← horder'.mem_resident, h.getTag_eq, h.setOf_eq]
  exact (hc.sets _).subset (horder.mem_resident.mpr hfound)

variable {σ : Type} [MemoryInterface σ] {lv : Level g (Option σ)} {lv' : Level g' (Option σ)}

theorem step (hc : Includes h lv.cache lv'.cache) (hlv : lv.memory.isSome)
    (hlv' : lv'.memory.isSome) (st : CacheStep σ) :
    Includes h (lv.step st).cache (lv'.step st).cache := by
  obtain ⟨_, horder⟩ := hc.inOrder
  obtain ⟨_, horder'⟩ := hc.inOrder'
  refine ⟨⟨_, Level.step_inOrder horder st⟩, ⟨_, Level.step_inOrder horder' st⟩, fun s => ?_⟩
  rw [Level.step_resident hlv horder, Level.step_resident hlv' horder', h.acts_eq]
  exact run_prefix (hc.sets s) h.ways _

theorem steps (hc : Includes h lv.cache lv'.cache) (hlv : lv.memory.isSome)
    (hlv' : lv'.memory.isSome) {steps : List (CacheStep σ)}
    (hsteps : ∀ st ∈ steps, st.StaysConnected) :
    Includes h (steps.foldl Level.step lv).cache (steps.foldl Level.step lv').cache := by
  induction steps generalizing lv lv' with
  | nil => exact hc
  | cons st steps ih =>
    have hst := hsteps st List.mem_cons_self
    exact ih (hc.step hlv hlv' st) (Level.step_connected hlv hst) (Level.step_connected hlv' hst)
      fun st' hst' => hsteps st' (List.mem_cons_of_mem st hst')

/-- An access that hits, or two of the same core of which the second one hits if the first
one does. -/
def NoWorse (e e' : Counted) : Prop := e'.coreId = e.coreId ∧ (e.isHit = true → e'.isHit = true)

omit [MemoryInterface σ] in
theorem outcomes (hc : Includes h lv.cache lv'.cache) (hlv : lv.memory.isSome)
    (hlv' : lv'.memory.isSome) (call : CacheCall σ) :
    List.Forall₂ NoWorse (Counting.outcomes lv call) (Counting.outcomes lv' call) := by
  obtain ⟨cache, memory⟩ := lv
  obtain ⟨cache', memory'⟩ := lv'
  obtain ⟨memory, rfl⟩ := Option.isSome_iff_exists.mp hlv
  obtain ⟨memory', rfl⟩ := Option.isSome_iff_exists.mp hlv'
  cases call with
  | read physAddr coreId => exact .cons ⟨rfl, hc.findEntry physAddr⟩ .nil
  | write addr physAddr data coreId =>
    refine .cons ⟨rfl, fun hhit => ?_⟩ .nil
    simp only [Bool.or_eq_true] at hhit ⊢
    exact hhit.imp id (hc.findEntry physAddr)
  | readWord physAddr => exact .cons ⟨rfl, hc.findEntry physAddr⟩ .nil
  | writeWord physAddr data => exact .cons ⟨rfl, hc.findEntry physAddr⟩ .nil
  | atomic physAddr readAddr writeAddr op coreId => exact .cons ⟨rfl, id⟩ .nil
  | setMemoryInterface memory => exact .nil

theorem outcomesOf (hc : Includes h lv.cache lv'.cache) (hlv : lv.memory.isSome)
    (hlv' : lv'.memory.isSome) {calls : List (CacheCall σ)}
    (hcalls : ∀ call ∈ calls, (CacheStep.call call).StaysConnected) :
    List.Forall₂ NoWorse (Counting.outcomesOf lv calls) (Counting.outcomesOf lv' calls) := by
  induction calls generalizing lv lv' with
  | nil => exact .nil
  | cons call calls ih =>
    have hcall := hcalls call List.mem_cons_self
    refine List.rel_append (hc.outcomes hlv hlv' call) (ih (hc.step hlv hlv' (.call call)) ?_ ?_
      fun call' hcall' => hcalls call' (List.mem_cons_of_mem call hcall'))
    · exact Level.step_connected hlv hcall
    · exact Level.step_connected hlv' hcall

theorem missCount_le {events events' : List Counted} (h : List.Forall₂ NoWorse events events') :
    CacheStats.missCount events' ≤ CacheStats.missCount events := by
  unfold CacheStats.missCount
  induction h with
  | nil => exact Nat.le_refl 0
  | @cons e e' events events' he _ ih =>
    rw [List.countP_cons, List.countP_cons]
    refine Nat.add_le_add ih ?_
    cases hhit : e.isHit with
    | true => simp [he.2 hhit]
    | false => split <;> simp

end Includes

/-- Over any next levels: what a cache holds at a moment of a run, one with more ways and the
same sets holds then, and it counts as many accesses and no more misses. -/
theorem cache_inclusion {g g' : Geometry} (h : g.Wider g') {σ : Type} [MemoryInterface σ]
    (numCores : Nat) (memory memory' : σ) :
    (∀ ops : List (CacheOp σ), (∀ op ∈ ops, ∀ st ∈ op.steps, st.StaysConnected) →
      ∀ a, ((ops.foldl Level.apply (.connected g numCores memory)).cache.findEntry a).isSome →
        ((ops.foldl Level.apply (.connected g' numCores memory')).cache.findEntry a).isSome) ∧
    ∀ calls : List (CacheCall σ), (∀ c ∈ calls, (CacheStep.call c).StaysConnected) →
      let start := Level.connected g numCores memory
      let start' := Level.connected g' numCores memory'
      CacheStats.Fits g.toCacheConfig (Counting.outcomesOf start calls) →
      CacheStats.Fits g'.toCacheConfig (Counting.outcomesOf start' calls) →
      let stats := (Counting.afterCalls start calls).cache.stats
      let stats' := (Counting.afterCalls start' calls).cache.stats
      stats'.accesses = stats.accesses ∧ stats'.misses ≤ stats.misses := by
  have hstart := Includes.start h numCores memory memory'
  constructor
  · intro ops hops a hfound
    rw [Level.apply_run] at hfound ⊢
    have hsteps : ∀ st ∈ ops.flatMap CacheOp.steps, st.StaysConnected := by
      intro st hst
      obtain ⟨op, hop, hst⟩ := List.mem_flatMap.mp hst
      exact hops op hop st hst
    exact (hstart.steps rfl rfl hsteps).findEntry a hfound
  · intro calls hcalls start start' hfits hfits' stats stats'
    have houtcomes := hstart.outcomesOf rfl rfl hcalls
    have hrun : CacheStats.Recorded g.toCacheConfig numCores [] start.cache.stats := .start
    have hrun' : CacheStats.Recorded g'.toCacheConfig numCores [] start'.cache.stats := .start
    have htally := (Counting.afterCalls_recorded hrun calls).tally hfits
    have htally' := (Counting.afterCalls_recorded hrun' calls).tally hfits'
    refine ⟨BitVec.eq_of_toNat_eq ?_, BitVec.le_def.mpr ?_⟩
    · rw [htally'.accesses, htally.accesses]
      exact houtcomes.length_eq.symm
    · rw [htally'.misses, htally.misses]
      exact Includes.missCount_le houtcomes

/-- Twice the size and twice the ways of a cache of a core. -/
def wideConfig : CacheConfig where
  size := 8192
  associativity := 8
  blockSize := 64
  accessLatency := 1
  missPenalty := 10

theorem wideConfig_accepted : wideConfig.Accepted := by decide

theorem wideConfig_wordBlocks : 4 ≤ wideConfig.blockSize.toNat := by decide

def wideGeometry : Geometry where
  toCacheConfig := wideConfig
  accepted := wideConfig_accepted
  wordBlocks := wideConfig_wordBlocks

/-- Five blocks of one set, and the first one again. -/
theorem cache_inclusion_wide :
    let calls : List (CacheCall (ByteMemory 4096)) :=
      [.read 0 0, .read 0x400 0, .read 0x800 0, .read 0xC00 0, .read 0x1000 0, .read 0 0]
    let stats := (Counting.afterCalls (.connected l1Geometry 1 ⟨fun _ => 0⟩) calls).cache.stats
    let stats' := (Counting.afterCalls (.connected wideGeometry 1 ⟨fun _ => 0⟩) calls).cache.stats
    stats'.accesses = stats.accesses ∧ stats'.misses ≤ stats.misses := by
  intro calls
  have hwider : l1Geometry.Wider wideGeometry := ⟨rfl, by decide, by decide⟩
  refine (cache_inclusion hwider 1 _ _).2 calls (fun c hc => ?_) ⟨?_, ?_⟩ ⟨?_, ?_⟩
  · simp only [calls, List.mem_cons, List.not_mem_nil, or_false] at hc
    rcases hc with rfl | rfl | rfl | rfl | rfl | rfl <;> trivial
  all_goals decide +kernel

/-! ## Other lines of the set -/

namespace CacheStep
variable {σ : Type} {g : Geometry} {st : CacheStep σ}

/-- The address that is read or written in the cache. -/
def used : CacheStep σ → Option Word
  | .call (.read physAddr _) | .call (.readWord physAddr) | .call (.writeWord physAddr _) =>
    some physAddr
  | .call (.write addr physAddr _ _) =>
    match writeThroughAddr addr physAddr with
    | some _ => none
    | none => some physAddr
  | _ => none

/-- Nothing leaves the cache for it unless its place is needed. -/
def KeepsLines : CacheStep σ → Prop
  | .call (.write addr physAddr _ _) => writeThroughAddr addr physAddr = none
  | .call (.atomic _ _ _ _ _) | .invalidate _ | .invalidateAll => False
  | .call (.setMemoryInterface memory) => memory.isSome
  | _ => True

theorem KeepsLines.staysConnected (h : st.KeepsLines) : st.StaysConnected := by
  cases st with
  | call c =>
    cases c with
    | setMemoryInterface memory => exact h
    | _ => trivial
  | _ => trivial

theorem KeepsLines.acts_eq (h : st.KeepsLines) (s : Fin g.numSets) :
    st.acts g s = (st.used.toList.flatMap fun a => g.onSet s a .use) := by
  cases st with
  | call c =>
    cases c with
    | write addr physAddr data coreId =>
      have hnone : writeThroughAddr addr physAddr = none := h
      simp [acts, CacheCall.acts, used, hnone]
    | atomic physAddr readAddr writeAddr op coreId => exact h.elim
    | setMemoryInterface memory => rfl
    | _ => exact (List.append_nil _).symm
  | invalidate addr => exact h.elim
  | invalidateAll => exact h.elim
  | _ => rfl

end CacheStep

/-- The tags of a set that are used, one after the other. -/
def Geometry.tagsUsed {σ : Type} (g : Geometry) (s : Fin g.numSets) (steps : List (CacheStep σ)) :
    List Word :=
  ((steps.filterMap CacheStep.used).filter (g.setOf · = s)).map g.getTag

theorem run_tagsUsed {σ : Type} {g : Geometry} {s : Fin g.numSets} {steps : List (CacheStep σ)}
    (hsteps : ∀ st ∈ steps, st.KeepsLines) (stack : List Word) :
    run g.ways stack (steps.flatMap (·.acts g s)) =
      (g.tagsUsed s steps).foldl (use g.ways) stack := by
  induction steps generalizing stack with
  | nil => rfl
  | cons st steps ih =>
    have hst := hsteps st List.mem_cons_self
    have hrest := ih fun st' hst' => hsteps st' (List.mem_cons_of_mem st hst')
    rw [List.flatMap_cons, hst.acts_eq s]
    unfold run Geometry.tagsUsed at hrest ⊢
    rw [List.foldl_append, hrest]
    cases hused : st.used with
    | none =>
      rw [List.filterMap_cons_none hused]
      rfl
    | some a =>
      rw [List.filterMap_cons_some hused]
      unfold Geometry.onSet
      by_cases hs : s = g.setOf a
      · simp [hs, act]
      · simp [hs, Ne.symm hs]

/-- A line that is read or written stays exactly as long as fewer other lines of its set are
than the set has ways. -/
theorem line_stays {g : Geometry} {σ : Type} [MemoryInterface σ] (numCores : Nat) (memory : σ)
    {before later : List (CacheStep σ)} {st : CacheStep σ} {a : Word}
    (hbefore : ∀ st ∈ before, st.StaysConnected) (hst : st.KeepsLines) (hused : st.used = some a)
    (hlater : ∀ st ∈ later, st.KeepsLines)
    (hothers : g.getTag a ∉ g.tagsUsed (g.setOf a) later) :
    (((before ++ st :: later).foldl Level.step
        (.connected g numCores memory)).cache.findEntry a).isSome ↔
      (g.tagsUsed (g.setOf a) later).toFinset.card < g.ways := by
  have hinit : (Level.connected g numCores memory).cache.InOrder (.empty g) := .init g numCores
  have hsteps : ∀ st' ∈ before ++ st :: later, st'.StaysConnected := by
    intro st' hst'
    rcases List.mem_append.mp hst' with hmem | hmem
    · exact hbefore st' hmem
    · rcases List.mem_cons.mp hmem with rfl | hmem
      · exact hst.staysConnected
      · exact (hlater st' hmem).staysConnected
  have hacts : st.acts g (g.setOf a) = [.use (g.getTag a)] := by
    rw [hst.acts_eq, hused]
    simp [Geometry.onSet]
  obtain ⟨_, horder⟩ := Level.steps_inOrder hinit (before ++ st :: later)
  rw [← horder.mem_resident, Level.steps_resident rfl hinit hsteps, List.flatMap_append,
    List.flatMap_cons, hacts]
  unfold run
  rw [List.foldl_append, List.foldl_append]
  have hrest := run_tagsUsed hlater (s := g.setOf a)
  unfold run at hrest
  rw [hrest]
  exact mem_uses_iff g.ways hothers _

/-- Two other lines of the set, one of them twice. -/
theorem line_stays_three :
    let later : List (CacheStep (ByteMemory 4096)) :=
      [.call (.read 0x400 0), .call (.read 0x800 0), .flush 0, .call (.writeWord 0x404 7)]
    ((([] ++ CacheStep.call (.read 0 0) :: later).foldl Level.step
        (.connected l1Geometry 1 (⟨fun _ => 0⟩ : ByteMemory 4096))).cache.findEntry 0).isSome ↔
      (l1Geometry.tagsUsed (l1Geometry.setOf 0) later).toFinset.card < 4 := by
  intro later
  refine line_stays 1 _ (fun _ hst => nomatch hst) trivial rfl (fun st hst => ?_) (by decide)
  simp only [later, List.mem_cons, List.not_mem_nil, or_false] at hst
  rcases hst with rfl | rfl | rfl | rfl <;> trivial

end RiscvEmulator.Memory
