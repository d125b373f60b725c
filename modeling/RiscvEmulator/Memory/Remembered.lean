import RiscvEmulator.Memory.CacheRefinement
import RiscvEmulator.Memory.Tlb

/-! # What has been looked up is remembered

Whatever the memory behind them does: a read leaves its word in the cache, and a
translation its page in the TLB, and as long as they are there the answers are the
same. All that is needed is that there always is something to give up: a way in each
set, an entry of the TLB. -/
namespace RiscvEmulator.Memory

/-! ## The cache -/

namespace Cache
variable {g : Geometry} {c : Cache g}

/-- Each set has a way to give up. -/
def Replaceable (c : Cache g) : Prop := ∀ s, c.lruLists s ≠ []

theorem init_replaceable (g : Geometry) (n : Nat) : (init g n).Replaceable := by
  intro s hnil
  have hmem := List.mem_finRange (⟨0, g.ways_pos⟩ : Fin g.ways)
  rw [show List.finRange g.ways = [] from hnil] at hmem
  cases hmem

theorem Replaceable.updateLru {c' : Cache g} (h : c.Replaceable) {s : Fin g.numSets}
    (hothers : ∀ s', s' ≠ s → c'.lruLists s' = c.lruLists s') (w : Fin g.ways) :
    (c'.updateLru s w).Replaceable := by
  intro s'
  unfold Cache.updateLru
  by_cases hs : s' = s
  · subst hs
    simp
  · simp only [Function.update_of_ne hs, hothers s' hs]
    exact h s'

end Cache

namespace Level
variable {g : Geometry} {σ : Type} [MemoryInterface σ] {lv : Level g σ} {s : Fin g.numSets}
  {w : Fin g.ways} {tag : Word} {x : WordAddr} {v : Word}

theorem evictLruEntry_lru {s' : Fin g.numSets} (lv : Level g σ) (hs : s' ≠ s) :
    (lv.evictLruEntry s).cache.lruLists s' = lv.cache.lruLists s' := by
  unfold evictLruEntry
  split
  · simp only [mapCache, Cache.popLru, Cache.setEntry_lruLists, Function.update_of_ne hs]
    split <;> rfl
  · rfl

theorem allocateEntry_lru {s' : Fin g.numSets} (lv : Level g σ) (tag : Word) (hs : s' ≠ s) :
    (lv.allocateEntry s tag).2.cache.lruLists s' = lv.cache.lruLists s' := by
  have hevict := lv.evictLruEntry_lru hs
  unfold allocateEntry
  split
  · rfl
  · simp only
    split
    · exact hevict
    · exact hevict

/-- An access makes a way the first of its set and leaves the other sets alone. -/
theorem access_replaceable (h : lv.cache.Replaceable) (a : Word) (coreId : Nat) :
    (lv.access a coreId).2.2.cache.Replaceable := by
  unfold access
  simp only
  split
  · exact h.updateLru (fun _ _ => rfl) _
  · refine h.updateLru (fun s' hs => ?_) _
    exact allocateEntry_lru (lv.mapCache (·.mapStats (·.miss g.toCacheConfig coreId))) _ hs

/-- On a miss a free way is taken, in a set that does not have the tag. -/
theorem allocateEntry_claims (h : lv.cache.Replaceable) (hn : lv.cache.lookup s tag = none) :
    ∃ (lv₁ : Level g σ) (w : Fin g.ways), lv.allocateEntry s tag = (w, lv₁.claim s w tag) ∧
      lv₁.cache.lookup s tag = none := by
  unfold allocateEntry
  cases hf : lv.cache.findInvalid s with
  | some w => exact ⟨lv, w, rfl, hn⟩
  | none =>
    obtain ⟨w, hlast⟩ := Option.ne_none_iff_exists'.mp
      fun hnil => h s (List.getLast?_eq_none_iff.mp hnil)
    have hentries := evictLruEntry_entries hlast
    exact ⟨lv.evictLruEntry s, w, by simp only [Cache.findInvalid_freed hf rfl hentries],
      Cache.lookup_freed hn rfl hentries⟩

/-- The way that has been claimed is the one that is found. -/
theorem lookup_claimed (hn : lv.cache.lookup s tag = none) (w : Fin g.ways) (a : Word) :
    ((lv.claim s w tag).loadBlock a s w).cache.lookup s tag = some w := by
  rw [Cache.lookup_eq_none_iff] at hn
  let block := (MemoryInterface.readBlock lv.memory (g.getBlockAddress a) g.wordsPerBlock).1
  let e : CacheEntry :=
    { tag := tag, data := fun i => block.getD i 0, valid := true, dirty := false }
  have hcache : ((lv.claim s w tag).loadBlock a s w).cache = lv.cache.setEntry s w e := by
    simp [loadBlock, claim, mapCache, e, block]
  rw [hcache]
  cases hl : (lv.cache.setEntry s w e).lookup s tag with
  | none =>
    have hne := Cache.lookup_eq_none_iff.mp hl w
    rw [Cache.setEntry_self] at hne
    exact absurd rfl (hne rfl)
  | some w' =>
    obtain ⟨hv', htag'⟩ := Cache.lookup_valid hl
    rw [Cache.setEntry_apply] at hv' htag'
    by_cases hw : w' = w
    · rw [hw]
    · rw [if_neg fun h => hw h.2] at hv' htag'
      exact absurd htag' (hn w' hv')

/-- After an access the way is found that it was made in. -/
theorem access_found (h : lv.cache.Replaceable) (a : Word) (coreId : Nat) :
    (lv.access a coreId).2.2.cache.findEntry a = some (lv.access a coreId).2.1 := by
  cases hf : lv.cache.findEntry a with
  | some w =>
    simp only [access, hf]
    exact hf
  | none =>
    let lv₀ := lv.mapCache (·.mapStats (·.miss g.toCacheConfig coreId))
    have hclean : lv₀.cache.Replaceable := h
    obtain ⟨lv₁, w, halloc, hn⟩ := allocateEntry_claims hclean hf
    have hfound := lookup_claimed hn w a
    simp only [access, hf]
    rw [halloc]
    exact hfound

/-- A read leaves what it returns in the cache. -/
theorem read_held (h : lv.cache.Replaceable) (a : Word) (coreId : Nat) :
    (lv.read a coreId).2.2.cache.lines.held (wordOf a) = some (lv.read a coreId).2.1 := by
  rw [read_wordOf]
  have hfound := access_found h (byteAddr (wordOf a)) coreId
  unfold read
  simp only [g.wordIndex_byteAddr]
  exact held_of_findEntry hfound

/-- A read of a held word returns it, and changes no line. -/
theorem read_of_held {a : Word} (h : lv.cache.lines.held (wordOf a) = some v) (coreId : Nat) :
    (lv.read a coreId).2.1 = v ∧ (lv.read a coreId).2.2.cache.lines = lv.cache.lines := by
  rw [read_wordOf]
  cases hf : lv.cache.findEntry (byteAddr (wordOf a)) with
  | none =>
    rw [Cache.held_eq_none_iff.mpr hf] at h
    cases h
  | some w =>
    rw [held_of_findEntry hf] at h
    simp only [read, access, hf, g.wordIndex_byteAddr]
    exact ⟨Option.some.inj h, Cache.lines_congr rfl⟩

end Level

/-! ## The TLB -/

namespace MMU
variable {config : MMUConfig} {m : MMU config} {vaddr paddr : Word}

/-- There is an entry to give up. -/
def Replaceable (m : MMU config) : Prop := m.tlbLru ≠ []

theorem Replaceable.updateTlbLru (h : m.Replaceable) (k : Fin config.tlbEntries) :
    (m.updateTlbLru k).Replaceable := by
  unfold MMU.updateTlbLru
  split
  · exact List.cons_ne_nil _ _
  · exact h

theorem Replaceable.findTlbEntry (h : m.Replaceable) (vaddr : Word) :
    (m.findTlbEntry vaddr).2.Replaceable := by
  unfold MMU.findTlbEntry
  simp only
  split
  · split
    · exact h.updateTlbLru _
    · exact h
  · exact h

theorem Replaceable.loadTlbEntry (h : m.Replaceable) (vaddr : Word) (pte : PageTableEntry) :
    (m.loadTlbEntry vaddr pte).Replaceable := by
  have halloc : (m.allocateTlbEntry vaddr).2.Replaceable := by
    unfold allocateTlbEntry
    simp only
    split
    · split
      · exact Replaceable.updateTlbLru (m := m.setTlbEntry _ _) h _
      · split
        · exact List.cons_ne_nil _ _
        · exact h
    · exact h
  unfold MMU.loadTlbEntry
  split
  · exact h
  · split
    · next hpair =>
      rw [hpair] at halloc
      exact halloc
    · next hpair =>
      rw [hpair] at halloc
      exact halloc

theorem Replaceable.translateAddress (h : m.Replaceable) (readWord : Word → Word) (vaddr : Word)
    (isWrite isInstruction : Bool) :
    (m.translateAddress readWord vaddr isWrite isInstruction).2.Replaceable := by
  have hfind := h.findTlbEntry vaddr
  unfold MMU.translateAddress
  split
  · exact h
  · simp only
    split
    · next hpair =>
      rw [hpair] at hfind
      split <;> exact hfind
    · next hpair =>
      rw [hpair] at hfind
      split
      · exact hfind
      · split
        · exact hfind
        · exact hfind.loadTlbEntry _ _

/-- The translation of an address does not need the memory. -/
def Knows (m : MMU config) (vaddr paddr : Word) : Prop :=
  (m.pageTableBase = 0 ∧ paddr = vaddr) ∨ (m.pageTableBase ≠ 0 ∧ ∃ e,
    (m.findTlbEntry vaddr).1 = some e ∧
      paddr = getPhysicalAddress config e.physicalFrame (getPageOffset config vaddr))

theorem loadTlbEntry_remembered (hon : config.enableTlb = true) (h : m.Replaceable)
    (vaddr : Word) {pte : PageTableEntry} (hpte : pte.present = true) :
    (m.loadTlbEntry vaddr pte).remembers (vaddr >>> 12) pte.translation := by
  have hsome : (m.allocateTlbEntry vaddr).1 ≠ none := by
    unfold allocateTlbEntry
    simp only [hon, if_true]
    split
    · exact Option.some_ne_none _
    · split
      · exact Option.some_ne_none _
      · next hlast => exact absurd (List.getLast?_eq_none_iff.mp hlast) h
  rcases m.allocateTlbEntry_entries vaddr with hnone | ⟨k, e, m', hk, _, _⟩
  · rw [hnone] at hsome
    exact absurd rfl hsome
  · have hload : m.loadTlbEntry vaddr pte = m'.setTlbEntry k
        { virtualPage := vaddr >>> 12, physicalFrame := pte.frame
          writable := pte.writable, user := pte.user, valid := true } := by
      unfold loadTlbEntry
      rw [hon, hpte, hk]
      rfl
    rw [hload]
    refine ⟨k, ?_, ?_, ?_⟩ <;> simp [setTlbEntry, TLBEntry.translation, PageTableEntry.translation]

/-- A page just loaded is found. -/
theorem findTlbEntry_loaded (hon : config.enableTlb = true) (h : m.Replaceable)
    (hmiss : (m.findTlbEntry vaddr).1 = none) {pte : PageTableEntry} (hpte : pte.present = true) :
    ∃ e, ((m.loadTlbEntry vaddr pte).findTlbEntry vaddr).1 = some e ∧
      e.physicalFrame = pte.frame := by
  cases hfound : ((m.loadTlbEntry vaddr pte).findTlbEntry vaddr).1 with
  | none => exact absurd (loadTlbEntry_remembered hon h vaddr hpte) (findTlbEntry_none hon hfound _)
  | some e =>
    refine ⟨e, rfl, ?_⟩
    rcases loadTlbEntry_remembers (findTlbEntry_remembers hfound) with hold | ⟨_, hnew⟩
    · exact absurd hold (findTlbEntry_none hon hmiss _)
    · exact (congrArg Translation.frame hnew).symm

/-- What is known is the answer, and stays known. -/
theorem Knows.translate (h : m.Knows vaddr paddr) (readWord : Word → Word) (isInstruction : Bool) :
    (m.translateAddress readWord vaddr false isInstruction).1 = .ok paddr ∧
      (m.translateAddress readWord vaddr false isInstruction).2.Knows vaddr paddr := by
  rcases h with ⟨hoff, rfl⟩ | ⟨hon, e, he, rfl⟩
  · rw [translateAddress_off hoff]
    exact ⟨rfl, .inl ⟨hoff, rfl⟩⟩
  · have hask := @ask_hit _ m readWord ⟨vaddr, false, isInstruction⟩ e he
    have hbase := (m.ask_remembers readWord ⟨vaddr, false, isInstruction⟩).1
    have hne : (m.pageTableBase == 0) = false := beq_false_of_ne hon
    rw [hne] at hask
    exact ⟨hask.1, .inr ⟨fun h0 => hon (hbase ▸ h0), e,
      (findTlbEntry_congr hask.2 vaddr).trans he, rfl⟩⟩

/-- A load that translates leaves its page in the TLB. -/
theorem knows_translated (hon : config.enableTlb = true) (h : m.Replaceable)
    {readWord : Word → Word} {isInstruction : Bool}
    (hok : (m.translateAddress readWord vaddr false isInstruction).1 = .ok paddr) :
    (m.translateAddress readWord vaddr false isInstruction).2.Knows vaddr paddr := by
  have hknown : ∀ p, m.Knows vaddr p →
      (m.translateAddress readWord vaddr false isInstruction).2.Knows vaddr paddr := by
    intro p hp
    obtain ⟨hres, hknows⟩ := hp.translate readWord isInstruction
    rw [hok] at hres
    rwa [Except.ok.inj hres]
  by_cases hoff : m.pageTableBase = 0
  · exact hknown vaddr (.inl ⟨hoff, rfl⟩)
  · cases hfound : (m.findTlbEntry vaddr).1 with
    | some e => exact hknown _ (.inr ⟨hoff, e, hfound, rfl⟩)
    | none =>
      have hne : (m.pageTableBase == 0) = false := beq_false_of_ne hoff
      obtain ⟨hentries, hbase⟩ := m.findTlbEntry_entries vaddr
      have hfind := h.findTlbEntry vaddr
      have hmiss := findTlbEntry_congr hentries vaddr
      rw [hfound] at hmiss
      unfold translateAddress at hok ⊢
      rw [hne, if_neg (by decide), show m.findTlbEntry vaddr = (none, (m.findTlbEntry vaddr).2) from
        Prod.ext hfound rfl] at hok ⊢
      generalize (m.findTlbEntry vaddr).2 = m' at hok hbase hfind hmiss ⊢
      simp only [Bool.false_and] at hok ⊢
      cases hpte : (m'.readPageTableEntry readWord vaddr).present with
      | false =>
        rw [hpte] at hok
        cases hok
      | true =>
        rw [hpte] at hok
        obtain ⟨e, he, hframe⟩ := findTlbEntry_loaded hon hfind hmiss hpte
        refine .inr ⟨fun h0 => hoff ?_, e, he, ?_⟩
        · rw [← hbase, ← h0]
          exact (m'.loadTlbEntry_entries vaddr _).1.symm
        · rw [hframe]
          exact (Except.ok.inj hok).symm

end MMU
end RiscvEmulator.Memory
