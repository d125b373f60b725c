import RiscvEmulator.Memory.StoreAnywhere

/-! # The cached words

Atomics go through the data cache wherever their address is, so lines that the PMA
table does not cache get in, too. No line has words of both kinds, and no access of a
word that is not cached changes what the core sees of those that are. -/
namespace RiscvEmulator.Memory
open Lib.LineCache

theorem hasDataCache_of_isWriteThrough {a : Word} (h : isWriteThrough a = true) :
    hasDataCache a = true := by
  have hin := isWriteThrough_bounds h
  rw [hasDataCache_iff]
  omega

/-- A line is cached or it is not. -/
theorem hasDataCache_line {x y : WordAddr} (h : l1Geometry.line y = l1Geometry.line x) :
    hasDataCache (byteAddr y) = hasDataCache (byteAddr x) := by
  have hl : y.toNat / 16 = x.toNat / 16 := l1Geometry.line_eq_iff.mp h
  rw [Bool.eq_iff_iff, hasDataCache_iff, hasDataCache_iff, byteAddr_toNat, byteAddr_toNat]
  omega

namespace Level

section
variable {g : Geometry} {σ : Type} [MemoryInterface σ] (lv : Level g σ)

theorem readWord_wordOf (a : Word) : lv.readWord a = lv.readWord (byteAddr (wordOf a)) := by
  unfold readWord
  rw [read_wordOf]

/-- Outside the write-through window a store is one of the word. -/
theorem writeWord_of_not_through {a : Word} (h : isWriteThrough a = false) (v : Word) :
    lv.writeWord a v = lv.writeWord (byteAddr (wordOf a)) v := by
  have h' : ¬isWriteThrough a = true := by
    rw [h]
    exact Bool.false_ne_true
  unfold writeWord
  rw [access_wordOf, isWriteThrough_wordOf]
  simp only [if_neg h', setWord_wordOf _ a]

end

/-- And so is an atomic. -/
theorem atomic_of_not_through (lv : Level l1Geometry L2) {a : Word}
    (h : isWriteThrough a = false) (coreId : Nat) (op : Atomic) :
    lv.atomic a coreId op = lv.atomic (byteAddr (wordOf a)) coreId op := by
  obtain ⟨hset, htag, _, _⟩ := l1Geometry.address_wordOf a
  have hdrop : lv.cache.invalidate a = lv.cache.invalidate (byteAddr (wordOf a)) := by
    simp only [Cache.invalidate, Cache.findEntry, hset, htag]
  have hread : MemoryInterface.readWord lv.memory a =
      MemoryInterface.readWord lv.memory (byteAddr (wordOf a)) :=
    lv.memory.readWord_wordOf a
  have hwrite : ∀ (m : L2) (v : Word), MemoryInterface.writeWord m a v =
      MemoryInterface.writeWord m (byteAddr (wordOf a)) v :=
    fun m v => m.writeWord_of_not_through h v
  have hupdate : ∀ f, lv.atomicUpdate a f coreId =
      lv.atomicUpdate (byteAddr (wordOf a)) f coreId := by
    intro f
    simp only [atomicUpdate, hdrop, hread, hwrite]
  unfold atomic atomicAdd atomicSwap atomicCompareAndSwap atomicFetchAndSub atomicFetchAndAnd
    atomicFetchAndOr atomicFetchAndXor
  cases op <;> exact hupdate _

end Level

namespace Hierarchy
variable {h h' h'' : Hierarchy 1} {a : Word}

/-! ## What the accesses keep -/

/-- The caches are in order, and agree with the L2 where they are not modified. -/
structure Orderly (h : Hierarchy 1) : Prop where
  good : h.Good
  clean : h.Clean

/-- They stay so, and the cached words look to the core as before. -/
structure KeepsCached (h h' : Hierarchy 1) : Prop where
  orderly : h'.Orderly
  view : ∀ x, hasDataCache (byteAddr x) = true → h'.coreView x = h.coreView x

theorem Orderly.init (ddr : DDRMemory) : (Hierarchy.init 1 ddr).Orderly :=
  ⟨init_good ddr, (Private.init ddr).clean⟩

theorem Orderly.kept (ho : h.Orderly) : h.KeepsCached h := ⟨ho, fun _ _ => rfl⟩

theorem KeepsCached.trans (hk : h.KeepsCached h') (hk' : h'.KeepsCached h'') :
    h.KeepsCached h'' := ⟨hk'.orderly, fun x hx => (hk'.view x hx).trans (hk.view x hx)⟩

/-- Accesses that show the same to the sharers. -/
theorem Orderly.of_shared (ho : h.Orderly) (hg : h'.Good) (hs : h'.shared = h.shared) :
    h.KeepsCached h' := by
  refine ⟨⟨hg, ?_⟩, fun x _ => ?_⟩
  · unfold Hierarchy.Clean
    rw [hs]
    exact ho.clean
  · unfold coreView
    rw [hs]

theorem Orderly.fetch (ho : h.Orderly) (a : Word) : h.KeepsCached (h.fetch 0 a).2 := by
  obtain ⟨hg, hs⟩ := fetch_spec ho.good 0 a
  exact ho.of_shared hg hs

theorem Orderly.load (ho : h.Orderly) (a : Word) : h.KeepsCached (h.load 0 a).2 := by
  obtain ⟨_, hg, hc, hview, _⟩ := ho.good.load ho.clean (wordOf a)
  rw [load_wordOf]
  exact ⟨⟨hg, hc⟩, fun x _ => congrFun hview x⟩

/-- The core's cache has changed, and the L2 with it. -/
theorem KeepsCached.setShared {t : State WordAddr (Fin l1Geometry.numSets × Word) Word}
    (hg : h'.Good) (hs : h'.shared = h.shared.set 0 t) (hc : t.Clean l1Geometry.line)
    (hview : ∀ x, hasDataCache (byteAddr x) = true → t.view x = h.coreView x) :
    h.KeepsCached h' := by
  have hseen : h'.shared.seenBy 0 = t := by rw [hs, Shared.seenBy_set]
  refine ⟨⟨hg, ?_⟩, fun x hx => ?_⟩
  · show (h'.shared.seenBy 0).Clean l1Geometry.line
    rw [hseen]
    exact hc
  · unfold coreView
    rw [hseen]
    exact hview x hx

theorem Orderly.touch {t : State WordAddr (Fin l1Geometry.numSets × Word) Word} {x : WordAddr}
    (ho : h.Orderly) (ht : Touch l1Geometry.line x (h.shared.seenBy 0) t) :
    t.Clean l1Geometry.line ∧ t.view = h.coreView :=
  ⟨ht.clean ho.clean, ht.view (h.shared_granular 0) ho.clean⟩

theorem Orderly.readWord (ho : h.Orderly) (a : Word) : h.KeepsCached (h.readWord 0 a).2 := by
  obtain ⟨_, hg, t, ht, hs⟩ := readWord_spec ho.good 0 (wordOf a)
  obtain ⟨hc, hview⟩ := ho.touch ht
  have hword : h.readWord 0 a = h.readWord 0 (byteAddr (wordOf a)) := by
    unfold Hierarchy.readWord
    rw [Level.readWord_wordOf]
  rw [hword]
  exact .setShared hg hs hc fun x _ => congrFun hview x

section
variable (ho : h.Orderly) (hu : hasDataCache a = false) (ha : (wordOf a).toNat < 0x10000000)
include ho hu ha

omit ho ha in
theorem not_through : isWriteThrough a = false := by
  by_contra hw
  rw [hasDataCache_of_isWriteThrough (Bool.eq_true_of_not_eq_false hw)] at hu
  cases hu

omit ho ha in
theorem ne_of_cached {x : WordAddr} (hx : hasDataCache (byteAddr x) = true) : x ≠ wordOf a := by
  rintro rfl
  rw [hasDataCache_wordOf, hu] at hx
  cases hx

theorem Orderly.writeWord (v : Word) : h.KeepsCached (h.writeWord 0 a v) := by
  have hthrough := not_through hu
  obtain ⟨hg, t, ht, hs⟩ := writeWord_spec ho.good 0 (wordOf a) v ha
  obtain ⟨hc, hview⟩ := ho.touch ht
  have hword : h.writeWord 0 a v = h.writeWord 0 (byteAddr (wordOf a)) v := by
    unfold Hierarchy.writeWord
    rw [Level.writeWord_of_not_through _ hthrough]
  rw [isWriteThrough_wordOf, hthrough, if_neg Bool.false_ne_true] at hs
  rw [hword]
  refine .setShared hg hs (store_clean hc) fun x hx => ?_
  rw [store_view, Function.update_of_ne (ne_of_cached hu hx), hview]

/-- The line it drops has no cached word. -/
theorem Orderly.atomic (op : Atomic) : h.KeepsCached (h.atomic 0 a op).2 := by
  obtain ⟨_, hg, hs⟩ := atomic_spec ho.good 0 (wordOf a) op ha
  have hword : h.atomic 0 a op = h.atomic 0 (byteAddr (wordOf a)) op := by
    unfold Hierarchy.atomic
    rw [Level.atomic_of_not_through _ (not_through hu)]
  rw [hword]
  refine .setShared hg hs (through_clean ho.clean) fun x hx => ?_
  have hline : l1Geometry.line x ≠ l1Geometry.line (wordOf a) := by
    intro hl
    rw [hasDataCache_line hl, hasDataCache_wordOf, hu] at hx
    cases hx
  rw [through_view_apply, if_neg (ne_of_cached hu hx), if_neg hline]
  rfl

end

end Hierarchy
end RiscvEmulator.Memory
