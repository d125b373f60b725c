import RiscvEmulator.Memory.SingleCore

/-! # Stores at any address

A store of a word goes to the word its address lies in, wherever in the word that
is. Behind the write-through window it does not: the L2 hands the address on to
DDR, which stores the four bytes from it on. The core does not see these, as
the L2 has the line. -/
namespace RiscvEmulator.Memory
open Lib.LineCache

theorem isWriteThrough_wordOf (a : Word) :
    isWriteThrough (byteAddr (wordOf a)) = isWriteThrough a := by
  rw [Bool.eq_iff_iff]
  simp only [isWriteThrough, Bool.and_eq_true, decide_eq_true_eq, BitVec.le_def, byteAddr_toNat,
    wordOf_toNat, BitVec.ofNat_eq_ofNat, BitVec.toNat_ofNat]
  omega

theorem inPageTable_wordOf (a : Word) : inPageTable (byteAddr (wordOf a)) = inPageTable a := by
  rw [Bool.eq_iff_iff, inPageTable_iff, inPageTable_iff, byteAddr_toNat, wordOf_toNat]
  omega

theorem isWriteThrough_bounds {a : Word} (h : isWriteThrough a = true) :
    0x82008 ≤ a.toNat ∧ a.toNat ≤ 0x8201F := by
  simpa [isWriteThrough, BitVec.le_def] using h

theorem writesThrough_wordOf (a : Word) :
    writesThrough (wordOf a) ↔ inPageTable a = true ∨ isWriteThrough a = true := by
  unfold writesThrough writeThroughAddr
  rw [isWriteThrough_wordOf, inPageTable_wordOf]
  cases inPageTable a <;> cases isWriteThrough a <;> simp

/-- With no translation a store is written through at its own address. -/
theorem writeThroughAddr_self (a : Word) :
    writeThroughAddr a a = if writesThrough (wordOf a) then some a else none := by
  simp only [writesThrough_wordOf]
  unfold writeThroughAddr
  cases inPageTable a <;> cases isWriteThrough a <;> rfl

namespace Level

section
variable {g : Geometry} {σ : Type} [MemoryInterface σ]

theorem access_wordOf (lv : Level g σ) (a : Word) (coreId : Nat) :
    lv.access a coreId = lv.access (byteAddr (wordOf a)) coreId := by
  obtain ⟨h1, h2, _, h4⟩ := g.address_wordOf a
  simp only [access, Cache.findEntry, loadBlock, h1, h2, h4]

omit [MemoryInterface σ] in
theorem setWord_wordOf (lv : Level g σ) (a v : Word) (w : Fin g.ways) (mark : Bool) :
    lv.setWord a v w mark = lv.setWord (byteAddr (wordOf a)) v w mark := by
  obtain ⟨h1, _, h3, _⟩ := g.address_wordOf a
  simp only [setWord, h1, h3]

/-- A store anywhere in a word leaves the same as a store of the word, if the
memory behind the cache does. -/
theorem write_wordOf {M : WordMemory σ} (lv : Level g σ) (a v : Word) (coreId : Nat)
    (hm : M.content (MemoryInterface.writeWord lv.memory a v) =
      M.content (MemoryInterface.writeWord lv.memory (byteAddr (wordOf a)) v)) :
    (lv.write a a v coreId).2.state M =
      (lv.write (byteAddr (wordOf a)) (byteAddr (wordOf a)) v coreId).2.state M := by
  obtain ⟨h1, h2, _, _⟩ := g.address_wordOf a
  have hfind : lv.cache.findEntry a = lv.cache.findEntry (byteAddr (wordOf a)) := by
    simp only [Cache.findEntry, h1, h2]
  have hdrop : ∀ c : Cache g, c.invalidate a = c.invalidate (byteAddr (wordOf a)) := by
    intro c
    simp only [Cache.invalidate, Cache.findEntry, h1, h2]
  unfold write
  rw [writeThroughAddr_self, writeThroughAddr_self, wordOf_byteAddr]
  by_cases hthrough : writesThrough (wordOf a)
  · simp only [if_pos hthrough, hfind]
    cases lv.cache.findEntry (byteAddr (wordOf a)) with
    | none => exact State.ext rfl hm
    | some w =>
      simp only [setWord_wordOf _ a, hdrop, mapCache]
      exact State.ext rfl hm
  · simp only [if_neg hthrough, access_wordOf lv a, setWord_wordOf _ a]

end

/-- DDR may get the bytes at another place, but the L2 shows its own line. -/
theorem writeWord_wordOf (lv : L2) (hl : l2Memory.inv lv) {a : Word} (v : Word)
    (ha : (wordOf a).toNat < 0x10000000) :
    l2Memory.content (lv.writeWord a v) =
      l2Memory.content (lv.writeWord (byteAddr (wordOf a)) v) := by
  have hback : ∀ y, l2Geometry.line y = l2Geometry.line (wordOf a) →
      (ByteMemory.wordMemory ddrSize).dom y := Hierarchy.l2Memory_dom ha
  have hheld : ∀ y, l2Geometry.line y = l2Geometry.line (wordOf a) →
      ((lv.writeWord (byteAddr (wordOf a)) v).cache.lines.held y).isSome = true := by
    intro y hy
    obtain ⟨_, t, ht, hs⟩ := writeWord_spec hl.toGood (wordOf a) v hback
    refine (Cache.lines_granular _).whole (wordOf a) y hy.symm ?_
    change ((state (ByteMemory.wordMemory ddrSize) _).lines.held _).isSome = true
    rw [hs]
    split
    · simp [State.storeBoth]
    · simp [State.store]
  funext y
  show (state _ _).view y = (state _ _).view y
  unfold writeWord at hheld ⊢
  rw [access_wordOf lv a, isWriteThrough_wordOf] at *
  by_cases hw : isWriteThrough a = true
  · simp only [if_pos hw, setWord_wordOf _ a] at hheld ⊢
    by_cases hy : l2Geometry.line y = l2Geometry.line (wordOf a)
    · obtain ⟨w, hw'⟩ := Option.isSome_iff_exists.mp (hheld y hy)
      simp only [State.view, state, hw', Option.getD_some]
    · have hline : y.toNat / 16 ≠ (wordOf a).toNat / 16 :=
        fun h => hy (l2Geometry.line_eq_iff.mpr h)
      have hin := isWriteThrough_bounds hw
      rw [wordOf_toNat] at hline
      have hddr : ∀ m : DDRMemory, (m.writeWord a v).readWord (byteAddr y) =
          (m.writeWord (byteAddr (wordOf a)) v).readWord (byteAddr y) := by
        intro m
        refine ByteMemory.readWord_congr fun k hk => ?_
        rw [byteAddr_toNat, ByteMemory.writeWord_other _ _ _ (by omega),
          ByteMemory.writeWord_other _ _ _ (by rw [byteAddr_toNat, wordOf_toNat]; omega)]
      show Option.getD _ (ByteMemory.readWord _ _) = Option.getD _ (ByteMemory.readWord _ _)
      exact congrArg _ (hddr _)
  · simp only [if_neg hw, setWord_wordOf _ a]

end Level

namespace Hierarchy
variable {h : Hierarchy 1}

/-! ## What the core sees after a store -/

/-- The copies of the data cache agree with the L2 where they are not modified. -/
def Clean (h : Hierarchy 1) : Prop := (h.shared.seenBy (Fin.last 0)).Clean l1Geometry.line

theorem Private.toClean (hp : h.Private) : h.Clean := hp.clean

/-- What a store to `x` leaves of the word `y`: the line of a store that is written
through is dropped, modified or not. -/
def kept (h : Hierarchy 1) (x y : WordAddr) : Word :=
  if writesThrough x ∧ l1Geometry.line y = l1Geometry.line x ∧ y ≠ x then h.shared.memory y
  else h.coreView y

theorem kept_self (h : Hierarchy 1) (x : WordAddr) : h.kept x x = h.coreView x :=
  if_neg fun hx => hx.2.2 rfl

theorem setDataCache_coreView (h : Hierarchy 1) (lv : Level l1Geometry L2) :
    (h.setDataCache 0 lv).coreView = (lv.state l2Memory).view := by
  have hlines : ((h.setDataCache 0 lv).shared.seenBy 0).lines = lv.cache.lines := by
    simp [Shared.seenBy, shared, setDataCache]
  exact congrArg State.view (State.ext hlines rfl)

/-- A load changes no word, and none of the L2's in the line it brings in. -/
theorem Good.load (hg : h.Good) (hc : h.Clean) (x : WordAddr) :
    (h.load 0 (byteAddr x)).1 = h.coreView x ∧ (h.load 0 (byteAddr x)).2.Good ∧
      (h.load 0 (byteAddr x)).2.Clean ∧ (h.load 0 (byteAddr x)).2.coreView = h.coreView ∧
      (h.load 0 (byteAddr x)).2.kept x = h.kept x := by
  obtain ⟨hv, hg', t, ht, hs⟩ := load_spec hg 0 x
  have hview : (h.load 0 (byteAddr x)).2.coreView = h.coreView := by
    unfold coreView
    rw [hs, Shared.seenBy_set]
    exact ht.view (h.shared_granular 0) hc
  refine ⟨hv, hg', ?_, hview, ?_⟩
  · show ((h.load 0 (byteAddr x)).2.shared.seenBy 0).Clean l1Geometry.line
    rw [hs, Shared.seenBy_set]
    exact ht.clean hc
  · funext y
    unfold kept
    rw [hview]
    split
    · next hy =>
      rw [hs]
      exact ht.memory_line hy.2.1
    · rfl

/-- A store anywhere in a word is seen as a store to the word, but for the line
that a store that is written through drops. -/
theorem Good.store (hg : h.Good) (hc : h.Clean) (a v : Word)
    (ha : (wordOf a).toNat < 0x10000000) :
    (h.store 0 a a v).coreView = Function.update (h.kept (wordOf a)) (wordOf a) v := by
  have hplace : (h.store 0 a a v).coreView =
      (h.store 0 (byteAddr (wordOf a)) (byteAddr (wordOf a)) v).coreView := by
    have hbehind := Level.writeWord_wordOf h.l2Cache hg.l2 v ha
    have hwrite := (h.dataCache 0).write_wordOf a v (0 : Fin 1).val hbehind
    unfold Hierarchy.store
    rw [setDataCache_coreView, setDataCache_coreView, hwrite]
  rw [hplace]
  funext y
  by_cases hthrough : writesThrough (wordOf a)
  · obtain ⟨_, hs⟩ := store_through_spec hg 0 (wordOf a) v (writesThrough_addr hthrough) ha
    unfold coreView
    rw [hs, Shared.seenBy_set, through_view_apply, Function.update_apply]
    unfold kept
    simp only [hthrough, true_and]
    by_cases hy : y = wordOf a
    · rw [if_pos hy, if_pos hy]
    · rw [if_neg hy, if_neg hy]
      simp only [ne_eq, hy, not_false_eq_true, and_true]
      rfl
  · obtain ⟨_, t, ht, hs⟩ := store_spec hg 0 (wordOf a) v (not_not.mp hthrough) ha
    unfold coreView
    rw [hs, Shared.seenBy_set, store_view, ht.view (h.shared_granular 0) hc]
    congr 1
    funext z
    exact (if_neg fun hz => hthrough hz.1).symm

end Hierarchy
end RiscvEmulator.Memory
