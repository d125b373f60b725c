import RiscvEmulator.Memory.Hierarchy

/-! # One core and its memory

With one core the data cache over the L2 is the only user of the L2's words but
for fetches, which change none. What it shows is one word memory, as long as no
store is written through next to a modified word. The page table region is
always written through, so no line of it is ever modified. -/
namespace RiscvEmulator.Memory
open Lib.LineCache

/-- The line of the write-through window. -/
def InWindowLine (x : WordAddr) : Prop := 0x82000 ≤ 4 * x.toNat ∧ 4 * x.toNat < 0x82040

instance (x : WordAddr) : Decidable (InWindowLine x) := inferInstanceAs (Decidable (_ ∧ _))

theorem inPageTable_iff (a : Word) :
    inPageTable a = true ↔ 0x20000 ≤ a.toNat ∧ a.toNat < 0x21000 := by
  simp [inPageTable, BitVec.le_def, BitVec.lt_def]

/-- Outside its line, what is written through is in the page table region. -/
theorem writesThrough_iff {x : WordAddr} (hx : ¬InWindowLine x) :
    writesThrough x ↔ inPageTable (byteAddr x) = true := by
  have hwindow : isWriteThrough (byteAddr x) = false := by
    cases h : isWriteThrough (byteAddr x) with
    | false => rfl
    | true =>
      simp [isWriteThrough, BitVec.le_def] at h
      unfold InWindowLine at hx
      omega
  unfold writesThrough writeThroughAddr
  rw [hwindow]
  cases inPageTable (byteAddr x) <;> simp

/-- The page table region consists of whole lines. -/
theorem inPageTable_line {x y : WordAddr} (h : l1Geometry.line y = l1Geometry.line x) :
    inPageTable (byteAddr y) = inPageTable (byteAddr x) := by
  have hl : y.toNat / 16 = x.toNat / 16 := l1Geometry.line_eq_iff.mp h
  rw [Bool.eq_iff_iff, inPageTable_iff, inPageTable_iff, byteAddr_toNat, byteAddr_toNat]
  omega

namespace Hierarchy

/-- What the core sees of the words. -/
def coreView (h : Hierarchy 1) : WordAddr → Word := (h.shared.seenBy 0).view

/-- The invariant of a hierarchy with one core. -/
structure Private (h : Hierarchy 1) : Prop where
  good : h.Good
  clean : (h.shared.seenBy 0).Clean l1Geometry.line
  tables : ∀ x, inPageTable (byteAddr x) = true →
    (h.shared.seenBy 0).lines.dirty (l1Geometry.line x) = false

namespace Private
variable {h : Hierarchy 1}

theorem init (ddr : DDRMemory) : (Hierarchy.init 1 ddr).Private where
  good := init_good ddr
  clean x v hx := by
    simp [shared, Shared.seenBy, Hierarchy.init, Cache.init_lines, Lines.empty] at hx
  tables x _ := by simp [shared, Shared.seenBy, Hierarchy.init, Cache.init_lines, Lines.empty]

theorem of_shared {h' : Hierarchy 1} (hp : h.Private) (hg : h'.Good) (hs : h'.shared = h.shared) :
    h'.Private := by
  refine ⟨hg, ?_, ?_⟩ <;> rw [hs]
  · exact hp.clean
  · exact hp.tables

/-- A load shows the word and changes none. -/
theorem load (hp : h.Private) (x : WordAddr) :
    (h.load 0 (byteAddr x)).1 = h.coreView x ∧ (h.load 0 (byteAddr x)).2.Private ∧
      (h.load 0 (byteAddr x)).2.coreView = h.coreView := by
  obtain ⟨hv, hg, t, ht, hs⟩ := load_spec hp.good 0 x
  refine ⟨hv, ⟨hg, ?_, fun y hy => ?_⟩, ?_⟩
  · rw [hs, Shared.seenBy_set]
    exact ht.clean hp.clean
  · rw [hs, Shared.seenBy_set]
    exact Bool.eq_false_iff.mpr fun hd =>
      Bool.false_ne_true ((hp.tables y hy).symm.trans (ht.dirty_le hd))
  · unfold coreView
    rw [hs, Shared.seenBy_set]
    exact ht.view (h.shared_granular 0) hp.clean

/-- A store changes its word and no other. -/
theorem store (hp : h.Private) (x : WordAddr) (v : Word) (hx : x.toNat < 0x10000000)
    (hw : ¬InWindowLine x) :
    (h.store 0 (byteAddr x) (byteAddr x) v).Private ∧
      (h.store 0 (byteAddr x) (byteAddr x) v).coreView = Function.update h.coreView x v := by
  by_cases hthrough : writesThrough x
  · obtain ⟨hg, hs⟩ := store_through_spec hp.good 0 x v (writesThrough_addr hthrough) hx
    have hdirty := hp.tables x ((writesThrough_iff hw).mp hthrough)
    refine ⟨⟨hg, ?_, fun y hy => ?_⟩, ?_⟩
    · rw [hs, Shared.seenBy_set]
      exact through_clean hp.clean
    · rw [hs, Shared.seenBy_set]
      exact Bool.eq_false_iff.mpr fun hd =>
        Bool.false_ne_true ((hp.tables y hy).symm.trans (through_dirty_le hd))
    · unfold coreView
      rw [hs, Shared.seenBy_set]
      exact through_view_iff.mpr (synced_of_not_dirty hp.clean hdirty)
  · obtain ⟨hg, t, ht, hs⟩ := store_spec hp.good 0 x v (not_not.mp hthrough) hx
    refine ⟨⟨hg, ?_, fun y hy => ?_⟩, ?_⟩
    · rw [hs, Shared.seenBy_set]
      exact store_clean (ht.clean hp.clean)
    · have hl : l1Geometry.line y ≠ l1Geometry.line x := fun hl =>
        hthrough ((writesThrough_iff hw).mpr (inPageTable_line hl ▸ hy))
      rw [hs, Shared.seenBy_set, store_dirty, Function.update_of_ne hl]
      exact Bool.eq_false_iff.mpr fun hd =>
        Bool.false_ne_true ((hp.tables y hy).symm.trans (ht.dirty_le hd))
    · unfold coreView
      rw [hs, Shared.seenBy_set, store_view, ht.view (h.shared_granular 0) hp.clean]

end Private
end Hierarchy
end RiscvEmulator.Memory
