import RiscvEmulator.Lib.Ownership
import RiscvEmulator.Memory.Coherence
import RiscvEmulator.Memory.SingleCore

/-! # Lines with an owner

Each block of 64 bytes belongs to one core or to nobody. As long as no core loads
from a block of another or stores to one that is not its own, the data caches agree
on one value for every word, and the instruction caches have it for the words of
nobody. -/
namespace RiscvEmulator.Memory
open Lib.LineCache

variable {N : Nat}

/-- The partition of the lines by the owners of the blocks. Stores to the page table
region go around the caches. -/
def blockPartition (owner : Nat → Option (Fin N)) : Partition (Fin N) l1Geometry.line where
  owner x := owner (x.toNat / 16)
  through x := inPageTable (byteAddr x) = true
  owner_line h := congrArg owner (l1Geometry.line_eq_iff.mp h)
  through_line h := by rw [inPageTable_line h]

namespace Hierarchy
variable {h : Hierarchy N} {owner : Nat → Option (Fin N)} {f : WordAddr → Word} {i : Fin N}
  {x : WordAddr}

/-- A store of the owner keeps to the owners, and so do the caches that agree. -/
theorem store_kept (hg : h.Good) (hk : (blockPartition owner).Kept h.shared)
    (hc : h.shared.Coherent l1Geometry.line f) (hown : owner (x.toNat / 16) = some i)
    (hx : x.toNat < 0x10000000) (hw : ¬InWindowLine x) (v : Word) :
    (h.store i (byteAddr x) (byteAddr x) v).Good ∧
      (blockPartition owner).Kept (h.store i (byteAddr x) (byteAddr x) v).shared ∧
      (h.store i (byteAddr x) (byteAddr x) v).shared.Coherent l1Geometry.line
        (Function.update f x v) := by
  have hr : (blockPartition owner).Readable i x := .inr hown
  have hno := hk.noOtherCopy hown
  by_cases hthrough : writesThrough x
  · obtain ⟨hg', hs⟩ := store_through_spec hg i x v (writesThrough_addr hthrough) hx
    have hsynced := hk.synced hc (h.shared_granular i) hr ((writesThrough_iff hw).mp hthrough)
    exact ⟨hg', hs ▸ hk.through, hs ▸ hc.through h.shared_granular hno hsynced⟩
  · obtain ⟨hg', t, ht, hs⟩ := store_spec hg i x v (not_not.mp hthrough) hx
    have hcoherent := (hc.touch (h.shared_granular i) (hk.mayRead hr) ht).store (v := v)
      (Shared.set_noOtherCopy hno)
    rw [Shared.seenBy_set, Shared.set_set] at hcoherent
    refine ⟨hg', ?_, hs ▸ hcoherent⟩
    rw [hs]
    exact hk.store hown (fun htable => hthrough ((writesThrough_iff hw).mpr htable)) ht

/-- The caches have kept to the owners, and `f` is what they agree on. -/
structure Owned (h : Hierarchy N) (owner : Nat → Option (Fin N)) (f : WordAddr → Word) : Prop where
  good : h.Good
  kept : (blockPartition owner).Kept h.shared
  coherent : h.shared.Coherent l1Geometry.line f
  code : ∀ i x w, owner (x.toNat / 16) = none → (h.l1Icaches i).lines.held x = some w → w = f x

theorem init_owned (owner : Nat → Option (Fin N)) (ddr : DDRMemory) :
    (init N ddr).Owned owner (ddrWords ddr) where
  good := init_good ddr
  kept :=
    { held := fun i x hx => by simp [shared, init, Cache.init_lines, Lines.empty] at hx
      dirty := fun i x hx => by simp [shared, init, Cache.init_lines, Lines.empty] at hx }
  coherent := init_coherent ddr
  code i x w _ hx := by simp [init, Cache.init_lines, Lines.empty] at hx

namespace Owned

/-- What the L2 has of a word of nobody. -/
theorem memory (ho : h.Owned owner f) (hx : owner (x.toNat / 16) = none) :
    h.shared.memory x = f x := ho.kept.memory ho.coherent (.inl hx)

/-- The fetch of a word of nobody. -/
theorem fetch_value (ho : h.Owned owner f) (i : Fin N) (hx : owner (x.toNat / 16) = none) :
    (h.fetch i (byteAddr x)).1 = f x := by
  rw [Hierarchy.fetch_value ho.good i x]
  show ((h.l1Icaches i).lines.held x).getD (h.shared.memory x) = f x
  cases hc : (h.l1Icaches i).lines.held x with
  | none => exact ho.memory hx
  | some w => exact ho.code i x w hx hc

/-- A fetch may bring in any line: words of nobody come from an L2 that is up to date. -/
theorem fetch (ho : h.Owned owner f) (i : Fin N) (a : Word) : (h.fetch i a).2.Owned owner f := by
  obtain ⟨hg, hs⟩ := fetch_spec ho.good i a
  refine ⟨hg, hs ▸ ho.kept, hs ▸ ho.coherent, ?_⟩
  intro j y w hy hw
  by_cases hj : j = i
  · subst hj
    have hread := (Level.read_spec (ho.good.instruction j) (wordOf a) j.val).2.2
    rw [← Level.read_wordOf] at hread
    have hlines : ((h.instructionCache j).read a j.val).2.2.cache.lines.held y = some w := by
      have hself : (h.fetch j a).2.l1Icaches j =
          ((h.instructionCache j).read a j.val).2.2.cache := Function.update_self ..
      rw [← hself]
      exact hw
    rcases hread.held_cases hlines with ⟨hold, _⟩ | ⟨_, _, hnew, _, _⟩
    · exact ho.code j y w hy hold
    · rw [hnew]
      exact ho.memory hy
  · refine ho.code j y w hy ?_
    have hother : (h.fetch i a).2.l1Icaches j = h.l1Icaches j := Function.update_of_ne hj ..
    rw [← hother]
    exact hw

theorem load (ho : h.Owned owner f) (hr : (blockPartition owner).Readable i x) :
    (h.load i (byteAddr x)).1 = f x ∧ (h.load i (byteAddr x)).2.Owned owner f := by
  obtain ⟨hv, hg, t, ht, hs⟩ := load_spec ho.good i x
  refine ⟨hv.trans (ho.kept.view ho.coherent (h.shared_granular i) hr), hg, ?_, ?_, ho.code⟩
  · rw [hs]
    exact ho.kept.touch hr ht
  · rw [hs]
    exact ho.coherent.touch (h.shared_granular i) (ho.kept.mayRead hr) ht

/-- A store of the owner, outside the line of the write-through window. -/
theorem store (ho : h.Owned owner f) (hx : owner (x.toNat / 16) = some i)
    (hc : x.toNat < 0x10000000) (hw : ¬InWindowLine x) (v : Word) :
    (h.store i (byteAddr x) (byteAddr x) v).Owned owner (Function.update f x v) := by
  obtain ⟨hg, hkept, hcoherent⟩ := store_kept ho.good ho.kept ho.coherent hx hc hw v
  refine ⟨hg, hkept, hcoherent, ?_⟩
  intro j y w hy hheld
  have hne : y ≠ x := by
    rintro rfl
    rw [hx] at hy
    cases hy
  rw [Function.update_of_ne hne]
  exact ho.code j y w hy hheld

end Owned
end Hierarchy
end RiscvEmulator.Memory
