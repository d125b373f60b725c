import RiscvEmulator.Memory.Transparency

/-! # Flushing a range of addresses

`flush_range` looks at every way and writes back those whose block begins in the
range. A block that begins before the range and reaches into it is left out, and so is
everything when the end of the range is the top of the address space and wraps to 0. -/
namespace RiscvEmulator.Memory
open Lib.LineCache

namespace Level
variable {g : Geometry} {σ : Type} [MemoryInterface σ] {M : WordMemory σ} {lv : Level g σ}
  {x : WordAddr} {startAddr size : Word}

/-- Flushing the way of a line is `State.flush` of the line. -/
theorem flushWay_spec {w : Fin g.ways} (h : lv.Good M)
    (hw : lv.cache.lookup (g.line x).1 (g.line x).2 = some w) :
    (lv.flushWay (g.line x).1 w).Good M ∧
      (lv.flushWay (g.line x).1 w).state M = (lv.state M).flush g.line (g.line x) := by
  have hdirty : lv.cache.lines.dirty (g.line x) =
      (lv.cache.cacheEntries (g.line x).1 w).dirty := by
    simp only [Cache.lines, hw]
  unfold flushWay
  split
  · next hd =>
    obtain ⟨hv, ht⟩ := Cache.lookup_valid hw
    obtain ⟨hinv, hcontent⟩ := writeBackBlock_spec h.wf.toTagged h.inv hw hd
      fun y hy => h.backed y (by rw [hy, hdirty, hd])
    have hlines := h.wf.toTagged.lines_clearDirty hw
    refine ⟨⟨⟨h.wf.setEntry_same hw ht, h.wf.lru⟩, hinv, fun y hy => h.backed y ?_⟩,
      State.ext hlines hcontent⟩
    by_cases hl : g.line y = g.line x
    · rw [hl, hdirty, hd]
    · have hy' : Function.update lv.cache.lines.dirty (g.line x) false (g.line y) = true :=
        (congrArg (fun p => p.dirty (g.line y)) hlines).symm.trans hy
      rwa [Function.update_of_ne hl] at hy'
  · next hd =>
    refine ⟨h, (flush_of_not_dirty ?_).symm⟩
    rw [← Bool.not_eq_true]
    exact hdirty ▸ hd

/-! ## Ranges -/

/-- The test of the loop: the block of a line begins in the range. -/
def beginsInRange (g : Geometry) (startAddr size : Word) (l : Fin g.numSets × Word) : Bool :=
  startAddr ≤ g.blockAddressOf l.1 l.2 && g.blockAddressOf l.1 l.2 < startAddr + size

/-- The body of the loop for one way. -/
def visit (startAddr size : Word) (lv : Level g σ) (p : Fin g.numSets × Fin g.ways) :
    Level g σ :=
  let e := lv.cache.cacheEntries p.1 p.2
  if e.valid then
    if beginsInRange g startAddr size (p.1, e.tag) then lv.flushWay p.1 p.2 else lv
  else lv

/-- The ways in the order of the two loops. -/
def allWays (g : Geometry) : List (Fin g.numSets × Fin g.ways) :=
  (List.finRange g.numSets).flatMap fun s => (List.finRange g.ways).map fun w => (s, w)

theorem flushRange_eq (lv : Level g σ) (startAddr size : Word) :
    lv.flushRange startAddr size = (allWays g).foldl (visit startAddr size) lv := by
  unfold allWays
  rw [List.foldl_flatMap]
  simp only [List.foldl_map]
  rfl

theorem mem_allWays (p : Fin g.numSets × Fin g.ways) : p ∈ allWays g := by
  unfold allWays
  rw [List.mem_flatMap]
  exact ⟨p.1, List.mem_finRange _, List.mem_map.mpr ⟨p.2, List.mem_finRange _, rfl⟩⟩

/-! ## One way -/

/-- The ways hold the same blocks. -/
def SameTags (lv lv' : Level g σ) : Prop :=
  ∀ s w, (lv'.cache.cacheEntries s w).valid = (lv.cache.cacheEntries s w).valid ∧
    (lv'.cache.cacheEntries s w).tag = (lv.cache.cacheEntries s w).tag

theorem flushWay_sameTags (lv : Level g σ) (s : Fin g.numSets) (w : Fin g.ways) :
    lv.SameTags (lv.flushWay s w) := by
  intro s' w'
  unfold flushWay
  split
  · simp only [mapCache, Cache.setEntry_apply]
    split
    · next h =>
      rw [h.1, h.2]
      exact ⟨rfl, rfl⟩
    · exact ⟨rfl, rfl⟩
  · exact ⟨rfl, rfl⟩

/-- What visiting some ways has done: lines that begin in the range have been flushed,
and those of the ways visited are among them. -/
structure Flushed (M : WordMemory σ) (startAddr size : Word)
    (ps : List (Fin g.numSets × Fin g.ways)) (lv lv' : Level g σ) : Prop where
  good : lv'.Good M
  tags : lv.SameTags lv'
  lines : ∃ Q : Fin g.numSets × Word → Bool,
    lv'.state M = (lv.state M).flushAll g.line Q ∧
    (∀ l, Q l = true → beginsInRange g startAddr size l = true) ∧
    ∀ p ∈ ps, (lv.cache.cacheEntries p.1 p.2).valid = true →
      beginsInRange g startAddr size (p.1, (lv.cache.cacheEntries p.1 p.2).tag) = true →
      Q (p.1, (lv.cache.cacheEntries p.1 p.2).tag) = true

theorem visit_flushed (h : lv.Good M) (startAddr size : Word)
    (p : Fin g.numSets × Fin g.ways) :
    Flushed M startAddr size [p] lv (visit startAddr size lv p) := by
  unfold visit
  simp only
  split
  · next hv =>
    split
    · next hrange =>
      obtain ⟨y, hy⟩ := h.wf.home p.1 p.2 hv
      have hs : (g.line y).1 = p.1 := congrArg Prod.fst hy
      have hw : lv.cache.lookup (g.line y).1 (g.line y).2 = some p.2 := by
        rw [hy]
        exact h.wf.lookup_eq_some_iff.mpr ⟨hv, rfl⟩
      obtain ⟨hgood, hstate⟩ := flushWay_spec h hw
      rw [hs] at hgood hstate
      refine ⟨hgood, flushWay_sameTags lv p.1 p.2, _,
        hstate.trans (flush_eq_flushAll lv.cache.lines_granular _), ?_, ?_⟩
      · intro l hl
        rw [of_decide_eq_true hl, hy]
        exact hrange
      · intro p' hp' _ _
        rw [List.mem_singleton.mp hp', hy]
        exact decide_eq_true rfl
    · next hrange =>
      refine ⟨h, fun _ _ => ⟨rfl, rfl⟩, fun _ => false, flushAll_none.symm, nofun, ?_⟩
      intro p' hp' _ hin
      rw [List.mem_singleton.mp hp'] at hin
      exact absurd hin hrange
  · next hv =>
    refine ⟨h, fun _ _ => ⟨rfl, rfl⟩, fun _ => false, flushAll_none.symm, nofun, ?_⟩
    intro p' hp' hvalid _
    rw [List.mem_singleton.mp hp'] at hvalid
    exact absurd hvalid hv

/-! ## The loops -/

theorem visits_flushed (startAddr size : Word) (ps : List (Fin g.numSets × Fin g.ways))
    (h : lv.Good M) : Flushed M startAddr size ps lv (ps.foldl (visit startAddr size) lv) := by
  induction ps generalizing lv with
  | nil => exact ⟨h, fun _ _ => ⟨rfl, rfl⟩, fun _ => false, flushAll_none.symm, nofun, nofun⟩
  | cons p ps ih =>
    have hfirst := visit_flushed h startAddr size p
    have hrest := ih hfirst.good
    obtain ⟨Q, hQ, hQrange, hQall⟩ := hfirst.lines
    obtain ⟨R, hR, hRrange, hRall⟩ := hrest.lines
    rw [List.foldl_cons]
    refine ⟨hrest.good, ?_, fun l => Q l || R l, ?_, ?_, ?_⟩
    · intro s w
      obtain ⟨hvalid, htag⟩ := hfirst.tags s w
      obtain ⟨hvalid', htag'⟩ := hrest.tags s w
      exact ⟨hvalid'.trans hvalid, htag'.trans htag⟩
    · rw [hR, hQ, flushAll_flushAll lv.cache.lines_granular]
    · intro l hl
      rcases Bool.or_eq_true_iff.mp hl with hl | hl
      · exact hQrange l hl
      · exact hRrange l hl
    · intro p' hp' hvalid hin
      rw [Bool.or_eq_true]
      rcases List.mem_cons.mp hp' with rfl | hp'
      · exact .inl (hQall _ (List.mem_singleton_self _) hvalid hin)
      · obtain ⟨hvalid', htag'⟩ := hfirst.tags p'.1 p'.2
        rw [← htag'] at hin ⊢
        exact .inr (hRall p' hp' (hvalid'.trans hvalid) hin)

/-- The modified lines that begin in the range are written back, and no others. -/
theorem flushRange_spec (h : lv.Good M) (startAddr size : Word) :
    (lv.flushRange startAddr size).Good M ∧
      (lv.flushRange startAddr size).state M =
        (lv.state M).flushAll g.line (beginsInRange g startAddr size) := by
  obtain ⟨hgood, _, Q, hstate, hrange, hall⟩ := visits_flushed startAddr size (allWays g) h
  rw [← flushRange_eq] at hgood hstate
  refine ⟨hgood, hstate.trans (flushAll_congr fun l hl => ?_)⟩
  -- a modified line is in one of the ways
  obtain ⟨w, hvalid, htag, _⟩ := h.wf.dirty_eq_true_iff.mp hl
  rw [Bool.eq_iff_iff]
  refine ⟨hrange l, fun hin => ?_⟩
  have := hall (l.1, w) (mem_allWays _) hvalid
  rw [htag] at this
  exact this hin

/-! ## What a flush of a range is for -/

/-- The address of the word is in the range. -/
def InRange (startAddr size : Word) (x : WordAddr) : Prop :=
  startAddr.toNat ≤ 4 * x.toNat ∧ 4 * x.toNat < startAddr.toNat + size.toNat

/-- Some byte of the block of the word is in the range. -/
def BlockTouches (g : Geometry) (startAddr size : Word) (x : WordAddr) : Prop :=
  ∃ a, 4 * (g.base x).toNat ≤ a ∧ a < 4 * (g.base x).toNat + g.blockSize.toNat ∧
    startAddr.toNat ≤ a ∧ a < startAddr.toNat + size.toNat

/-- After the flush the memory has what a read of the cache returns for the words of the
range, as it did before; and it is as before outside the blocks that touch the range. -/
structure FlushCompletes (M : WordMemory σ) (lv : Level g σ) (startAddr size : Word) : Prop where
  holds : ∀ x, InRange startAddr size x → ∀ coreId,
    M.content (lv.flushRange startAddr size).memory x =
      ((lv.flushRange startAddr size).read (byteAddr x) coreId).2.1
  reads : ∀ x coreId, ((lv.flushRange startAddr size).read (byteAddr x) coreId).2.1 =
    (lv.read (byteAddr x) coreId).2.1
  others : ∀ x, ¬BlockTouches g startAddr size x →
    M.content (lv.flushRange startAddr size).memory x = M.content lv.memory x

/-- Where the memory does not have the copy of a word of the range, its line is marked as
modified, its block does not begin before the range, and the range ends below the top of
the address space. -/
def FlushReaches (M : WordMemory σ) (lv : Level g σ) (startAddr size : Word) : Prop :=
  ∀ x v, InRange startAddr size x → lv.cache.lines.held x = some v →
    M.content lv.memory x ≠ v →
    lv.cache.lines.dirty (g.line x) = true ∧ startAddr.toNat ≤ 4 * (g.base x).toNat ∧
      startAddr.toNat + size.toNat < 2 ^ 32

theorem beginsInRange_line (x : WordAddr) (hsum : startAddr.toNat + size.toNat ≤ 2 ^ 32) :
    beginsInRange g startAddr size (g.line x) = true ↔
      startAddr.toNat ≤ 4 * (g.base x).toNat ∧
        4 * (g.base x).toNat < startAddr.toNat + size.toNat ∧
        startAddr.toNat + size.toNat < 2 ^ 32 := by
  unfold beginsInRange
  rw [g.blockAddressOf_line, Bool.and_eq_true, decide_eq_true_iff, decide_eq_true_iff,
    BitVec.le_def, BitVec.lt_def, byteAddr_toNat, BitVec.toNat_add]
  have hbase := (g.base x).isLt
  rcases Nat.lt_or_eq_of_le hsum with hlt | heq
  · rw [Nat.mod_eq_of_lt hlt]
    omega
  · rw [heq, Nat.mod_self]
    omega

/-- A word of the memory after the flush. -/
theorem flushRange_content (h : lv.Good M) (x : WordAddr) :
    M.content (lv.flushRange startAddr size).memory x =
      if lv.cache.lines.dirty (g.line x) && beginsInRange g startAddr size (g.line x) then
        (lv.state M).view x
      else M.content lv.memory x :=
  congrFun (congrArg State.memory (flushRange_spec h startAddr size).2) x

theorem flushRange_read (h : lv.Good M) (x : WordAddr) (coreId : Nat) :
    ((lv.flushRange startAddr size).read (byteAddr x) coreId).2.1 = (lv.state M).view x := by
  obtain ⟨hgood, hstate⟩ := flushRange_spec h startAddr size
  rw [(read_spec hgood x coreId).1, hstate, flushAll_view lv.cache.lines_granular]

/-- The flush of a range that does not pass the top of the address space is complete
exactly if it reaches the copies that the memory does not have. -/
theorem flush_range_iff (h : lv.Good M) (hsum : startAddr.toNat + size.toNat ≤ 2 ^ 32) :
    FlushCompletes M lv startAddr size ↔ FlushReaches M lv startAddr size := by
  constructor
  · intro hcomplete x v hin hheld hne
    have hword := hcomplete.holds x hin 0
    have hview : (lv.state M).view x = v := by
      show (lv.cache.lines.held x).getD _ = v
      rw [hheld]
      rfl
    rw [flushRange_content h, flushRange_read h, hview] at hword
    split at hword
    · next hflushed =>
      obtain ⟨hdirty, hbegins⟩ := Bool.and_eq_true_iff.mp hflushed
      obtain ⟨hfirst, _, htop⟩ := (beginsInRange_line x hsum).mp hbegins
      exact ⟨hdirty, hfirst, htop⟩
    · exact absurd hword hne
  · intro hreach
    refine ⟨fun x hin coreId => ?_, fun x coreId => ?_, fun x houtside => ?_⟩
    · rw [flushRange_content h, flushRange_read h]
      split
      · rfl
      · next hkept =>
        cases hheld : lv.cache.lines.held x with
        | none =>
          show _ = (lv.cache.lines.held x).getD (M.content lv.memory x)
          rw [hheld]
          rfl
        | some v =>
          show _ = (lv.cache.lines.held x).getD _
          rw [hheld]
          by_contra hne
          obtain ⟨hdirty, hfirst, htop⟩ := hreach x v hin hheld hne
          refine hkept (Bool.and_eq_true_iff.mpr ⟨hdirty, ?_⟩)
          refine (beginsInRange_line x hsum).mpr ⟨hfirst, ?_, htop⟩
          have hle : (g.base x).toNat ≤ x.toNat := by
            rw [g.base_toNat]
            exact Nat.sub_le _ _
          have := hin.2
          omega
    · rw [flushRange_read h, (read_spec h x coreId).1]
    · rw [flushRange_content h]
      refine if_neg fun hflushed => houtside ?_
      obtain ⟨_, hbegins⟩ := Bool.and_eq_true_iff.mp hflushed
      obtain ⟨hfirst, hend, _⟩ := (beginsInRange_line x hsum).mp hbegins
      have hpos := g.wordBlocks
      exact ⟨4 * (g.base x).toNat, Nat.le_refl _, by omega, hfirst, hend⟩

/-- One modified word, not the first of its block. -/
def oneModified : Level l1Geometry (ByteMemory (2 ^ 32)) :=
  (fresh l1Geometry 1 zeroMemory).writeWord (byteAddr (wordOf 0x44)) 7

theorem oneModified_spec : oneModified.Consistent (ByteMemory.wordMemory _) ∧
    (oneModified.state (ByteMemory.wordMemory _)).view = Function.update
      ((fresh l1Geometry 1 zeroMemory).state (ByteMemory.wordMemory _)).view (wordOf 0x44) 7 :=
  Consistent.writeWord (init_consistent 1 trivial) _ _ fun y _ => zeroMemory_backed y

/-- The range of its block. -/
theorem flush_range_block :
    FlushCompletes (ByteMemory.wordMemory _) oneModified 0x40 0x40 ↔
      FlushReaches (ByteMemory.wordMemory _) oneModified 0x40 0x40 :=
  flush_range_iff oneModified_spec.1.toGood (by decide)

/-- The range of the word alone. -/
theorem flush_range_misses : ¬∀ (lv : Level l1Geometry (ByteMemory (2 ^ 32)))
    (startAddr size : Word), lv.Good (ByteMemory.wordMemory _) →
      startAddr.toNat + size.toNat ≤ 2 ^ 32 →
      FlushCompletes (ByteMemory.wordMemory _) lv startAddr size := by
  intro h
  have hgood := oneModified_spec.1.toGood
  have hword := (h oneModified 0x44 4 hgood (by decide)).holds (wordOf 0x44)
    ⟨by decide, by decide⟩ 0
  have hbegins : beginsInRange l1Geometry 0x44 4 (l1Geometry.line (wordOf 0x44)) = false := by
    decide
  have hmemory : (ByteMemory.wordMemory _).content oneModified.memory (wordOf 0x44) = 0 := by
    decide
  rw [flushRange_content hgood, flushRange_read hgood, hbegins, Bool.and_false,
    oneModified_spec.2, Function.update_self, hmemory] at hword
  exact absurd hword (by decide)

end Level
end RiscvEmulator.Memory
