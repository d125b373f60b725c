import RiscvEmulator.Lib.Sharing
import RiscvEmulator.Memory.Pma
import RiscvEmulator.Memory.Transparency

/-! # The cache hierarchy of the Simulator

Private L1 instruction and data caches of `N` cores over one L2 over DDR, as the
constructor of `Simulator` wires them. The L2 with its DDR is one word memory
(`l2Memory`); the L1 data caches are private caches sharing it. -/
namespace RiscvEmulator.Memory
open Lib.LineCache

structure Hierarchy (N : Nat) where
  l1Icaches : Fin N → Cache l1Geometry
  l1Dcaches : Fin N → Cache l1Geometry
  l2Cache : Level l2Geometry DDRMemory

/-- The L2 over DDR. -/
abbrev L2 := Level l2Geometry DDRMemory

/-- The L2 over DDR is a word memory. -/
def l2Memory : WordMemory L2 := Level.wordMemory l2Geometry (ByteMemory.wordMemory ddrSize)

/-- An empty cache stays empty. -/
theorem Cache.init_invalidateAll (g : Geometry) (numCores : Nat) :
    (Cache.init g numCores).invalidateAll = Cache.init g numCores := by
  unfold Cache.init Cache.invalidateAll CacheStats.reset
  simp only [List.map_replicate]

namespace Hierarchy
variable {N : Nat}

/-- Empty caches over DDR contents. -/
def init (N : Nat) (ddr : DDRMemory) : Hierarchy N where
  l1Icaches _ := Cache.init l1Geometry N
  l1Dcaches _ := Cache.init l1Geometry N
  l2Cache := ⟨Cache.init l2Geometry N, ddr⟩

/-- `invalidate_all` of every cache. -/
def invalidateAll (h : Hierarchy N) : Hierarchy N where
  l1Icaches i := (h.l1Icaches i).invalidateAll
  l1Dcaches i := (h.l1Dcaches i).invalidateAll
  l2Cache := ⟨h.l2Cache.cache.invalidateAll, h.l2Cache.memory⟩

theorem init_invalidateAll (N : Nat) (ddr : DDRMemory) :
    (init N ddr).invalidateAll = init N ddr := by
  unfold init invalidateAll
  simp only [Cache.init_invalidateAll]

/-! ## Accesses of a core -/

def instructionCache (h : Hierarchy N) (i : Fin N) : Level l1Geometry L2 :=
  ⟨h.l1Icaches i, h.l2Cache⟩

def dataCache (h : Hierarchy N) (i : Fin N) : Level l1Geometry L2 := ⟨h.l1Dcaches i, h.l2Cache⟩

def setInstructionCache (h : Hierarchy N) (i : Fin N) (lv : Level l1Geometry L2) : Hierarchy N :=
  { h with l1Icaches := Function.update h.l1Icaches i lv.cache, l2Cache := lv.memory }

def setDataCache (h : Hierarchy N) (i : Fin N) (lv : Level l1Geometry L2) : Hierarchy N :=
  { h with l1Dcaches := Function.update h.l1Dcaches i lv.cache, l2Cache := lv.memory }

def fetch (h : Hierarchy N) (i : Fin N) (physAddr : Word) : Word × Hierarchy N :=
  let (_, data, lv) := (h.instructionCache i).read physAddr i.val
  (data, h.setInstructionCache i lv)

def load (h : Hierarchy N) (i : Fin N) (physAddr : Word) : Word × Hierarchy N :=
  let (_, data, lv) := (h.dataCache i).read physAddr i.val
  (data, h.setDataCache i lv)

def store (h : Hierarchy N) (i : Fin N) (addr physAddr data : Word) : Hierarchy N :=
  h.setDataCache i ((h.dataCache i).write addr physAddr data i.val).2

def atomic (h : Hierarchy N) (i : Fin N) (physAddr : Word) (op : Atomic) : Word × Hierarchy N :=
  let (old, lv) := (h.dataCache i).atomic physAddr i.val op
  (old, h.setDataCache i lv)

/-- The memory face of a data cache, used by LR, SC and the min/max atomics. -/
def readWord (h : Hierarchy N) (i : Fin N) (physAddr : Word) : Word × Hierarchy N :=
  let (data, lv) := (h.dataCache i).readWord physAddr
  (data, h.setDataCache i lv)

def writeWord (h : Hierarchy N) (i : Fin N) (physAddr data : Word) : Hierarchy N :=
  h.setDataCache i ((h.dataCache i).writeWord physAddr data)

/-! ## The data caches as sharers of the L2 -/

/-- The copies of the data caches over what the L2 shows. -/
def shared (h : Hierarchy N) :
    Shared (Fin N) WordAddr (Fin l1Geometry.numSets × Word) Word :=
  ⟨fun i => (h.l1Dcaches i).lines, l2Memory.content h.l2Cache⟩

theorem shared_granular (h : Hierarchy N) (i : Fin N) :
    (h.shared.caches i).Granular l1Geometry.line :=
  (h.l1Dcaches i).lines_granular

/-- The invariant of the hierarchy, whatever the cores do: the sets of every
cache are in order, the L2 is consistent, DDR backs all modified lines, and the
instruction caches modify none. -/
structure Good (h : Hierarchy N) : Prop where
  l2 : l2Memory.inv h.l2Cache
  data : ∀ i, (h.dataCache i).Good l2Memory
  instruction : ∀ i, (h.instructionCache i).Good l2Memory
  instructionClean : ∀ i l, (h.l1Icaches i).lines.dirty l = false

/-- DDR backs the first gigabyte, and the lines of both levels in it. -/
theorem l2Memory_dom {x : WordAddr} (hx : x.toNat < 0x10000000) : l2Memory.dom x := by
  intro y hy
  have hl : y.toNat / 16 = x.toNat / 16 := (l2Geometry.line_eq_iff).mp hy
  show 4 * y.toNat + 4 ≤ 0x40000000
  omega

theorem l2Memory_dom_line {x y : WordAddr} (hx : x.toNat < 0x10000000)
    (hl : l1Geometry.line y = l1Geometry.line x) : l2Memory.dom y := by
  have hl : y.toNat / 16 = x.toNat / 16 := (l1Geometry.line_eq_iff).mp hl
  exact l2Memory_dom (by omega)

theorem init_good (ddr : DDRMemory) : (init N ddr).Good where
  l2 := Level.init_consistent N trivial
  data _ := (Level.init_consistent N (Level.init_consistent N trivial)).toGood
  instruction _ := (Level.init_consistent N (Level.init_consistent N trivial)).toGood
  instructionClean _ _ := by simp [init, Cache.init_lines, Lines.empty]

/-- At first every cache shows what DDR holds. -/
theorem init_memory (ddr : DDRMemory) (x : WordAddr) :
    (init N ddr).shared.memory x = ddr.readWord (byteAddr x) :=
  congrFun (Level.init_view (g := l2Geometry) (M := ByteMemory.wordMemory ddrSize) N ddr) x

theorem init_instruction_view (ddr : DDRMemory) (i : Fin N) (x : WordAddr) :
    (((init N ddr).instructionCache i).state l2Memory).view x = ddr.readWord (byteAddr x) := by
  rw [← init_memory (N := N) ddr x]
  exact congrFun (Level.init_view (g := l1Geometry) (M := l2Memory) N (init N ddr).l2Cache) x

/-! ## What the accesses do -/

section
variable {h : Hierarchy N}

/-- A move of one data cache is a move of one sharer. -/
theorem Good.setDataCache (hg : h.Good) (i : Fin N) {lv : Level l1Geometry L2}
    (hlv : lv.Good l2Memory) : (h.setDataCache i lv).Good ∧
      (h.setDataCache i lv).shared = h.shared.set i (lv.state l2Memory) := by
  refine ⟨⟨hlv.inv, ?_, fun j => ⟨(hg.instruction j).wf, hlv.inv,
    (hg.instruction j).backed⟩, hg.instructionClean⟩, ?_⟩
  · intro j
    by_cases hj : j = i
    · subst hj
      simpa [dataCache, Hierarchy.setDataCache] using hlv
    · simp only [dataCache, Hierarchy.setDataCache, Function.update_of_ne hj]
      exact ⟨(hg.data j).wf, hlv.inv, (hg.data j).backed⟩
  · simp only [shared, Shared.set, Hierarchy.setDataCache, Shared.mk.injEq]
    refine ⟨funext fun j => ?_, rfl⟩
    by_cases hj : j = i
    · subst hj
      simp [Level.state]
    · simp [hj]

/-- A fetch leaves alone what the data caches and the L2 show. -/
theorem fetch_spec (hg : h.Good) (i : Fin N) (a : Word) :
    (h.fetch i a).2.Good ∧ (h.fetch i a).2.shared = h.shared := by
  have hread := Level.read_spec (hg.instruction i) (wordOf a) i.val
  rw [← Level.read_wordOf] at hread
  obtain ⟨_, hlv, ht⟩ := hread
  have hcont : l2Memory.content ((h.instructionCache i).read a i.val).2.2.memory =
      l2Memory.content h.l2Cache := by
    funext y
    rcases ht.memory_cases y with hm | ⟨hd, _⟩
    · exact hm
    · rw [show ((h.instructionCache i).state l2Memory).lines.dirty _ = false from
        hg.instructionClean i _] at hd
      cases hd
  refine ⟨⟨hlv.inv, fun j => ⟨(hg.data j).wf, hlv.inv, (hg.data j).backed⟩, ?_, ?_⟩, ?_⟩
  · intro j
    by_cases hj : j = i
    · subst hj
      simpa [fetch, instructionCache, setInstructionCache] using hlv
    · simp only [fetch, instructionCache, setInstructionCache, Function.update_of_ne hj]
      exact ⟨(hg.instruction j).wf, hlv.inv, (hg.instruction j).backed⟩
  · intro j l
    by_cases hj : j = i
    · subst hj
      simp only [fetch, setInstructionCache, Function.update_self]
      by_contra hd
      have := ht.dirty_le (Bool.eq_true_of_not_eq_false hd)
      rw [show ((h.instructionCache j).state l2Memory).lines.dirty l = false from
        hg.instructionClean j l] at this
      cases this
    · simpa [fetch, setInstructionCache, hj] using hg.instructionClean j l
  · simp only [shared, fetch, setInstructionCache, hcont]

/-- A fetch returns what the instruction cache shows. -/
theorem fetch_value (hg : h.Good) (i : Fin N) (x : WordAddr) :
    (h.fetch i (byteAddr x)).1 = ((h.instructionCache i).state l2Memory).view x :=
  (Level.read_spec (hg.instruction i) x i.val).1

/-- The low two bits of an address do not matter for a load. -/
theorem load_wordOf (h : Hierarchy N) (i : Fin N) (a : Word) :
    h.load i a = h.load i (byteAddr (wordOf a)) := by
  unfold load
  rw [Level.read_wordOf]

/-- A load returns what core `i` sees of the word. -/
theorem load_spec (hg : h.Good) (i : Fin N) (x : WordAddr) :
    (h.load i (byteAddr x)).1 = (h.shared.seenBy i).view x ∧ (h.load i (byteAddr x)).2.Good ∧
      ∃ t, Touch l1Geometry.line x (h.shared.seenBy i) t ∧
        (h.load i (byteAddr x)).2.shared = h.shared.set i t := by
  obtain ⟨hv, hlv, ht⟩ := Level.read_spec (hg.data i) x i.val
  obtain ⟨h1, h2⟩ := hg.setDataCache i hlv
  exact ⟨hv, h1, _, ht, h2⟩

/-- A store that is written through. -/
theorem store_through_spec (hg : h.Good) (i : Fin N) {addr physAddr : Word} (x : WordAddr)
    (v : Word) (ha : writeThroughAddr addr physAddr = some (byteAddr x))
    (hx : x.toNat < 0x10000000) :
    (h.store i addr physAddr v).Good ∧ (h.store i addr physAddr v).shared =
      h.shared.set i ((h.shared.seenBy i).through l1Geometry.line x v) := by
  obtain ⟨hlv, hs⟩ := Level.write_through_spec (hg.data i) x v i.val ha (l2Memory_dom hx)
  obtain ⟨h1, h2⟩ := hg.setDataCache i hlv
  exact ⟨h1, h2.trans (congrArg _ hs)⟩

/-- Any other store. -/
theorem store_spec (hg : h.Good) (i : Fin N) {addr : Word} (x : WordAddr) (v : Word)
    (ha : writeThroughAddr addr (byteAddr x) = none) (hx : x.toNat < 0x10000000) :
    (h.store i addr (byteAddr x) v).Good ∧ ∃ t,
      Touch l1Geometry.line x (h.shared.seenBy i) t ∧
        (h.store i addr (byteAddr x) v).shared =
          h.shared.set i (t.store l1Geometry.line x v) := by
  obtain ⟨hlv, t, ht, hs⟩ := Level.write_spec (hg.data i) x v i.val ha
    fun y hy => l2Memory_dom_line hx hy
  obtain ⟨h1, h2⟩ := hg.setDataCache i hlv
  exact ⟨h1, t, ht, h2.trans (congrArg _ hs)⟩

theorem atomic_spec (hg : h.Good) (i : Fin N) (x : WordAddr) (op : Atomic)
    (hx : x.toNat < 0x10000000) :
    (h.atomic i (byteAddr x) op).1 = h.shared.memory x ∧ (h.atomic i (byteAddr x) op).2.Good ∧
      (h.atomic i (byteAddr x) op).2.shared = h.shared.set i
        ((h.shared.seenBy i).through l1Geometry.line x (op.apply (h.shared.memory x))) := by
  obtain ⟨hr, hlv, hs⟩ := Level.atomic_spec (hg.data i) x i.val op (l2Memory_dom hx)
  obtain ⟨h1, h2⟩ := hg.setDataCache i hlv
  exact ⟨hr, h1, h2.trans (congrArg _ hs)⟩

theorem readWord_spec (hg : h.Good) (i : Fin N) (x : WordAddr) :
    (h.readWord i (byteAddr x)).1 = (h.shared.seenBy i).view x ∧
      (h.readWord i (byteAddr x)).2.Good ∧
      ∃ t, Touch l1Geometry.line x (h.shared.seenBy i) t ∧
        (h.readWord i (byteAddr x)).2.shared = h.shared.set i t := by
  obtain ⟨hv, hlv, ht⟩ := Level.read_spec (hg.data i) x 0
  obtain ⟨h1, h2⟩ := hg.setDataCache i hlv
  exact ⟨hv, h1, _, ht, h2⟩

theorem writeWord_spec (hg : h.Good) (i : Fin N) (x : WordAddr) (v : Word)
    (hx : x.toNat < 0x10000000) :
    (h.writeWord i (byteAddr x) v).Good ∧ ∃ t,
      Touch l1Geometry.line x (h.shared.seenBy i) t ∧
        (h.writeWord i (byteAddr x) v).shared = h.shared.set i
          (if isWriteThrough (byteAddr x) then t.storeBoth x v
            else t.store l1Geometry.line x v) := by
  obtain ⟨hlv, t, ht, hs⟩ := Level.writeWord_spec (hg.data i) x v
    fun y hy => l2Memory_dom_line hx hy
  obtain ⟨h1, h2⟩ := hg.setDataCache i hlv
  exact ⟨h1, t, ht, h2.trans (congrArg _ hs)⟩

/-! ## Fetches and loads -/

/-- What a fetch of `x` gets is current: a copy in the instruction cache is the
word as the data cache or else the L2 has it, and if there is none, a copy in the
data cache is the word as the L2 has it. -/
structure CodeCurrent (h : Hierarchy N) (i : Fin N) (x : WordAddr) : Prop where
  fetched : ∀ w, (h.l1Icaches i).lines.held x = some w →
    ((h.l1Dcaches i).lines.held x).getD (h.shared.memory x) = w
  written : (h.l1Icaches i).lines.held x = none →
    ∀ w, (h.l1Dcaches i).lines.held x = some w → h.shared.memory x = w

/-- A fetch and a load of the same core get the same word only then. -/
theorem fetch_eq_load_iff (hg : h.Good) (i : Fin N) (x : WordAddr) :
    (h.fetch i (byteAddr x)).1 = (h.load i (byteAddr x)).1 ↔ h.CodeCurrent i x := by
  rw [fetch_value hg i x, (load_spec hg i x).1]
  show ((h.l1Icaches i).lines.held x).getD (h.shared.memory x) =
    ((h.l1Dcaches i).lines.held x).getD (h.shared.memory x) ↔ _
  cases hi : (h.l1Icaches i).lines.held x with
  | some w =>
    rw [Option.getD_some]
    constructor
    · intro heq
      constructor
      · intro w' hw'
        rw [hi] at hw'
        exact heq.symm.trans (Option.some.inj hw')
      · intro hnone
        rw [hi] at hnone
        cases hnone
    · intro hc
      exact (hc.fetched w hi).symm
  | none =>
    rw [Option.getD_none]
    constructor
    · intro heq
      constructor
      · intro w' hw'
        rw [hi] at hw'
        cases hw'
      · intro _ w hw
        rw [hw, Option.getD_some] at heq
        exact heq
    · intro hc
      cases hd : (h.l1Dcaches i).lines.held x with
      | some w => exact hc.written hi w hd
      | none => rfl

end

end Hierarchy
end RiscvEmulator.Memory
