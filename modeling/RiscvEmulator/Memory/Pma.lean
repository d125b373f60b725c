import RiscvEmulator.Memory.Geometry

/-! # Physical memory attributes

The regions of `PMAController` and their lookup. The default regions are the
only ones: nothing adds or removes a region at run time. -/
namespace RiscvEmulator.Memory

inductive MemoryType where
  | normalMemory | deviceMemory | ioMemory | reserved
deriving DecidableEq, Repr

inductive CachePolicy where
  | writeBack | writeThrough | writeCombining | uncached | uncacheable
deriving DecidableEq, Repr

structure PMAEntry where
  startAddr : Word
  endAddr : Word
  readable : Bool
  writable : Bool
  executable : Bool
  atomic : Bool
  cacheable : Bool
  deviceMemory : Bool
  instructionCache : Bool
  dataCache : Bool
deriving DecidableEq, Repr

namespace PMAEntry

/-- The attributes of a memory type. -/
def ofType (startAddr endAddr : Word) : MemoryType → PMAEntry
  | .normalMemory =>
    { startAddr, endAddr, readable := true, writable := true, executable := true, atomic := true
      cacheable := true, deviceMemory := false, instructionCache := true, dataCache := true }
  | .deviceMemory =>
    { startAddr, endAddr, readable := true, writable := true, executable := false, atomic := true
      cacheable := false, deviceMemory := true, instructionCache := false, dataCache := false }
  | .ioMemory =>
    { startAddr, endAddr, readable := true, writable := true, executable := false
      atomic := false, cacheable := false, deviceMemory := true, instructionCache := false
      dataCache := false }
  | .reserved =>
    { startAddr, endAddr, readable := false, writable := false, executable := false
      atomic := false, cacheable := false, deviceMemory := false, instructionCache := false
      dataCache := false }

def withCache (e : PMAEntry) (cached : Bool) : PMAEntry :=
  { e with cacheable := cached, instructionCache := cached, dataCache := cached }

/-- The cache policy overrides what the type says about caching. -/
def withPolicy (e : PMAEntry) : CachePolicy → PMAEntry
  | .writeBack | .writeThrough => e.withCache true
  | .writeCombining | .uncached | .uncacheable => e.withCache false

def contains (e : PMAEntry) (addr : Word) : Bool := e.startAddr ≤ addr && addr ≤ e.endAddr

end PMAEntry

namespace PMAController

/-- Insert before the first region that starts at or after the new one. -/
def addRegion (regions : List PMAEntry) (startAddr endAddr : Word) (type : MemoryType)
    (policy : CachePolicy) : List PMAEntry :=
  regions.takeWhile (·.startAddr < startAddr) ++
    (PMAEntry.ofType startAddr endAddr type).withPolicy policy ::
      regions.dropWhile (·.startAddr < startAddr)

def findEntry (regions : List PMAEntry) (addr : Word) : Option PMAEntry :=
  regions.find? (·.contains addr)

def hasDataCache (regions : List PMAEntry) (addr : Word) : Bool :=
  ((findEntry regions addr).map (·.dataCache)).getD false

/-- `initializeDefaultRegions`. -/
def defaultRegions : List PMAEntry :=
  let regions := addRegion [] 0x00000000 0x00000FFF .normalMemory .writeBack
  let regions := addRegion regions 0x00002000 0x0000FFFF .normalMemory .writeBack
  let regions := addRegion regions 0x00010000 0x0004EFFF .normalMemory .writeBack
  let regions := addRegion regions 0x00050000 0x0007FFFF .normalMemory .writeBack
  let regions := addRegion regions 0x00080000 0x00082007 .normalMemory .writeBack
  let regions := addRegion regions 0x00082008 0x0008201F .normalMemory .writeThrough
  let regions := addRegion regions 0x00082020 0x00087FFF .normalMemory .writeBack
  let regions := addRegion regions 0x00090000 0x0009FFFF .deviceMemory .uncached
  let regions := addRegion regions 0x10000000 0x1000001F .deviceMemory .uncached
  let regions := addRegion regions 0x000A0000 0x000A3FFF .normalMemory .writeBack
  let regions := addRegion regions 0x000A4000 0x000A7FFF .normalMemory .writeBack
  let regions := addRegion regions 0x000A8000 0x000ABFFF .normalMemory .writeBack
  addRegion regions 0x000AC000 0x000AFFFF .normalMemory .writeBack

end PMAController

/-- Whether loads and stores of an address go through the data cache. -/
def hasDataCache (addr : Word) : Bool :=
  PMAController.hasDataCache PMAController.defaultRegions addr

/-! ## The cacheable addresses -/

/-- What is cached, by the bounds of the regions in order. -/
private def cached (a : Nat) : List (Nat × Nat × Bool) → Prop
  | [] => False
  | (s, e, true) :: bounds => (s ≤ a ∧ a ≤ e) ∨ cached a bounds
  | (s, e, false) :: bounds => ¬(s ≤ a ∧ a ≤ e) ∧ cached a bounds

private theorem hasDataCache_iff_cached (regions : List PMAEntry) (a : Word) :
    PMAController.hasDataCache regions a = true ↔ cached a.toNat
      (regions.map fun e => (e.startAddr.toNat, e.endAddr.toNat, e.dataCache)) := by
  induction regions with
  | nil => simp [PMAController.hasDataCache, PMAController.findEntry, cached]
  | cons e regions ih =>
    have hc : e.contains a = true ↔ e.startAddr.toNat ≤ a.toNat ∧ a.toNat ≤ e.endAddr.toNat := by
      simp [PMAEntry.contains, BitVec.le_def]
    rw [List.map_cons]
    cases he : e.contains a with
    | true =>
      have hin := hc.mp he
      cases hd : e.dataCache <;>
        simp [PMAController.hasDataCache, PMAController.findEntry, he, hd, cached, hin]
    | false =>
      have hout := fun h => Bool.false_ne_true (he.symm.trans (hc.mpr h))
      simp only [PMAController.hasDataCache, PMAController.findEntry, List.find?_cons, he] at ih ⊢
      cases hd : e.dataCache with
      | false => exact ih.trans (and_iff_right hout).symm
      | true => exact ih.trans (or_iff_right hout).symm

theorem hasDataCache_iff (a : Word) : hasDataCache a = true ↔
    a.toNat < 0x1000 ∨ (0x2000 ≤ a.toNat ∧ a.toNat < 0x4F000) ∨
      (0x50000 ≤ a.toNat ∧ a.toNat < 0x88000) ∨ (0xA0000 ≤ a.toNat ∧ a.toNat < 0xB0000) := by
  have hbounds : PMAController.defaultRegions.map
      (fun e => (e.startAddr.toNat, e.endAddr.toNat, e.dataCache)) =
        [(0x0, 0xFFF, true), (0x2000, 0xFFFF, true), (0x10000, 0x4EFFF, true),
          (0x50000, 0x7FFFF, true), (0x80000, 0x82007, true), (0x82008, 0x8201F, true),
          (0x82020, 0x87FFF, true), (0x90000, 0x9FFFF, false), (0xA0000, 0xA3FFF, true),
          (0xA4000, 0xA7FFF, true), (0xA8000, 0xABFFF, true), (0xAC000, 0xAFFFF, true),
          (0x10000000, 0x1000001F, false)] := by decide
  rw [hasDataCache, hasDataCache_iff_cached, hbounds]
  simp only [cached, and_false, or_false]
  omega

theorem hasDataCache_lt {a : Word} (h : hasDataCache a = true) : a.toNat < 0xB0000 := by
  have := (hasDataCache_iff a).mp h
  omega

/-- DDR backs the lines of cached words. -/
theorem hasDataCache_word {x : WordAddr} (h : hasDataCache (byteAddr x) = true) :
    x.toNat < 0x10000000 := by
  have := hasDataCache_lt h
  rw [byteAddr_toNat] at this
  omega

/-- So is a word. -/
theorem hasDataCache_wordOf (a : Word) : hasDataCache (byteAddr (wordOf a)) = hasDataCache a := by
  rw [Bool.eq_iff_iff, hasDataCache_iff, hasDataCache_iff, byteAddr_toNat, wordOf_toNat]
  omega

/-- And so are the bytes of a cached word. -/
theorem cached_byte {x : WordAddr} (h : hasDataCache (byteAddr x) = true) {k : Nat} (hk : k < 4) :
    ∃ b : Word, b.toNat = 4 * x.toNat + k ∧ hasDataCache b = true := by
  have hlt := hasDataCache_lt h
  rw [byteAddr_toNat] at hlt
  have hto : (BitVec.ofNat 32 (4 * x.toNat + k)).toNat = 4 * x.toNat + k := by
    rw [BitVec.toNat_ofNat]
    omega
  have hword : wordOf (BitVec.ofNat 32 (4 * x.toNat + k)) = x := by
    apply BitVec.eq_of_toNat_eq
    rw [wordOf_toNat, hto]
    omega
  exact ⟨_, hto, by rw [← hasDataCache_wordOf, hword]; exact h⟩

end RiscvEmulator.Memory
