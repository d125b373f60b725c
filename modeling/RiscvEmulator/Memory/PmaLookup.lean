import Mathlib.Data.List.Sort
import Mathlib.Data.Multiset.Filter
import RiscvEmulator.Lib.LowerBound
import RiscvEmulator.Memory.Pma

/-! # Regions added and removed in any order

The controller keeps its regions sorted by where they start. Where no two of them
overlap, what it says of an address is what the region around it says, however the
regions came to be there. -/
namespace RiscvEmulator.Memory
open Lib.LowerBound

namespace PMAController
variable {regions : List PMAEntry} {e : PMAEntry} {addr startAddr endAddr : Word}

/-! ## Calls -/

def removeRegion (regions : List PMAEntry) (startAddr : Word) : List PMAEntry :=
  regions.filter (·.startAddr ≠ startAddr)

/-- An attribute that no region means to be absent. -/
def flag (field : PMAEntry → Bool) (regions : List PMAEntry) (addr : Word) : Bool :=
  ((findEntry regions addr).map field).getD false

def isReadable : List PMAEntry → Word → Bool := flag (·.readable)
def isWritable : List PMAEntry → Word → Bool := flag (·.writable)
def isExecutable : List PMAEntry → Word → Bool := flag (·.executable)
def supportsAtomic : List PMAEntry → Word → Bool := flag (·.atomic)
def isCacheable : List PMAEntry → Word → Bool := flag (·.cacheable)
def isDeviceMemory : List PMAEntry → Word → Bool := flag (·.deviceMemory)
def hasInstructionCache : List PMAEntry → Word → Bool := flag (·.instructionCache)

def getMemoryType (regions : List PMAEntry) (addr : Word) : MemoryType :=
  match findEntry regions addr with
  | none => .reserved
  | some entry =>
    if entry.deviceMemory then if entry.writable then .deviceMemory else .reserved
    else .normalMemory

def getCachePolicy (regions : List PMAEntry) (addr : Word) : CachePolicy :=
  match findEntry regions addr with
  | none => .uncacheable
  | some entry =>
    if !entry.cacheable then .uncacheable
    else if entry.deviceMemory then .uncached
    else .writeBack

inductive RegionCall where
  | addRegion (startAddr endAddr : Word) (type : MemoryType) (cachePolicy : CachePolicy)
  | removeRegion (startAddr : Word)

def call (regions : List PMAEntry) : RegionCall → List PMAEntry
  | .addRegion startAddr endAddr type cachePolicy =>
    addRegion regions startAddr endAddr type cachePolicy
  | .removeRegion startAddr => removeRegion regions startAddr

/-- From no regions on. -/
def afterCalls (calls : List RegionCall) : List PMAEntry := calls.foldl call []

/-! ## What the calls are for -/

/-- What the lookups say of an address in a region, or in none. -/
structure Attributes where
  readable : Bool
  writable : Bool
  executable : Bool
  atomic : Bool
  cacheable : Bool
  deviceMemory : Bool
  instructionCache : Bool
  dataCache : Bool
  memoryType : MemoryType
  cachePolicy : CachePolicy

def attributes (regions : List PMAEntry) (addr : Word) : Attributes where
  readable := isReadable regions addr
  writable := isWritable regions addr
  executable := isExecutable regions addr
  atomic := supportsAtomic regions addr
  cacheable := isCacheable regions addr
  deviceMemory := isDeviceMemory regions addr
  instructionCache := hasInstructionCache regions addr
  dataCache := hasDataCache regions addr
  memoryType := getMemoryType regions addr
  cachePolicy := getCachePolicy regions addr

def Attributes.absent : Attributes where
  readable := false
  writable := false
  executable := false
  atomic := false
  cacheable := false
  deviceMemory := false
  instructionCache := false
  dataCache := false
  memoryType := .reserved
  cachePolicy := .uncacheable

/-- The attributes of a region. -/
def Attributes.ofEntry (e : PMAEntry) : Attributes where
  readable := e.readable
  writable := e.writable
  executable := e.executable
  atomic := e.atomic
  cacheable := e.cacheable
  deviceMemory := e.deviceMemory
  instructionCache := e.instructionCache
  dataCache := e.dataCache
  memoryType := if e.deviceMemory then if e.writable then .deviceMemory else .reserved
    else .normalMemory
  cachePolicy := if !e.cacheable then .uncacheable else if e.deviceMemory then .uncached
    else .writeBack

/-- A call adds its region or ends every one that starts there. -/
def liveCall (live : Multiset PMAEntry) : RegionCall → Multiset PMAEntry
  | .addRegion startAddr endAddr type cachePolicy =>
    (PMAEntry.ofType startAddr endAddr type).withPolicy cachePolicy ::ₘ live
  | .removeRegion startAddr => live.filter (·.startAddr ≠ startAddr)

/-- The regions that have been added and not removed since, in no order. -/
def live (calls : List RegionCall) : Multiset PMAEntry := calls.foldl liveCall 0

/-- The regions have no address in common. -/
def Apart (e e' : PMAEntry) : Prop := ∀ addr, ¬(e.contains addr = true ∧ e'.contains addr = true)

/-- The order of the list. -/
def StartsFirst (e e' : PMAEntry) : Prop := e.startAddr ≤ e'.startAddr

instance : DecidableRel StartsFirst :=
  fun e e' => inferInstanceAs (Decidable (e.startAddr ≤ e'.startAddr))

instance : Std.Total StartsFirst := ⟨fun e e' => BitVec.le_total e.startAddr e'.startAddr⟩

instance : IsTrans PMAEntry StartsFirst := ⟨fun _ _ _ => BitVec.le_trans⟩

/-- The regions are sorted by their start. -/
def Sorted (regions : List PMAEntry) : Prop := regions.Pairwise StartsFirst

/-! ## The list -/

theorem partitioned_of_sorted (h : Sorted regions) (startAddr : Word) :
    Partitioned (·.startAddr < startAddr) regions := by
  refine List.Pairwise.imp ?_ h
  intro e e' hle hlt
  have hle : e.startAddr ≤ e'.startAddr := hle
  have hlt : e'.startAddr < startAddr := of_decide_eq_true hlt
  rw [decide_eq_true_eq]
  rw [BitVec.le_def] at hle
  rw [BitVec.lt_def] at hlt ⊢
  exact Nat.lt_of_le_of_lt hle hlt

/-- The new region goes where `std::lower_bound` finds its place. -/
theorem addRegion_eq (h : Sorted regions) (type : MemoryType) (cachePolicy : CachePolicy) :
    addRegion regions startAddr endAddr type cachePolicy =
      regions.take (lowerBound (·.startAddr < startAddr) regions) ++
        (PMAEntry.ofType startAddr endAddr type).withPolicy cachePolicy ::
          regions.drop (lowerBound (·.startAddr < startAddr) regions) := by
  obtain ⟨htake, hdrop⟩ := split_lowerBound (partitioned_of_sorted h startAddr)
  rw [htake, hdrop]
  rfl

theorem ofType_startAddr (type : MemoryType) (cachePolicy : CachePolicy) :
    ((PMAEntry.ofType startAddr endAddr type).withPolicy cachePolicy).startAddr = startAddr := by
  cases type <;> cases cachePolicy <;> rfl

theorem addRegion_eq_orderedInsert (regions : List PMAEntry) (type : MemoryType)
    (cachePolicy : CachePolicy) : addRegion regions startAddr endAddr type cachePolicy =
      regions.orderedInsert StartsFirst
        ((PMAEntry.ofType startAddr endAddr type).withPolicy cachePolicy) := by
  have htest : (fun e => decide (¬StartsFirst
      ((PMAEntry.ofType startAddr endAddr type).withPolicy cachePolicy) e)) =
      fun e : PMAEntry => decide (e.startAddr < startAddr) := by
    funext e
    rw [decide_eq_decide]
    unfold StartsFirst
    rw [ofType_startAddr]
    exact BitVec.not_le
  rw [List.orderedInsert_eq_take_drop, htest]
  rfl

@[simp] theorem call_add (type : MemoryType) (cachePolicy : CachePolicy) :
    call regions (.addRegion startAddr endAddr type cachePolicy) =
      addRegion regions startAddr endAddr type cachePolicy := rfl

theorem call_sorted (h : Sorted regions) (c : RegionCall) : Sorted (call regions c) := by
  cases c with
  | addRegion startAddr endAddr type cachePolicy =>
    have hinsert := List.Pairwise.orderedInsert (r := StartsFirst)
      ((PMAEntry.ofType startAddr endAddr type).withPolicy cachePolicy) regions h
    rwa [← addRegion_eq_orderedInsert] at hinsert
  | removeRegion startAddr => exact List.Pairwise.filter _ h

theorem afterCalls_sorted (calls : List RegionCall) : Sorted (afterCalls calls) := by
  unfold afterCalls
  suffices hrun : ∀ regions, Sorted regions → Sorted (calls.foldl call regions) from
    hrun [] List.Pairwise.nil
  induction calls with
  | nil => exact fun _ h => h
  | cons c calls ih => exact fun regions h => ih _ (call_sorted h c)

/-- The list holds the live regions. -/
theorem live_eq (calls : List RegionCall) :
    live calls = (afterCalls calls : Multiset PMAEntry) := by
  unfold live afterCalls
  suffices hrun : ∀ regions : List PMAEntry, calls.foldl liveCall (regions : Multiset PMAEntry) =
      ((calls.foldl call regions : List PMAEntry) : Multiset PMAEntry) from hrun []
  induction calls with
  | nil => exact fun _ => rfl
  | cons c calls ih =>
    intro regions
    rw [List.foldl_cons, List.foldl_cons, ← ih]
    congr 1
    cases c with
    | addRegion startAddr endAddr type cachePolicy =>
      rw [call_add, addRegion_eq_orderedInsert]
      exact Multiset.coe_eq_coe.mpr (List.perm_orderedInsert ..).symm
    | removeRegion startAddr => exact Multiset.filter_coe ..

/-! ## Lookups -/

instance : Std.Symm Apart := ⟨fun _ _ h addr hin => h addr hin.symm⟩

/-- Of regions that do not overlap at most one has the address, and it is found. -/
theorem findEntry_of_apart (h : regions.Pairwise Apart) (he : e ∈ regions)
    (hin : e.contains addr = true) : findEntry regions addr = some e := by
  unfold findEntry
  induction regions with
  | nil => cases he
  | cons e' regions ih =>
    obtain ⟨hfirst, hrest⟩ := List.pairwise_cons.mp h
    rcases List.mem_cons.mp he with rfl | he
    · exact List.find?_cons_of_pos hin
    · have hout : ¬e'.contains addr = true := fun hin' => hfirst e he addr ⟨hin', hin⟩
      rw [List.find?_cons, Bool.eq_false_of_not_eq_true hout]
      exact ih hrest he

theorem attributes_of_findEntry (h : findEntry regions addr = some e) :
    attributes regions addr = .ofEntry e := by
  unfold attributes isReadable isWritable isExecutable supportsAtomic isCacheable isDeviceMemory
    hasInstructionCache flag hasDataCache getMemoryType getCachePolicy
  rw [h]
  rfl

theorem attributes_of_none (h : findEntry regions addr = none) :
    attributes regions addr = .absent := by
  unfold attributes isReadable isWritable isExecutable supportsAtomic isCacheable isDeviceMemory
    hasInstructionCache flag hasDataCache getMemoryType getCachePolicy
  rw [h]
  rfl

/-- What the lookups say of the live regions, and what they say of no region. -/
theorem attributes_live {calls : List RegionCall} (h : (live calls).Pairwise Apart) (addr : Word) :
    (∀ e ∈ live calls, e.contains addr = true →
      attributes (afterCalls calls) addr = .ofEntry e) ∧
    ((∀ e ∈ live calls, ¬e.contains addr = true) →
      attributes (afterCalls calls) addr = .absent) := by
  rw [live_eq] at h ⊢
  have hapart := Multiset.pairwise_coe_iff_pairwise.mp h
  exact ⟨fun e he hin => attributes_of_findEntry (findEntry_of_apart hapart he hin),
    fun hout => attributes_of_none (List.find?_eq_none.mpr hout)⟩

/-- The regions stay sorted, and where the live ones do not overlap the lookups of an address
have the attributes of the live region it lies in, whatever the order of the calls. -/
theorem pma_lookup (calls : List RegionCall) : Sorted (afterCalls calls) ∧
    ((live calls).Pairwise Apart →
      (∀ addr, ∀ e ∈ live calls, e.contains addr = true →
        (∀ e' ∈ live calls, e'.contains addr = true → e' = e) ∧
          attributes (afterCalls calls) addr = .ofEntry e) ∧
      (∀ addr, (∀ e ∈ live calls, ¬e.contains addr = true) →
        attributes (afterCalls calls) addr = .absent) ∧
      ∀ calls', live calls' = live calls →
        attributes (afterCalls calls') = attributes (afterCalls calls)) := by
  refine ⟨afterCalls_sorted calls, fun h => ⟨fun addr e he hin => ⟨?_, ?_⟩, ?_, ?_⟩⟩
  · intro e' he' hin'
    rw [live_eq] at h he he'
    have hapart := Multiset.pairwise_coe_iff_pairwise.mp h
    have hfound := (findEntry_of_apart hapart he' hin').symm.trans
      (findEntry_of_apart hapart he hin)
    exact Option.some.inj hfound
  · exact (attributes_live h addr).1 e he hin
  · exact fun addr hout => (attributes_live h addr).2 hout
  · intro calls' hlive
    funext addr
    have h' := attributes_live (hlive ▸ h) addr
    rw [hlive] at h'
    by_cases hin : ∃ e ∈ live calls, e.contains addr = true
    · obtain ⟨e, he, hcontains⟩ := hin
      rw [h'.1 e he hcontains, (attributes_live h addr).1 e he hcontains]
    · have hout : ∀ e ∈ live calls, ¬e.contains addr = true :=
        fun e he hcontains => hin ⟨e, he, hcontains⟩
      rw [h'.2 hout, (attributes_live h addr).2 hout]

/-- Two regions, with one between them that is removed, and the other order. -/
theorem pma_lookup_reordered :
    attributes (afterCalls [.addRegion 0x2000 0xFFFF .normalMemory .writeBack,
      .addRegion 0x1000 0x1FFF .reserved .uncacheable, .addRegion 0x0 0xFFF .ioMemory .uncached,
      .removeRegion 0x1000]) =
    attributes (afterCalls [.addRegion 0x0 0xFFF .ioMemory .uncached,
      .addRegion 0x2000 0xFFFF .normalMemory .writeBack]) := by
  have hlive : live [.addRegion 0x0 0xFFF .ioMemory .uncached,
      .addRegion 0x2000 0xFFFF .normalMemory .writeBack] =
        ([(PMAEntry.ofType 0x2000 0xFFFF .normalMemory).withPolicy .writeBack,
          (PMAEntry.ofType 0x0 0xFFF .ioMemory).withPolicy .uncached] : List PMAEntry) := rfl
  refine ((pma_lookup _).2 ?_).2.2 _ (by decide)
  rw [hlive, Multiset.pairwise_coe_iff_pairwise, List.pairwise_pair]
  intro addr hin
  have hlow := (Bool.and_eq_true _ _).mp hin.1
  have hhigh := (Bool.and_eq_true _ _).mp hin.2
  have hstart : (0x2000 : Word) ≤ addr := of_decide_eq_true hlow.1
  have hend : addr ≤ (0xFFF : Word) := of_decide_eq_true hhigh.2
  bv_omega

end PMAController
end RiscvEmulator.Memory
