import Mathlib.Logic.Function.Basic
import RiscvEmulator.Memory.Word

/-! # Accesses attributed to functions

The simulator queues the accesses of functions by address and hands each completion to the
one that waits longest. The profiler takes what it is handed for a running total and adds
the difference to the last one of the core, so what is handed as an increment is counted
once. -/
namespace RiscvEmulator.System
open Memory

/-- The counters of a function. -/
structure FunctionProfile where
  l1IcacheHits : BitVec 64 := 0
  l1IcacheMisses : BitVec 64 := 0
  l1DcacheHits : BitVec 64 := 0
  l1DcacheMisses : BitVec 64 := 0
  l2CacheHits : BitVec 64 := 0
  l2CacheMisses : BitVec 64 := 0
  ddrReads : BitVec 64 := 0
  ddrWrites : BitVec 64 := 0
  totalMemoryLatency : BitVec 64 := 0
  executionCycles : BitVec 64 := 0
deriving DecidableEq, Repr

/-- What a core passed last. -/
structure PrevCacheStats where
  l1IcacheHits : BitVec 64 := 0
  l1IcacheMisses : BitVec 64 := 0
  l1DcacheHits : BitVec 64 := 0
  l1DcacheMisses : BitVec 64 := 0
  l2CacheHits : BitVec 64 := 0
  l2CacheMisses : BitVec 64 := 0
  ddrReads : BitVec 64 := 0
  ddrWrites : BitVec 64 := 0
  memoryLatency : BitVec 64 := 0
deriving DecidableEq, Repr

structure FunctionProfiler where
  profilingEnabled : Bool
  functionProfiles : List FunctionProfile
  prevCacheStats : Word → PrevCacheStats

namespace FunctionProfiler

def updateCacheStats (p : FunctionProfiler) (coreId : Word) (funcIdx : Nat)
    (l1IHits l1IMisses l1DHits l1DMisses l2Hits l2Misses : BitVec 64) : FunctionProfiler :=
  if !p.profilingEnabled || p.functionProfiles.length ≤ funcIdx then p
  else
    let prev := p.prevCacheStats coreId
    let l1IHitsDiff := l1IHits - prev.l1IcacheHits
    let l1IMissesDiff := l1IMisses - prev.l1IcacheMisses
    let l1DHitsDiff := l1DHits - prev.l1DcacheHits
    let l1DMissesDiff := l1DMisses - prev.l1DcacheMisses
    let l2HitsDiff := l2Hits - prev.l2CacheHits
    let l2MissesDiff := l2Misses - prev.l2CacheMisses
    let cacheCycles := l1IHitsDiff * 1 + l1IMissesDiff * 10 + l1DHitsDiff * 1 +
      l1DMissesDiff * 10 + l2HitsDiff * 5 + l2MissesDiff * 50
    { p with
      functionProfiles := p.functionProfiles.modify funcIdx fun f => { f with
        l1IcacheHits := f.l1IcacheHits + l1IHitsDiff
        l1IcacheMisses := f.l1IcacheMisses + l1IMissesDiff
        l1DcacheHits := f.l1DcacheHits + l1DHitsDiff
        l1DcacheMisses := f.l1DcacheMisses + l1DMissesDiff
        l2CacheHits := f.l2CacheHits + l2HitsDiff
        l2CacheMisses := f.l2CacheMisses + l2MissesDiff
        executionCycles := f.executionCycles + cacheCycles }
      prevCacheStats := Function.update p.prevCacheStats coreId { prev with
        l1IcacheHits := l1IHits
        l1IcacheMisses := l1IMisses
        l1DcacheHits := l1DHits
        l1DcacheMisses := l1DMisses
        l2CacheHits := l2Hits
        l2CacheMisses := l2Misses } }

def updateDdrStats (p : FunctionProfiler) (coreId : Word) (funcIdx : Nat)
    (ddrReads ddrWrites latency : BitVec 64) : FunctionProfiler :=
  if !p.profilingEnabled || p.functionProfiles.length ≤ funcIdx then p
  else
    let prev := p.prevCacheStats coreId
    let latencyDiff := latency - prev.memoryLatency
    { p with
      functionProfiles := p.functionProfiles.modify funcIdx fun f => { f with
        ddrReads := f.ddrReads + (ddrReads - prev.ddrReads)
        ddrWrites := f.ddrWrites + (ddrWrites - prev.ddrWrites)
        totalMemoryLatency := f.totalMemoryLatency + latencyDiff
        executionCycles := f.executionCycles + latencyDiff }
      prevCacheStats := Function.update p.prevCacheStats coreId { prev with
        ddrReads := ddrReads
        ddrWrites := ddrWrites
        memoryLatency := latency } }

end FunctionProfiler

/-- An entry of the queue of an address. -/
structure PendingAccess where
  coreId : Word
  functionIdx : Nat
  timestamp : BitVec 64
deriving DecidableEq, Repr

/-- What the simulator attributes accesses with. -/
structure AccessAttribution where
  functionProfiler : FunctionProfiler
  pendingAccessesByAddr : Word → List PendingAccess
  /-- `cores.size()`. -/
  numCores : Nat

inductive ProfilerCall where
  | recordMemoryAccess (coreId : Word) (functionIdx : Nat) (addr : Word) (isWrite : Bool)
    (timestamp : BitVec 64)
  | ddrAccessCompletion (addr : Word) (isWrite : Bool) (latency : BitVec 64)
  | updateFunctionL2Stats (coreId : Word) (funcIdx : Nat) (l2Hits l2Misses : BitVec 64)
deriving DecidableEq, Repr

namespace AccessAttribution

def recordMemoryAccess (s : AccessAttribution) (coreId : Word) (functionIdx : Nat) (addr : Word)
    (timestamp : BitVec 64) : AccessAttribution :=
  { s with
    pendingAccessesByAddr := Function.update s.pendingAccessesByAddr addr
      (s.pendingAccessesByAddr addr ++ [⟨coreId, functionIdx, timestamp⟩]) }

def handleDdrAccessCompletion (s : AccessAttribution) (addr : Word) (isWrite : Bool)
    (latency : BitVec 64) : AccessAttribution :=
  match s.pendingAccessesByAddr addr with
  | [] => s
  | access :: rest =>
    let s := { s with
      pendingAccessesByAddr := Function.update s.pendingAccessesByAddr addr rest }
    if access.coreId.toNat < s.numCores then
      { s with
        functionProfiler := s.functionProfiler.updateDdrStats access.coreId access.functionIdx
          (if isWrite then 0 else 1) (if isWrite then 1 else 0) latency }
    else s

def updateFunctionL2Stats (s : AccessAttribution) (coreId : Word) (funcIdx : Nat)
    (l2Hits l2Misses : BitVec 64) : AccessAttribution :=
  { s with functionProfiler :=
      s.functionProfiler.updateCacheStats coreId funcIdx 0 0 0 0 l2Hits l2Misses }

def call (s : AccessAttribution) : ProfilerCall → AccessAttribution
  | .recordMemoryAccess coreId functionIdx addr _ timestamp =>
    s.recordMemoryAccess coreId functionIdx addr timestamp
  | .ddrAccessCompletion addr isWrite latency => s.handleDdrAccessCompletion addr isWrite latency
  | .updateFunctionL2Stats coreId funcIdx l2Hits l2Misses =>
    s.updateFunctionL2Stats coreId funcIdx l2Hits l2Misses

/-- Profiling is on, and nothing was counted. -/
def start (numCores numFunctions : Nat) : AccessAttribution where
  functionProfiler :=
    { profilingEnabled := true
      functionProfiles := List.replicate numFunctions {}
      prevCacheStats := fun _ => {} }
  pendingAccessesByAddr _ := []
  numCores := numCores

end AccessAttribution

/-! ## What is to be counted -/

/-- The counters of a function as numbers. -/
structure Attributed where
  reads : Nat := 0
  writes : Nat := 0
  latency : Nat := 0
  l2Hits : Nat := 0
  l2Misses : Nat := 0
deriving DecidableEq, Repr

namespace Attributed

def cycles (c : Attributed) : Nat := c.latency + 5 * c.l2Hits + 50 * c.l2Misses

def add (c d : Attributed) : Attributed where
  reads := c.reads + d.reads
  writes := c.writes + d.writes
  latency := c.latency + d.latency
  l2Hits := c.l2Hits + d.l2Hits
  l2Misses := c.l2Misses + d.l2Misses

/-- They are numbers below 2^64. -/
structure Fits (c : Attributed) : Prop where
  reads : c.reads < 2 ^ 64
  writes : c.writes < 2 ^ 64
  cycles : c.cycles < 2 ^ 64

/-- The profile has these counts, and nothing of the first level caches. -/
structure Matches (c : Attributed) (f : FunctionProfile) : Prop where
  reads : f.ddrReads.toNat = c.reads
  writes : f.ddrWrites.toNat = c.writes
  latency : f.totalMemoryLatency.toNat = c.latency
  l2Hits : f.l2CacheHits.toNat = c.l2Hits
  l2Misses : f.l2CacheMisses.toNat = c.l2Misses
  cycles : f.executionCycles.toNat = c.cycles
  l1 : f.l1IcacheHits = 0 ∧ f.l1IcacheMisses = 0 ∧ f.l1DcacheHits = 0 ∧ f.l1DcacheMisses = 0

end Attributed

/-- The accesses that wait, the totals that cores passed last for a function, the cores that
had an access completed, and what each function has. -/
structure Ledger where
  pending : Word → List PendingAccess := fun _ => []
  totals : Word → BitVec 64 × BitVec 64 := fun _ => (0, 0)
  served : Word → Bool := fun _ => false
  counts : Nat → Attributed := fun _ => {}

namespace Ledger
variable (numCores numFunctions : Nat)

/-- The access a completion is attributed to, if its core and its function exist. -/
def owner (l : Ledger) (addr : Word) : Option PendingAccess :=
  (l.pending addr).head?.filter fun access =>
    access.coreId.toNat < numCores && access.functionIdx < numFunctions

def credit (l : Ledger) (funcIdx : Nat) (d : Attributed) : Ledger :=
  { l with counts := Function.update l.counts funcIdx ((l.counts funcIdx).add d) }

/-- A completion is one read or one write with its latency. -/
def completion (isWrite : Bool) (latency : BitVec 64) : Attributed :=
  { reads := if isWrite then 0 else 1, writes := if isWrite then 1 else 0
    latency := latency.toNat }

def step (l : Ledger) : ProfilerCall → Ledger
  | .recordMemoryAccess coreId functionIdx addr _ timestamp =>
    { l with
      pending := Function.update l.pending addr
        (l.pending addr ++ [⟨coreId, functionIdx, timestamp⟩]) }
  | .ddrAccessCompletion addr isWrite latency =>
    let l' := { l with pending := Function.update l.pending addr (l.pending addr).tail }
    match l.owner numCores numFunctions addr with
    | none => l'
    | some access =>
      { l'.credit access.functionIdx (completion isWrite latency) with
        served := Function.update l.served access.coreId true }
  | .updateFunctionL2Stats coreId funcIdx l2Hits l2Misses =>
    if funcIdx < numFunctions then
      { l.credit funcIdx { l2Hits := l2Hits.toNat - (l.totals coreId).1.toNat
                           l2Misses := l2Misses.toNat - (l.totals coreId).2.toNat } with
        totals := Function.update l.totals coreId (l2Hits, l2Misses) }
    else l

/-- The totals grow, core by core. -/
def Grows (l : Ledger) : ProfilerCall → Prop
  | .updateFunctionL2Stats coreId funcIdx l2Hits l2Misses => funcIdx < numFunctions →
    (l.totals coreId).1.toNat ≤ l2Hits.toNat ∧ (l.totals coreId).2.toNat ≤ l2Misses.toNat
  | _ => True

/-- The core had no access completed before, and no count passes 2^64. -/
structure Countable (l : Ledger) (c : ProfilerCall) : Prop where
  first : ∀ addr isWrite latency, c = .ddrAccessCompletion addr isWrite latency →
    ∀ access, l.owner numCores numFunctions addr = some access → l.served access.coreId = false
  fits : ∀ f, f < numFunctions → ((l.step numCores numFunctions c).counts f).Fits

def RunGrows (l : Ledger) : List ProfilerCall → Prop
  | [] => True
  | c :: calls => l.Grows numFunctions c ∧ RunGrows (l.step numCores numFunctions c) calls

def RunCountable (l : Ledger) : List ProfilerCall → Prop
  | [] => True
  | c :: calls => l.Countable numCores numFunctions c ∧
    RunCountable (l.step numCores numFunctions c) calls

end Ledger

namespace AccessAttribution

/-- Every function has the counters of the ledger. -/
def Follows (s : AccessAttribution) (l : Ledger) : Prop :=
  ∀ f profile, s.functionProfiler.functionProfiles[f]? = some profile → (l.counts f).Matches profile

/-- So they have after every call. -/
def RunFollows (numFunctions : Nat) (s : AccessAttribution) (l : Ledger) :
    List ProfilerCall → Prop
  | [] => True
  | c :: calls => (s.call c).Follows (l.step s.numCores numFunctions c) ∧
    RunFollows numFunctions (s.call c) (l.step s.numCores numFunctions c) calls

end AccessAttribution

/-! ## One function -/

namespace Attributed
variable {c d : Attributed} {f f' : FunctionProfile}

/-- What a call adds to a profile. -/
structure Gains (d : Attributed) (f f' : FunctionProfile) : Prop where
  reads : f'.ddrReads = f.ddrReads + BitVec.ofNat 64 d.reads
  writes : f'.ddrWrites = f.ddrWrites + BitVec.ofNat 64 d.writes
  latency : f'.totalMemoryLatency = f.totalMemoryLatency + BitVec.ofNat 64 d.latency
  l2Hits : f'.l2CacheHits = f.l2CacheHits + BitVec.ofNat 64 d.l2Hits
  l2Misses : f'.l2CacheMisses = f.l2CacheMisses + BitVec.ofNat 64 d.l2Misses
  cycles : f'.executionCycles = f.executionCycles + BitVec.ofNat 64 d.cycles
  l1 : f'.l1IcacheHits = f.l1IcacheHits ∧ f'.l1IcacheMisses = f.l1IcacheMisses ∧
    f'.l1DcacheHits = f.l1DcacheHits ∧ f'.l1DcacheMisses = f.l1DcacheMisses

theorem add_cycles (c d : Attributed) : (c.add d).cycles = c.cycles + d.cycles := by
  unfold cycles add
  dsimp only
  omega

theorem toNat_add_iff {x : BitVec 64} {a b : Nat} (h : x.toNat = a) :
    (x + BitVec.ofNat 64 b).toNat = a + b ↔ a + b < 2 ^ 64 := by
  rw [BitVec.toNat_add, BitVec.toNat_ofNat, h, Nat.add_mod_mod]
  exact Nat.mod_eq_iff_lt (by decide)

/-- The parts of the cycles are below 2^64 with them. -/
theorem Fits.parts (h : c.Fits) : c.latency < 2 ^ 64 ∧ c.l2Hits < 2 ^ 64 ∧ c.l2Misses < 2 ^ 64 := by
  have := h.cycles
  unfold Attributed.cycles at this
  exact ⟨by omega, by omega, by omega⟩

/-- A profile that gains this has the new counts exactly if they fit. -/
theorem Gains.matches_iff (hgains : d.Gains f f') (h : c.Matches f) :
    (c.add d).Matches f' ↔ (c.add d).Fits := by
  have hreads := toNat_add_iff (b := d.reads) h.reads
  have hwrites := toNat_add_iff (b := d.writes) h.writes
  have hlatency := toNat_add_iff (b := d.latency) h.latency
  have hhits := toNat_add_iff (b := d.l2Hits) h.l2Hits
  have hmisses := toNat_add_iff (b := d.l2Misses) h.l2Misses
  have hcycles := toNat_add_iff (b := d.cycles) h.cycles
  rw [← hgains.reads] at hreads
  rw [← hgains.writes] at hwrites
  rw [← hgains.latency] at hlatency
  rw [← hgains.l2Hits] at hhits
  rw [← hgains.l2Misses] at hmisses
  rw [← hgains.cycles, ← add_cycles] at hcycles
  constructor
  · intro hm
    exact ⟨hreads.mp hm.reads, hwrites.mp hm.writes, hcycles.mp hm.cycles⟩
  · intro hfits
    obtain ⟨hl, hh, hmi⟩ := hfits.parts
    obtain ⟨h1, h2, h3, h4⟩ := hgains.l1
    obtain ⟨z1, z2, z3, z4⟩ := h.l1
    exact ⟨hreads.mpr hfits.reads, hwrites.mpr hfits.writes, hlatency.mpr hl, hhits.mpr hh,
      hmisses.mpr hmi, hcycles.mpr hfits.cycles, h1.trans z1, h2.trans z2, h3.trans z3,
      h4.trans z4⟩

theorem Matches.fits (h : c.Matches f) : c.Fits :=
  ⟨h.reads ▸ f.ddrReads.isLt, h.writes ▸ f.ddrWrites.isLt, h.cycles ▸ f.executionCycles.isLt⟩

end Attributed

/-! ## One call -/

namespace AccessAttribution
variable {s s' : AccessAttribution} {l l' : Ledger} {numFunctions funcIdx : Nat}
  {c : ProfilerCall}

/-- What the profiler keeps of a core: the totals it passed and its last completion. -/
structure TracksCore (prev : PrevCacheStats) (totals : BitVec 64 × BitVec 64) (served : Bool) :
    Prop where
  totals : prev.l2CacheHits = totals.1 ∧ prev.l2CacheMisses = totals.2
  l1 : prev.l1IcacheHits = 0 ∧ prev.l1IcacheMisses = 0 ∧ prev.l1DcacheHits = 0 ∧
    prev.l1DcacheMisses = 0
  fresh : served = false → prev.ddrReads = 0 ∧ prev.ddrWrites = 0 ∧ prev.memoryLatency = 0
  served : served = true → prev.ddrReads = 1 ∨ prev.ddrWrites = 1

/-- The profiler has the queues of the ledger and what it keeps of the cores. -/
structure Tracks (numFunctions : Nat) (s : AccessAttribution) (l : Ledger) : Prop where
  enabled : s.functionProfiler.profilingEnabled = true
  functions : s.functionProfiler.functionProfiles.length = numFunctions
  pending : s.pendingAccessesByAddr = l.pending
  cores : ∀ core, TracksCore (s.functionProfiler.prevCacheStats core) (l.totals core)
    (l.served core)

/-- A call that changes one profile. -/
theorem follows_modify_iff (h : s.Follows l) {f : FunctionProfile}
    (hf : s.functionProfiler.functionProfiles[funcIdx]? = some f)
    {change : FunctionProfile → FunctionProfile} {a : Attributed}
    (hprofiles : s'.functionProfiler.functionProfiles =
      s.functionProfiler.functionProfiles.modify funcIdx change)
    (hcounts : l'.counts = Function.update l.counts funcIdx a) :
    s'.Follows l' ↔ a.Matches (change f) := by
  unfold Follows
  rw [hprofiles, hcounts]
  constructor
  · intro hall
    have hone := hall funcIdx (change f) (by rw [List.getElem?_modify_eq, hf]; rfl)
    rwa [Function.update_self] at hone
  · intro hmatches i profile hi
    by_cases hfunc : i = funcIdx
    · subst hfunc
      rw [List.getElem?_modify_eq, hf] at hi
      cases hi
      rwa [Function.update_self]
    · rw [List.getElem?_modify_ne _ _ (Ne.symm hfunc)] at hi
      rw [Function.update_of_ne hfunc]
      exact h i profile hi

theorem Follows.fits (h : s.Follows l) {i : Nat}
    (hi : i < s.functionProfiler.functionProfiles.length) : (l.counts i).Fits :=
  (h i _ (List.getElem?_eq_getElem hi)).fits

/-- The other functions keep counts that fit. -/
theorem fits_update_iff (h : s.Follows l)
    (hfuncs : s.functionProfiler.functionProfiles.length = numFunctions)
    (hfunc : funcIdx < numFunctions) {a : Attributed}
    (hcounts : l'.counts = Function.update l.counts funcIdx a) :
    (∀ i, i < numFunctions → (l'.counts i).Fits) ↔ a.Fits := by
  rw [hcounts]
  constructor
  · intro hall
    have := hall funcIdx hfunc
    rwa [Function.update_self] at this
  · intro hfits i hi
    by_cases hne : i = funcIdx
    · rwa [hne, Function.update_self]
    · rw [Function.update_of_ne hne]
      exact h.fits (hfuncs ▸ hi)

theorem sub_eq_ofNat {x y : BitVec 64} (h : y.toNat ≤ x.toNat) :
    x - y = BitVec.ofNat 64 (x.toNat - y.toNat) := by
  apply BitVec.eq_of_toNat_eq
  rw [BitVec.toNat_sub_of_le h, BitVec.toNat_ofNat, Nat.mod_eq_of_lt]
  exact Nat.lt_of_le_of_lt (Nat.sub_le _ _) x.isLt

/-- The increase of the totals that are passed. -/
theorem l2_gains {f : FunctionProfile} {prev : PrevCacheStats} {l2Hits l2Misses : BitVec 64}
    (hl1 : prev.l1IcacheHits = 0 ∧ prev.l1IcacheMisses = 0 ∧ prev.l1DcacheHits = 0 ∧
      prev.l1DcacheMisses = 0)
    (hhits : prev.l2CacheHits.toNat ≤ l2Hits.toNat)
    (hmisses : prev.l2CacheMisses.toNat ≤ l2Misses.toNat) :
    Attributed.Gains { l2Hits := l2Hits.toNat - prev.l2CacheHits.toNat
                       l2Misses := l2Misses.toNat - prev.l2CacheMisses.toNat } f { f with
      l1IcacheHits := f.l1IcacheHits + (0 - prev.l1IcacheHits)
      l1IcacheMisses := f.l1IcacheMisses + (0 - prev.l1IcacheMisses)
      l1DcacheHits := f.l1DcacheHits + (0 - prev.l1DcacheHits)
      l1DcacheMisses := f.l1DcacheMisses + (0 - prev.l1DcacheMisses)
      l2CacheHits := f.l2CacheHits + (l2Hits - prev.l2CacheHits)
      l2CacheMisses := f.l2CacheMisses + (l2Misses - prev.l2CacheMisses)
      executionCycles := f.executionCycles + ((0 - prev.l1IcacheHits) * 1 +
        (0 - prev.l1IcacheMisses) * 10 + (0 - prev.l1DcacheHits) * 1 +
        (0 - prev.l1DcacheMisses) * 10 + (l2Hits - prev.l2CacheHits) * 5 +
        (l2Misses - prev.l2CacheMisses) * 50) } := by
  obtain ⟨h1, h2, h3, h4⟩ := hl1
  have hzero : ∀ x : BitVec 64, x + BitVec.ofNat 64 0 = x := fun x => BitVec.add_zero x
  rw [h1, h2, h3, h4, sub_eq_ofNat hhits, sub_eq_ofNat hmisses]
  refine ⟨(hzero _).symm, (hzero _).symm, (hzero _).symm, rfl, rfl, ?_, ?_⟩
  · have hcycles : Attributed.cycles { l2Hits := l2Hits.toNat - prev.l2CacheHits.toNat
                                       l2Misses := l2Misses.toNat - prev.l2CacheMisses.toNat } =
        (l2Hits.toNat - prev.l2CacheHits.toNat) * 5 +
          (l2Misses.toNat - prev.l2CacheMisses.toNat) * 50 := by
      unfold Attributed.cycles
      dsimp only
      omega
    rw [hcycles, BitVec.ofNat_add, BitVec.ofNat_mul, BitVec.ofNat_mul]
    simp
  · simp

theorem updateFunctionL2Stats_eq {coreId : Word} {l2Hits l2Misses : BitVec 64}
    (h : Tracks numFunctions s l) (hfunc : ¬funcIdx < numFunctions) :
    s.updateFunctionL2Stats coreId funcIdx l2Hits l2Misses = s := by
  unfold updateFunctionL2Stats FunctionProfiler.updateCacheStats
  have hout : (!s.functionProfiler.profilingEnabled ||
      decide (s.functionProfiler.functionProfiles.length ≤ funcIdx)) = true := by
    rw [h.functions, h.enabled]
    simp [Nat.le_of_not_lt hfunc]
  rw [if_pos hout]

/-- A call with totals that have grown. -/
theorem updateFunctionL2Stats_iff {coreId : Word} {l2Hits l2Misses : BitVec 64}
    (h : Tracks numFunctions s l) (hfollows : s.Follows l)
    (hgrows : l.Grows numFunctions (.updateFunctionL2Stats coreId funcIdx l2Hits l2Misses)) :
    Tracks numFunctions (s.updateFunctionL2Stats coreId funcIdx l2Hits l2Misses)
        (l.step s.numCores numFunctions (.updateFunctionL2Stats coreId funcIdx l2Hits l2Misses)) ∧
      ((s.updateFunctionL2Stats coreId funcIdx l2Hits l2Misses).Follows
        (l.step s.numCores numFunctions (.updateFunctionL2Stats coreId funcIdx l2Hits l2Misses)) ↔
      l.Countable s.numCores numFunctions
        (.updateFunctionL2Stats coreId funcIdx l2Hits l2Misses)) := by
  have hfirst : ∀ addr isWrite latency,
      ProfilerCall.updateFunctionL2Stats coreId funcIdx l2Hits l2Misses =
        .ddrAccessCompletion addr isWrite latency →
      ∀ access, l.owner s.numCores numFunctions addr = some access →
        l.served access.coreId = false := by simp
  by_cases hfunc : funcIdx < numFunctions
  · obtain ⟨hhits, hmisses⟩ := hgrows hfunc
    obtain ⟨htot1, htot2⟩ := (h.cores coreId).totals
    have hlen : funcIdx < s.functionProfiler.functionProfiles.length := h.functions.symm ▸ hfunc
    have hin : (!s.functionProfiler.profilingEnabled ||
        decide (s.functionProfiler.functionProfiles.length ≤ funcIdx)) = false := by
      rw [h.enabled]
      simp [Nat.not_le_of_lt hlen]
    have hstep : l.step s.numCores numFunctions
        (.updateFunctionL2Stats coreId funcIdx l2Hits l2Misses) = _ := if_pos hfunc
    have hcall : (s.updateFunctionL2Stats coreId funcIdx l2Hits l2Misses).functionProfiler = _ :=
      if_neg (Bool.eq_false_iff.mp hin)
    have hcounts : (l.step s.numCores numFunctions
        (.updateFunctionL2Stats coreId funcIdx l2Hits l2Misses)).counts =
        Function.update l.counts funcIdx ((l.counts funcIdx).add
          { l2Hits := l2Hits.toNat -
              (s.functionProfiler.prevCacheStats coreId).l2CacheHits.toNat
            l2Misses := l2Misses.toNat -
              (s.functionProfiler.prevCacheStats coreId).l2CacheMisses.toNat }) := by
      rw [hstep, htot1, htot2]
      rfl
    have hold := List.getElem?_eq_getElem hlen
    have hgains := l2_gains (f := s.functionProfiler.functionProfiles[funcIdx]) (h.cores coreId).l1
      (htot1.symm ▸ hhits) (htot2.symm ▸ hmisses)
    refine ⟨⟨?_, ?_, ?_, fun core => ?_⟩, ?_⟩
    · rw [hcall]
      exact h.enabled
    · rw [hcall]
      exact (List.length_modify ..).trans h.functions
    · rw [hstep]
      exact h.pending
    · rw [hcall, hstep]
      have hcore := h.cores core
      by_cases hself : core = coreId
      · subst hself
        simp only [Function.update_self]
        exact ⟨⟨rfl, rfl⟩, ⟨rfl, rfl, rfl, rfl⟩, hcore.fresh, hcore.served⟩
      · simp only [Function.update_of_ne hself]
        exact hcore
    · rw [follows_modify_iff hfollows hold (by rw [hcall]) hcounts,
        hgains.matches_iff (hfollows funcIdx _ hold),
        ← fits_update_iff hfollows h.functions hfunc hcounts]
      exact ⟨fun hfits => ⟨hfirst, hfits⟩, fun hc => hc.fits⟩
  · rw [updateFunctionL2Stats_eq h hfunc]
    have hstep : l.step s.numCores numFunctions
        (.updateFunctionL2Stats coreId funcIdx l2Hits l2Misses) = l := if_neg hfunc
    rw [hstep]
    refine ⟨h, iff_of_true hfollows ⟨hfirst, fun i hi => ?_⟩⟩
    rw [hstep]
    exact hfollows.fits (h.functions.symm ▸ hi)

/-- A completion that nobody owns takes its access from the queue, if there is one. -/
theorem handleDdrAccessCompletion_none (h : Tracks numFunctions s l) {addr : Word}
    {isWrite : Bool} {latency : BitVec 64} (howner : l.owner s.numCores numFunctions addr = none) :
    s.handleDdrAccessCompletion addr isWrite latency = { s with
      pendingAccessesByAddr := Function.update s.pendingAccessesByAddr addr
        (s.pendingAccessesByAddr addr).tail } := by
  unfold Ledger.owner at howner
  rw [← h.pending] at howner
  unfold handleDdrAccessCompletion
  cases hqueue : s.pendingAccessesByAddr addr with
  | nil =>
    have hsame : Function.update s.pendingAccessesByAddr addr [] = s.pendingAccessesByAddr := by
      rw [← hqueue]
      exact Function.update_eq_self _ _
    rw [List.tail_nil, hsame]
  | cons access rest =>
    rw [hqueue, List.head?_cons, Option.filter_some, ite_eq_right_iff] at howner
    dsimp only [List.tail_cons]
    split
    · next hcore =>
      have hfunc : s.functionProfiler.functionProfiles.length ≤ access.functionIdx := by
        by_contra hlt
        rw [h.functions] at hlt
        exact absurd (howner (by simp [hcore, Nat.lt_of_not_le hlt])) (by simp)
      unfold FunctionProfiler.updateDdrStats
      rw [if_pos (by simp [hfunc])]
    · rfl

theorem owner_spec {addr : Word} {access : PendingAccess} {numCores : Nat}
    (howner : l.owner numCores numFunctions addr = some access) :
    ∃ rest, l.pending addr = access :: rest ∧ access.coreId.toNat < numCores ∧
      access.functionIdx < numFunctions := by
  unfold Ledger.owner at howner
  rw [Option.filter_eq_some_iff, Bool.and_eq_true, decide_eq_true_eq, decide_eq_true_eq] at howner
  obtain ⟨hhead, hcore, hfunc⟩ := howner
  obtain ⟨rest, hrest⟩ := List.head?_eq_some_iff.mp hhead
  exact ⟨rest, hrest, hcore, hfunc⟩

/-- The first completion of a core is whole. -/
theorem ddr_gains {f : FunctionProfile} {prev : PrevCacheStats} {isWrite : Bool}
    {latency : BitVec 64}
    (hfresh : prev.ddrReads = 0 ∧ prev.ddrWrites = 0 ∧ prev.memoryLatency = 0) :
    (Ledger.completion isWrite latency).Gains f { f with
      ddrReads := f.ddrReads + ((if isWrite then 0 else 1) - prev.ddrReads)
      ddrWrites := f.ddrWrites + ((if isWrite then 1 else 0) - prev.ddrWrites)
      totalMemoryLatency := f.totalMemoryLatency + (latency - prev.memoryLatency)
      executionCycles := f.executionCycles + (latency - prev.memoryLatency) } := by
  obtain ⟨hreads, hwrites, hlatency⟩ := hfresh
  rw [hreads, hwrites, hlatency]
  have hzero : ∀ x : BitVec 64, x = x + BitVec.ofNat 64 0 := fun x => (BitVec.add_zero x).symm
  have hself : latency - 0 = BitVec.ofNat 64 latency.toNat := by simp
  refine ⟨?_, ?_, ?_, hzero _, hzero _, ?_, rfl, rfl, rfl, rfl⟩
  · cases isWrite <;> rfl
  · cases isWrite <;> rfl
  · rw [hself]
    rfl
  · rw [hself]
    rfl

/-- A difference that counts the whole value is one to 0. -/
theorem eq_zero_of_counted {x v prev : BitVec 64}
    (h : (x + (v - prev)).toNat = x.toNat + v.toNat) : prev = 0 := by
  have hlt := (x + (v - prev)).isLt
  have heq : x + (v - prev) = x + v := by
    apply BitVec.eq_of_toNat_eq
    rw [h, BitVec.toNat_add, Nat.mod_eq_of_lt (h ▸ hlt)]
  exact sub_eq_self.mp (add_left_cancel heq)

/-- A later completion of a core leaves out what the last one was. -/
theorem ddr_not_matches {a : Attributed} {f : FunctionProfile} {prev : PrevCacheStats}
    {isWrite : Bool} {latency : BitVec 64} (hserved : prev.ddrReads = 1 ∨ prev.ddrWrites = 1)
    (h : a.Matches f) : ¬(a.add (Ledger.completion isWrite latency)).Matches { f with
      ddrReads := f.ddrReads + ((if isWrite then 0 else 1) - prev.ddrReads)
      ddrWrites := f.ddrWrites + ((if isWrite then 1 else 0) - prev.ddrWrites)
      totalMemoryLatency := f.totalMemoryLatency + (latency - prev.memoryLatency)
      executionCycles := f.executionCycles + (latency - prev.memoryLatency) } := by
  intro hm
  have hone : ∀ b : Bool, (if b then (0 : BitVec 64) else 1).toNat = if b then 0 else 1 := by decide
  have hone' : ∀ b : Bool, (if b then (1 : BitVec 64) else 0).toNat = if b then 1 else 0 := by
    decide
  rcases hserved with hprev | hprev
  · have hcounted : (f.ddrReads + ((if isWrite then 0 else 1) - prev.ddrReads)).toNat =
        f.ddrReads.toNat + (if isWrite then (0 : BitVec 64) else 1).toNat := by
      rw [h.reads, hone]
      exact hm.reads
    exact absurd (hprev.symm.trans (eq_zero_of_counted hcounted)) (by decide)
  · have hcounted : (f.ddrWrites + ((if isWrite then 1 else 0) - prev.ddrWrites)).toNat =
        f.ddrWrites.toNat + (if isWrite then (1 : BitVec 64) else 0).toNat := by
      rw [h.writes, hone']
      exact hm.writes
    exact absurd (hprev.symm.trans (eq_zero_of_counted hcounted)) (by decide)

/-- One completion. -/
theorem handleDdrAccessCompletion_iff {addr : Word} {isWrite : Bool} {latency : BitVec 64}
    (h : Tracks numFunctions s l) (hfollows : s.Follows l) :
    Tracks numFunctions (s.handleDdrAccessCompletion addr isWrite latency)
        (l.step s.numCores numFunctions (.ddrAccessCompletion addr isWrite latency)) ∧
      ((s.handleDdrAccessCompletion addr isWrite latency).Follows
        (l.step s.numCores numFunctions (.ddrAccessCompletion addr isWrite latency)) ↔
      l.Countable s.numCores numFunctions (.ddrAccessCompletion addr isWrite latency)) := by
  cases howner : l.owner s.numCores numFunctions addr with
  | none =>
    have hstep : l.step s.numCores numFunctions (.ddrAccessCompletion addr isWrite latency) =
        { l with pending := Function.update l.pending addr (l.pending addr).tail } := by
      unfold Ledger.step
      dsimp only
      rw [howner]
    rw [handleDdrAccessCompletion_none h howner, hstep]
    refine ⟨⟨h.enabled, h.functions, ?_, h.cores⟩, iff_of_true hfollows ⟨?_, fun i hi => ?_⟩⟩
    · dsimp only
      rw [h.pending]
    · rintro _ _ _ ⟨⟩ access hsome
      exact absurd (howner.symm.trans hsome) (by simp)
    · rw [hstep]
      exact hfollows.fits (h.functions.symm ▸ hi)
  | some access =>
    obtain ⟨rest, hqueue, hcore, hfunc⟩ := owner_spec howner
    have hlen : access.functionIdx < s.functionProfiler.functionProfiles.length :=
      h.functions.symm ▸ hfunc
    have hin : (!s.functionProfiler.profilingEnabled ||
        decide (s.functionProfiler.functionProfiles.length ≤ access.functionIdx)) = false := by
      rw [h.enabled]
      simp [Nat.not_le_of_lt hlen]
    have hcall : s.handleDdrAccessCompletion addr isWrite latency =
        { functionProfiler := s.functionProfiler.updateDdrStats access.coreId access.functionIdx
            (if isWrite then 0 else 1) (if isWrite then 1 else 0) latency
          pendingAccessesByAddr := Function.update l.pending addr rest
          numCores := s.numCores } := by
      unfold handleDdrAccessCompletion
      rw [h.pending, hqueue]
      exact if_pos hcore
    have hprofiler : s.functionProfiler.updateDdrStats access.coreId access.functionIdx
        (if isWrite then 0 else 1) (if isWrite then 1 else 0) latency = _ :=
      if_neg (Bool.eq_false_iff.mp hin)
    rw [hprofiler] at hcall
    have hstep : l.step s.numCores numFunctions (.ddrAccessCompletion addr isWrite latency) =
        { ({ l with pending := Function.update l.pending addr rest } : Ledger).credit
            access.functionIdx (Ledger.completion isWrite latency) with
          served := Function.update l.served access.coreId true } := by
      unfold Ledger.step
      dsimp only
      rw [howner, hqueue, List.tail_cons]
    have hcounts : (l.step s.numCores numFunctions
        (.ddrAccessCompletion addr isWrite latency)).counts =
        Function.update l.counts access.functionIdx
          ((l.counts access.functionIdx).add (Ledger.completion isWrite latency)) := by
      rw [hstep]
      rfl
    have hold := List.getElem?_eq_getElem hlen
    have hcoreTracks := h.cores access.coreId
    refine ⟨⟨?_, ?_, ?_, fun core => ?_⟩, ?_⟩
    · rw [hcall]
      exact h.enabled
    · rw [hcall]
      exact (List.length_modify ..).trans h.functions
    · rw [hcall, hstep]
      rfl
    · rw [hcall, hstep]
      by_cases hself : core = access.coreId
      · subst hself
        simp only [Function.update_self]
        refine ⟨hcoreTracks.totals, hcoreTracks.l1, by simp, fun _ => ?_⟩
        cases isWrite
        · exact Or.inl rfl
        · exact Or.inr rfl
      · simp only [Function.update_of_ne hself]
        exact h.cores core
    · rw [follows_modify_iff hfollows hold (by rw [hcall]) hcounts]
      cases hserved : l.served access.coreId with
      | true =>
        refine iff_of_false
          (ddr_not_matches (hcoreTracks.served hserved) (hfollows _ _ hold)) fun hc => ?_
        have hfirst := hc.first addr isWrite latency rfl access howner
        exact Bool.false_ne_true (hfirst.symm.trans hserved)
      | false =>
        rw [(ddr_gains (hcoreTracks.fresh hserved)).matches_iff (hfollows _ _ hold),
          ← fits_update_iff hfollows h.functions hfunc hcounts]
        refine ⟨fun hfits => ⟨?_, hfits⟩, fun hc => hc.fits⟩
        rintro _ _ _ ⟨⟩ access' hsome
        obtain rfl := Option.some.inj (howner.symm.trans hsome)
        exact hserved

/-- A call keeps what the profiler tracks, and the counters follow it exactly if it can be
counted. -/
theorem call_follows_iff (h : Tracks numFunctions s l) (hfollows : s.Follows l)
    (hgrows : l.Grows numFunctions c) :
    Tracks numFunctions (s.call c) (l.step s.numCores numFunctions c) ∧
      ((s.call c).Follows (l.step s.numCores numFunctions c) ↔
        l.Countable s.numCores numFunctions c) := by
  cases c with
  | recordMemoryAccess coreId functionIdx addr isWrite timestamp =>
    refine ⟨⟨h.enabled, h.functions, ?_, h.cores⟩, iff_of_true hfollows ⟨by simp, fun i hi => ?_⟩⟩
    · unfold call recordMemoryAccess Ledger.step
      dsimp only
      rw [h.pending]
    · exact hfollows.fits (h.functions.symm ▸ hi)
  | ddrAccessCompletion addr isWrite latency => exact handleDdrAccessCompletion_iff h hfollows
  | updateFunctionL2Stats coreId funcIdx l2Hits l2Misses =>
    exact updateFunctionL2Stats_iff h hfollows hgrows

theorem call_numCores (s : AccessAttribution) (c : ProfilerCall) :
    (s.call c).numCores = s.numCores := by
  cases c with
  | recordMemoryAccess coreId functionIdx addr isWrite timestamp => rfl
  | updateFunctionL2Stats coreId funcIdx l2Hits l2Misses => rfl
  | ddrAccessCompletion addr isWrite latency =>
    show (s.handleDdrAccessCompletion addr isWrite latency).numCores = s.numCores
    unfold handleDdrAccessCompletion
    cases s.pendingAccessesByAddr addr with
    | nil => rfl
    | cons access rest =>
      dsimp only
      split <;> rfl

theorem runFollows_iff (h : Tracks numFunctions s l) (hfollows : s.Follows l)
    {calls : List ProfilerCall} (hgrows : l.RunGrows s.numCores numFunctions calls) :
    s.RunFollows numFunctions l calls ↔ l.RunCountable s.numCores numFunctions calls := by
  induction calls generalizing s l with
  | nil => exact iff_of_true trivial trivial
  | cons c calls ih =>
    obtain ⟨htracks, hone⟩ := call_follows_iff h hfollows hgrows.1
    unfold RunFollows Ledger.RunCountable
    rw [hone]
    refine and_congr_right fun hcountable => ?_
    have hih := ih htracks (hone.mpr hcountable) (by rw [call_numCores]; exact hgrows.2)
    rwa [call_numCores] at hih

theorem start_tracks (numCores numFunctions : Nat) :
    Tracks numFunctions (start numCores numFunctions) {} where
  enabled := rfl
  functions := List.length_replicate
  pending := rfl
  cores _ := ⟨⟨rfl, rfl⟩, ⟨rfl, rfl, rfl, rfl⟩, fun _ => ⟨rfl, rfl, rfl⟩, by simp⟩

theorem start_follows (numCores numFunctions : Nat) :
    (start numCores numFunctions).Follows {} := by
  intro f profile hf
  have hprofile := List.eq_of_mem_replicate (List.mem_of_getElem? hf)
  subst hprofile
  exact ⟨rfl, rfl, rfl, rfl, rfl, rfl, rfl, rfl, rfl, rfl⟩

/-- The counters of all functions follow what is attributed to them exactly if no core has
a second access completed and no count passes 2^64. -/
theorem attribution_iff (numCores numFunctions : Nat) {calls : List ProfilerCall}
    (hgrows : ({} : Ledger).RunGrows numCores numFunctions calls) :
    (start numCores numFunctions).RunFollows numFunctions {} calls ↔
      ({} : Ledger).RunCountable numCores numFunctions calls :=
  runFollows_iff (start_tracks numCores numFunctions) (start_follows numCores numFunctions) hgrows

/-- A read and then a write of one core. -/
def readThenWrite : List ProfilerCall :=
  [.recordMemoryAccess 0 0 0x100 false 1, .ddrAccessCompletion 0x100 false 10,
    .recordMemoryAccess 0 0 0x200 true 2, .ddrAccessCompletion 0x200 true 10]

/-- One completion, and totals of the other cache, are counted. -/
theorem attribution_first : (start 1 1).RunFollows 1 {}
    [.recordMemoryAccess 0 0 0x100 false 1, .ddrAccessCompletion 0x100 false 10,
      .updateFunctionL2Stats 0 0 3 1, .updateFunctionL2Stats 0 0 5 1] := by
  have hgrows : ({} : Ledger).RunGrows 1 1 [.recordMemoryAccess 0 0 0x100 false 1,
      .ddrAccessCompletion 0x100 false 10, .updateFunctionL2Stats 0 0 3 1,
      .updateFunctionL2Stats 0 0 5 1] :=
    ⟨trivial, trivial, fun _ => by decide, fun _ => by decide, trivial⟩
  have hfits : ∀ {l : Ledger}, (l.counts 0).Fits → ∀ f, f < 1 → (l.counts f).Fits := by
    intro l h f hf
    rwa [Nat.lt_one_iff.mp hf]
  refine (attribution_iff 1 1 hgrows).mpr ⟨⟨by simp, hfits ⟨by decide, by decide, by decide⟩⟩,
    ⟨fun _ _ _ _ _ _ => rfl, hfits ⟨by decide, by decide, by decide⟩⟩,
    ⟨by simp, hfits ⟨by decide, by decide, by decide⟩⟩,
    ⟨by simp, hfits ⟨by decide, by decide, by decide⟩⟩, trivial⟩

/-- The write takes the read back. -/
theorem readThenWrite_wraps : ¬∀ (numCores numFunctions : Nat) (calls : List ProfilerCall),
    ({} : Ledger).RunGrows numCores numFunctions calls →
      (start numCores numFunctions).RunFollows numFunctions {} calls := by
  intro h
  obtain ⟨-, -, -, hwrite, -⟩ := h 1 1 readThenWrite
    ⟨trivial, trivial, trivial, trivial, trivial⟩
  have hreads := (hwrite 0 _ rfl).reads
  exact absurd hreads (by decide)

end AccessAttribution
end RiscvEmulator.System
