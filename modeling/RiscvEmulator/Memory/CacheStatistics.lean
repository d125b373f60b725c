import Mathlib.Algebra.BigOperators.Group.List.Basic
import Mathlib.Algebra.Order.Ring.Nat
import RiscvEmulator.Memory.ByteMemory
import RiscvEmulator.Memory.Cache

/-! # What the cache counts

Every access is counted as one hit or one miss, of the core that made it. The counters of
a cache are those of the list of its accesses, and the sums over the cores are the totals.
The time of a miss is added in 32 bits, and is lost where it does not fit. -/
namespace RiscvEmulator.Memory

/-! ## Accesses on their own -/

/-- An access that was counted. -/
structure Counted where
  coreId : Nat
  isHit : Bool
deriving DecidableEq, Repr

namespace Counted

def hits (e : Counted) : Nat := if e.isHit then 1 else 0
def misses (e : Counted) : Nat := if e.isHit then 0 else 1

/-- The time that is added for it. -/
def time (c : CacheConfig) (e : Counted) : Word :=
  if e.isHit then c.accessLatency else c.accessLatency + c.missPenalty

def penalty (c : CacheConfig) (e : Counted) : Word := if e.isHit then 0 else c.missPenalty

end Counted

namespace CacheStats
variable {c : CacheConfig} {st st' : CacheStats} {e : Counted} {events : List Counted} {n : Nat}

def hitCount (events : List Counted) : Nat := events.countP (·.isHit)
def missCount (events : List Counted) : Nat := events.countP (!·.isHit)

/-- A counter summed over the cores. -/
def coreSum (f : CoreStats → BitVec 64) (cores : List CoreStats) : Nat :=
  (cores.map fun core => (f core).toNat).sum

/-- What the counters are for. -/
structure Conserved (c : CacheConfig) (st : CacheStats) : Prop where
  accesses : st.accesses.toNat = st.hits.toNat + st.misses.toNat
  totalAccessTime : st.totalAccessTime.toNat =
    c.accessLatency.toNat * st.accesses.toNat + c.missPenalty.toNat * st.misses.toNat
  totalMissPenalty : st.totalMissPenalty.toNat = c.missPenalty.toNat * st.misses.toNat

/-- The counters of the cores add up to the totals. -/
structure SumsUp (st : CacheStats) : Prop where
  accesses : coreSum (·.accesses) st.cores = st.accesses.toNat
  hits : coreSum (·.hits) st.cores = st.hits.toNat
  misses : coreSum (·.misses) st.cores = st.misses.toNat
  accessTime : coreSum (·.accessTime) st.cores = st.totalAccessTime.toNat
  missPenalty : coreSum (·.missPenalty) st.cores = st.totalMissPenalty.toNat

/-- What these accesses amount to stays below 2^64. -/
structure Fits (c : CacheConfig) (events : List Counted) : Prop where
  accesses : events.length < 2 ^ 64
  time : c.accessLatency.toNat * events.length + c.missPenalty.toNat * missCount events < 2 ^ 64

/-! ### One access -/

/-- One core counts the access. -/
structure CoreCounts (c : CacheConfig) (e : Counted) (core core' : CoreStats) : Prop where
  accesses : core'.accesses = core.accesses + 1
  hits : core'.hits = core.hits + BitVec.ofNat 64 e.hits
  misses : core'.misses = core.misses + BitVec.ofNat 64 e.misses
  accessTime : core'.accessTime = core.accessTime + (e.time c).setWidth 64
  missPenalty : core'.missPenalty = core.missPenalty + (e.penalty c).setWidth 64

/-- What an access adds to the counters. -/
structure Counts (c : CacheConfig) (e : Counted) (st st' : CacheStats) : Prop where
  accesses : st'.accesses = st.accesses + 1
  hits : st'.hits = st.hits + BitVec.ofNat 64 e.hits
  misses : st'.misses = st.misses + BitVec.ofNat 64 e.misses
  totalAccessTime : st'.totalAccessTime = st.totalAccessTime + (e.time c).setWidth 64
  totalMissPenalty : st'.totalMissPenalty = st.totalMissPenalty + (e.penalty c).setWidth 64
  cores : ∃ f : CoreStats → CoreStats, (∀ core, CoreCounts c e core (f core)) ∧
    st'.cores = st.cores.modify e.coreId f

variable (st) in
/-- A core that is not there has no counters to move. -/
theorem updateCoreStats_cores (coreId : Nat) (isHit : Bool) (time penalty : Word) :
    (st.updateCoreStats coreId isHit time penalty).cores = st.cores.modify coreId fun core =>
      let core := { core with accesses := core.accesses + 1
                              accessTime := core.accessTime + time.setWidth 64 }
      if isHit then { core with hits := core.hits + 1, hitTime := core.hitTime + time.setWidth 64 }
      else { core with misses := core.misses + 1, missTime := core.missTime + time.setWidth 64
                       missPenalty := core.missPenalty + penalty.setWidth 64 } := by
  unfold updateCoreStats
  split
  · cases isHit <;> rfl
  · next hout => exact (List.modify_eq_self (Nat.le_of_not_lt hout)).symm

variable (st) in
/-- The totals that it has apart. -/
theorem updateCoreStats_frame (coreId : Nat) (isHit : Bool) (time penalty : Word) :
    ∃ cores totalHitTime totalMissTime, st.updateCoreStats coreId isHit time penalty =
      { st with cores, totalHitTime, totalMissTime } := by
  unfold updateCoreStats
  split
  · cases isHit
    · exact ⟨_, _, _, rfl⟩
    · exact ⟨_, _, _, rfl⟩
  · exact ⟨_, _, _, rfl⟩

variable (c st) in
theorem hit_counts (coreId : Nat) : Counts c ⟨coreId, true⟩ st (st.hit c coreId) := by
  let st₁ : CacheStats := { st with accesses := st.accesses + 1, hits := st.hits + 1 }
  have hcores := updateCoreStats_cores st₁ coreId true c.accessLatency 0
  obtain ⟨cores, hitTime, missTime, hframe⟩ :=
    updateCoreStats_frame st₁ coreId true c.accessLatency 0
  have hst : st.hit c coreId = { st₁.updateCoreStats coreId true c.accessLatency 0 with
      totalAccessTime := (st₁.updateCoreStats coreId true c.accessLatency 0).totalAccessTime +
        c.accessLatency.setWidth 64 } := rfl
  rw [hframe] at hcores hst
  rw [hst]
  refine ⟨rfl, rfl, (BitVec.add_zero _).symm, rfl, (BitVec.add_zero _).symm, _, ?_, hcores⟩
  exact fun core => ⟨rfl, rfl, (BitVec.add_zero _).symm, rfl, (BitVec.add_zero _).symm⟩

variable (c st) in
theorem miss_counts (coreId : Nat) : Counts c ⟨coreId, false⟩ st (st.miss c coreId) := by
  let st₁ : CacheStats :=
    { st with accesses := st.accesses + 1, misses := st.misses + 1
              totalMissPenalty := st.totalMissPenalty + c.missPenalty.setWidth 64 }
  have hcores := updateCoreStats_cores st₁ coreId false (c.accessLatency + c.missPenalty)
    c.missPenalty
  obtain ⟨cores, hitTime, missTime, hframe⟩ := updateCoreStats_frame st₁ coreId false
    (c.accessLatency + c.missPenalty) c.missPenalty
  have hst : st.miss c coreId =
      { st₁.updateCoreStats coreId false (c.accessLatency + c.missPenalty) c.missPenalty with
        totalAccessTime := (st₁.updateCoreStats coreId false (c.accessLatency + c.missPenalty)
          c.missPenalty).totalAccessTime + (c.accessLatency + c.missPenalty).setWidth 64 } := rfl
  rw [hframe] at hcores hst
  rw [hst]
  refine ⟨rfl, (BitVec.add_zero _).symm, rfl, rfl, rfl, _, ?_, hcores⟩
  exact fun core => ⟨rfl, (BitVec.add_zero _).symm, rfl, rfl, rfl⟩

theorem Counts.congr {st'' : CacheStats} (h : Counts c e st st') (hst : st'' = st') :
    Counts c e st st'' := hst ▸ h

/-- Another number of blocks written back. -/
theorem Counts.writebacks (h : Counts c e st st') (writebacks : BitVec 64) :
    Counts c e st { st' with writebacks } :=
  ⟨h.accesses, h.hits, h.misses, h.totalAccessTime, h.totalMissPenalty, h.cores⟩

/-! ### Many accesses -/

/-- The counters of `n` cores after these accesses. -/
inductive Recorded (c : CacheConfig) (n : Nat) : List Counted → CacheStats → Prop
  | start : Recorded c n [] { cores := List.replicate n {} }
  | access {events : List Counted} {e : Counted} {st st' : CacheStats} :
    Recorded c n events st → Counts c e st st' → Recorded c n (events ++ [e]) st'

theorem Fits.before (h : Fits c (events ++ [e])) : Fits c events := by
  have hlength : (events ++ [e]).length = events.length + [e].length := List.length_append
  have hmisses : missCount (events ++ [e]) = missCount events + missCount [e] :=
    List.countP_append
  have htime := h.time
  rw [hlength, hmisses, Nat.mul_add, Nat.mul_add] at htime
  have haccesses := h.accesses
  rw [hlength] at haccesses
  exact ⟨by omega, by omega⟩

theorem hitCount_append : hitCount (events ++ [e]) = hitCount events + e.hits := by
  unfold hitCount Counted.hits
  cases hhit : e.isHit <;> simp [List.countP_append, hhit]

theorem missCount_append : missCount (events ++ [e]) = missCount events + e.misses := by
  unfold missCount Counted.misses
  cases hhit : e.isHit <;> simp [List.countP_append, hhit]

theorem hitCount_add_missCount (events : List Counted) :
    hitCount events + missCount events = events.length := by
  have hsplit := List.length_eq_countP_add_countP (fun e : Counted => e.isHit) (l := events)
  simp only [Bool.not_eq_true, Bool.decide_eq_false] at hsplit
  exact hsplit.symm

/-- The counters as numbers. -/
structure Tally (c : CacheConfig) (events : List Counted) (st : CacheStats) : Prop where
  accesses : st.accesses.toNat = events.length
  hits : st.hits.toNat = hitCount events
  misses : st.misses.toNat = missCount events
  totalAccessTime : st.totalAccessTime.toNat = c.accessLatency.toNat * hitCount events +
    (c.accessLatency + c.missPenalty).toNat * missCount events
  totalMissPenalty : st.totalMissPenalty.toNat = c.missPenalty.toNat * missCount events

theorem missTime_le (c : CacheConfig) : (c.accessLatency + c.missPenalty).toNat ≤
    c.accessLatency.toNat + c.missPenalty.toNat := by
  rw [BitVec.toNat_add]
  exact Nat.mod_le _ _

theorem time_toNat (c : CacheConfig) (e : Counted) : ((e.time c).setWidth 64).toNat =
    c.accessLatency.toNat * e.hits + (c.accessLatency + c.missPenalty).toNat * e.misses := by
  rw [BitVec.toNat_setWidth_of_le (by decide)]
  unfold Counted.time Counted.hits Counted.misses
  cases e.isHit <;> simp

theorem penalty_toNat (c : CacheConfig) (e : Counted) :
    ((e.penalty c).setWidth 64).toNat = c.missPenalty.toNat * e.misses := by
  rw [BitVec.toNat_setWidth_of_le (by decide)]
  unfold Counted.penalty Counted.misses
  cases e.isHit <;> simp

/-- The amounts that are added are at most those that are meant. -/
theorem Fits.bounds (h : Fits c events) :
    c.accessLatency.toNat * hitCount events +
      (c.accessLatency + c.missPenalty).toNat * missCount events < 2 ^ 64 ∧
    c.missPenalty.toNat * missCount events < 2 ^ 64 := by
  have htime := h.time
  have hmiss := Nat.mul_le_mul_right (missCount events) (missTime_le c)
  rw [← hitCount_add_missCount, Nat.mul_add] at htime
  rw [Nat.add_mul] at hmiss
  exact ⟨by omega, by omega⟩

theorem toNat_add_of_lt {x y : BitVec 64} {a b : Nat} (hx : x.toNat = a) (hy : y.toNat = b)
    (h : a + b < 2 ^ 64) : (x + y).toNat = a + b := by
  rw [BitVec.toNat_add, hx, hy, Nat.mod_eq_of_lt h]

theorem hits_toNat (e : Counted) : (BitVec.ofNat 64 e.hits).toNat = e.hits := by
  unfold Counted.hits
  cases e.isHit <;> rfl

theorem misses_toNat (e : Counted) : (BitVec.ofNat 64 e.misses).toNat = e.misses := by
  unfold Counted.misses
  cases e.isHit <;> rfl

theorem Tally.count (h : Tally c events st) (hcounts : Counts c e st st')
    (hfits : Fits c (events ++ [e])) : Tally c (events ++ [e]) st' := by
  have hlength : (events ++ [e]).length = events.length + 1 := List.length_append
  have haccesses := hfits.accesses
  have hsum := hitCount_add_missCount (events ++ [e])
  obtain ⟨htime, hpenalty⟩ := hfits.bounds
  have hhits : hitCount (events ++ [e]) = hitCount events + e.hits := hitCount_append
  have hmisses : missCount (events ++ [e]) = missCount events + e.misses := missCount_append
  refine ⟨?_, ?_, ?_, ?_, ?_⟩
  · rw [hcounts.accesses, hlength]
    exact toNat_add_of_lt h.accesses rfl (by omega)
  · rw [hcounts.hits, hhits]
    exact toNat_add_of_lt h.hits (hits_toNat e) (by omega)
  · rw [hcounts.misses, hmisses]
    exact toNat_add_of_lt h.misses (misses_toNat e) (by omega)
  · rw [hhits, hmisses, Nat.mul_add, Nat.mul_add] at htime ⊢
    rw [hcounts.totalAccessTime, toNat_add_of_lt h.totalAccessTime (time_toNat c e) (by omega)]
    omega
  · rw [hmisses, Nat.mul_add] at hpenalty ⊢
    rw [hcounts.totalMissPenalty,
      toNat_add_of_lt h.totalMissPenalty (penalty_toNat c e) hpenalty]

/-- One core's counter goes up, so the sum does. -/
theorem coreSum_modify {field : CoreStats → BitVec 64} {f : CoreStats → CoreStats} {d : BitVec 64}
    (hf : ∀ core, field (f core) = field core + d) {cores : List CoreStats} {i : Nat}
    (hi : i < cores.length) (hfits : coreSum field cores + d.toNat < 2 ^ 64) :
    coreSum field (cores.modify i f) = coreSum field cores + d.toNat := by
  induction cores generalizing i with
  | nil => cases hi
  | cons core cores ih =>
    have hcons : ∀ core cores, coreSum field (core :: cores) =
        (field core).toNat + coreSum field cores := fun _ _ => List.sum_cons
    rw [hcons] at hfits
    cases i with
    | zero =>
      rw [List.modify_zero_cons, hcons, hcons, hf, toNat_add_of_lt rfl rfl (by omega)]
      omega
    | succ i =>
      rw [List.modify_succ_cons, hcons, hcons, ih (Nat.lt_of_succ_lt_succ hi) (by omega)]
      omega

theorem SumsUp.count (h : SumsUp st) (htally : Tally c events st) (hcounts : Counts c e st st')
    (hfits : Fits c (events ++ [e])) (hcore : e.coreId < st.cores.length) : SumsUp st' := by
  have htally' := htally.count hcounts hfits
  obtain ⟨f, hf, hcores⟩ := hcounts.cores
  -- The total does not wrap, so neither does the counter of the core.
  have hsum : ∀ {field : CoreStats → BitVec 64} {total total' d : BitVec 64},
      coreSum field st.cores = total.toNat → total' = total + d →
      total'.toNat = total.toNat + d.toNat → (∀ core, field (f core) = field core + d) →
      coreSum field st'.cores = total'.toNat := by
    intro field total total' d hold htotal hnat hfield
    have hlt := total'.isLt
    rw [hcores, coreSum_modify hfield hcore (by omega), hold, hnat]
  have hlength : (events ++ [e]).length = events.length + 1 := List.length_append
  refine ⟨?_, ?_, ?_, ?_, ?_⟩
  · refine hsum h.accesses hcounts.accesses ?_ fun core => (hf core).accesses
    rw [htally'.accesses, htally.accesses, hlength]
    rfl
  · refine hsum h.hits hcounts.hits ?_ fun core => (hf core).hits
    rw [htally'.hits, htally.hits, hits_toNat, hitCount_append]
  · refine hsum h.misses hcounts.misses ?_ fun core => (hf core).misses
    rw [htally'.misses, htally.misses, misses_toNat, missCount_append]
  · refine hsum h.accessTime hcounts.totalAccessTime ?_ fun core => (hf core).accessTime
    rw [htally'.totalAccessTime, htally.totalAccessTime, time_toNat, hitCount_append,
      missCount_append, Nat.mul_add, Nat.mul_add]
    omega
  · refine hsum h.missPenalty hcounts.totalMissPenalty ?_ fun core => (hf core).missPenalty
    rw [htally'.totalMissPenalty, htally.totalMissPenalty, penalty_toNat, missCount_append,
      Nat.mul_add]

theorem Recorded.cores_length (h : Recorded c n events st) : st.cores.length = n := by
  induction h with
  | start => exact List.length_replicate
  | access _ hcounts ih =>
    obtain ⟨f, -, hcores⟩ := hcounts.cores
    rw [hcores, List.length_modify, ih]

theorem Recorded.tally (h : Recorded c n events st) (hfits : Fits c events) :
    Tally c events st := by
  induction h with
  | start => exact ⟨rfl, rfl, rfl, rfl, rfl⟩
  | access _ hcounts ih => exact (ih hfits.before).count hcounts hfits

theorem coreSum_replicate {field : CoreStats → BitVec 64} (h : field {} = 0) (n : Nat) :
    coreSum field (List.replicate n {}) = 0 := by
  unfold coreSum
  rw [List.map_replicate, h]
  exact List.sum_eq_zero fun x hx => List.eq_of_mem_replicate hx

theorem Recorded.sumsUp (h : Recorded c n events st) (hfits : Fits c events)
    (hcores : ∀ e ∈ events, e.coreId < n) : SumsUp st := by
  induction h with
  | start =>
    exact ⟨coreSum_replicate rfl n, coreSum_replicate rfl n, coreSum_replicate rfl n,
      coreSum_replicate rfl n, coreSum_replicate rfl n⟩
  | @access events e st st' h hcounts ih =>
    have hbefore := ih hfits.before fun e' he => hcores e' (List.mem_append_left _ he)
    have hcore := hcores e (List.mem_append_right _ (List.mem_singleton_self e))
    exact hbefore.count (h.tally hfits.before) hcounts hfits (h.cores_length.symm ▸ hcore)

/-- The time of a miss is whole, or there is none. -/
theorem Tally.conserved_iff (h : Tally c events st) : Conserved c st ↔
    c.accessLatency.toNat + c.missPenalty.toNat < 2 ^ 32 ∨ missCount events = 0 := by
  have haccesses : st.accesses.toNat = st.hits.toNat + st.misses.toNat := by
    rw [h.accesses, h.hits, h.misses, hitCount_add_missCount]
  have hpenalty : st.totalMissPenalty.toNat = c.missPenalty.toNat * st.misses.toNat := by
    rw [h.totalMissPenalty, h.misses]
  have htime : c.accessLatency.toNat * st.accesses.toNat + c.missPenalty.toNat * st.misses.toNat =
      c.accessLatency.toNat * hitCount events +
        (c.accessLatency.toNat + c.missPenalty.toNat) * missCount events := by
    rw [haccesses, h.hits, h.misses, Nat.mul_add, Nat.add_mul, Nat.add_assoc]
  have hsum : (c.accessLatency + c.missPenalty).toNat =
      c.accessLatency.toNat + c.missPenalty.toNat ↔
        c.accessLatency.toNat + c.missPenalty.toNat < 2 ^ 32 := by
    rw [BitVec.toNat_add]
    exact Nat.mod_eq_iff_lt (by decide)
  have hconserved : Conserved c st ↔
      (c.accessLatency + c.missPenalty).toNat * missCount events =
        (c.accessLatency.toNat + c.missPenalty.toNat) * missCount events := by
    constructor
    · intro hc
      have := hc.totalAccessTime
      rw [htime, h.totalAccessTime] at this
      exact Nat.add_left_cancel this
    · intro heq
      exact ⟨haccesses, by rw [htime, h.totalAccessTime, heq], hpenalty⟩
  rw [hconserved, mul_eq_mul_right_iff, hsum]

end CacheStats

/-! ## A cache without a next level -/

namespace Cache
variable {g : Geometry}

/-- Eviction without a next level: there is nowhere to write a block back to. -/
def evictAlone (c : Cache g) (s : Fin g.numSets) : Cache g :=
  match (c.lruLists s).getLast? with
  | some w =>
    let c := if (c.cacheEntries s w).dirty then
        c.mapStats fun st => { st with writebacks := st.writebacks + 1 }
      else c
    (c.setEntry s w { c.cacheEntries s w with valid := false, dirty := false }).popLru s
  | none => c

def claimAlone (c : Cache g) (s : Fin g.numSets) (w : Fin g.ways) (tag : Word) : Cache g :=
  c.setEntry s w { c.cacheEntries s w with tag := tag, valid := true, dirty := false }

def allocateAlone (c : Cache g) (s : Fin g.numSets) (tag : Word) : Fin g.ways × Cache g :=
  match c.findInvalid s with
  | some w => (w, c.claimAlone s w tag)
  | none =>
    let c := c.evictAlone s
    match c.findInvalid s with
    | some w => (w, c.claimAlone s w tag)
    | none => (⟨0, g.ways_pos⟩, c)

/-- The new block keeps the data that its way had. -/
def accessAlone (c : Cache g) (physAddr : Word) (coreId : Nat) : Fin g.ways × Cache g :=
  let s := g.setOf physAddr
  match c.findEntry physAddr with
  | some w => (w, (c.mapStats (·.hit g.toCacheConfig coreId)).updateLru s w)
  | none =>
    let (w, c) := (c.mapStats (·.miss g.toCacheConfig coreId)).allocateAlone s (g.getTag physAddr)
    (w, c.updateLru s w)

def setWordAlone (c : Cache g) (physAddr data : Word) (w : Fin g.ways) (markDirty : Bool) :
    Cache g :=
  let s := g.setOf physAddr
  let e := c.cacheEntries s w
  c.setEntry s w { e with
    data := Function.update e.data (g.wordIndex physAddr) data
    dirty := e.dirty || markDirty }

def readAlone (c : Cache g) (physAddr : Word) (coreId : Nat) : Word × Cache g :=
  let (w, c) := c.accessAlone physAddr coreId
  ((c.cacheEntries (g.setOf physAddr) w).data (g.wordIndex physAddr), c)

def writeAlone (c : Cache g) (addr physAddr data : Word) (coreId : Nat) : Cache g :=
  match writeThroughAddr addr physAddr with
  | some writeAddr =>
    let c := match c.findEntry writeAddr with
      | some w => (c.setWordAlone writeAddr data w false).invalidate writeAddr
      | none => c
    c.mapStats (·.hit g.toCacheConfig coreId)
  | none =>
    let (w, c) := c.accessAlone physAddr coreId
    c.setWordAlone physAddr data w true

def readWordAlone (c : Cache g) (physAddr : Word) : Word × Cache g := c.readAlone physAddr 0

def writeWordAlone (c : Cache g) (physAddr data : Word) : Cache g :=
  let (w, c) := c.accessAlone physAddr 0
  c.setWordAlone physAddr data w (!isWriteThrough physAddr)

/-- The fallback of the atomics. `read_word` and `write_word` translate the physical
address once more. -/
def atomicAlone (c : Cache g) (readAddr writeAddr : Word) (op : Word → Option Word) :
    Word × Cache g :=
  let (result, c) := c.readWordAlone readAddr
  match op result with
  | some v => (result, c.writeWordAlone writeAddr v)
  | none => (result, c)

end Cache

namespace Level
variable {g : Geometry} {σ : Type} [MemoryInterface σ]

/-- What is evicted does not depend on the next level. -/
theorem evictLruEntry_cache (lv : Level g σ) (s : Fin g.numSets) :
    (lv.evictLruEntry s).cache = lv.cache.evictAlone s := by
  unfold evictLruEntry Cache.evictAlone
  cases (lv.cache.lruLists s).getLast? with
  | none => rfl
  | some w =>
    dsimp only
    split <;> rfl

theorem allocateEntry_cache (lv : Level g σ) (s : Fin g.numSets) (tag : Word) :
    ((lv.allocateEntry s tag).1, (lv.allocateEntry s tag).2.cache) =
      lv.cache.allocateAlone s tag := by
  unfold allocateEntry Cache.allocateAlone
  cases lv.cache.findInvalid s with
  | some w => rfl
  | none =>
    dsimp only
    rw [← evictLruEntry_cache]
    cases (lv.evictLruEntry s).cache.findInvalid s <;> rfl

end Level

/-! ## Calls -/

/-- The addresses are those that the translation gives. Each of the eight atomics is an
update of the word there; without a next level it translates twice more. -/
inductive CacheCall (σ : Type) where
  | read (physAddr : Word) (coreId : Nat)
  | write (addr physAddr data : Word) (coreId : Nat)
  | readWord (physAddr : Word)
  | writeWord (physAddr data : Word)
  | atomic (physAddr readAddr writeAddr : Word) (op : Word → Option Word) (coreId : Nat)
  /-- Another next level, or what others made of it. -/
  | setMemoryInterface (memory : Option σ)

/-- A call of a core has an id below `n`. -/
def CacheCall.CoreBelow {σ : Type} (n : Nat) : CacheCall σ → Prop
  | .read _ coreId | .write _ _ _ coreId | .atomic _ _ _ _ coreId => coreId < n
  | .readWord _ | .writeWord _ _ | .setMemoryInterface _ => True

namespace Counting
open CacheStats Level
variable {g : Geometry} {σ : Type} [MemoryInterface σ] {n : Nat} {events : List Counted}

def callConnected (lv : Level g σ) : CacheCall σ → Level g σ
  | .read physAddr coreId => (lv.read physAddr coreId).2.2
  | .write addr physAddr data coreId => (lv.write addr physAddr data coreId).2
  | .readWord physAddr => (lv.readWord physAddr).2
  | .writeWord physAddr data => lv.writeWord physAddr data
  | .atomic physAddr _ _ op coreId => (lv.atomicUpdate physAddr op coreId).2
  | .setMemoryInterface _ => lv

omit [MemoryInterface σ] in
def callAlone (c : Cache g) : CacheCall σ → Cache g
  | .read physAddr coreId => (c.readAlone physAddr coreId).2
  | .write addr physAddr data coreId => c.writeAlone addr physAddr data coreId
  | .readWord physAddr => (c.readWordAlone physAddr).2
  | .writeWord physAddr data => c.writeWordAlone physAddr data
  | .atomic _ readAddr writeAddr op _ => (c.atomicAlone readAddr writeAddr op).2
  | .setMemoryInterface _ => c

/-- A call of a cache that may have no next level. -/
def call (lv : Level g (Option σ)) (c : CacheCall σ) : Level g (Option σ) :=
  match c, lv.memory with
  | .setMemoryInterface memory, _ => { lv with memory }
  | c, some memory =>
    let lv' := callConnected ⟨lv.cache, memory⟩ c
    ⟨lv'.cache, some lv'.memory⟩
  | c, none => ⟨callAlone lv.cache c, none⟩

omit [MemoryInterface σ] in
/-- The accesses a call is counted as, from the state before it. -/
def outcomes (lv : Level g (Option σ)) : CacheCall σ → List Counted
  | .read physAddr coreId => [⟨coreId, (lv.cache.findEntry physAddr).isSome⟩]
  | .write addr physAddr _ coreId =>
    [⟨coreId, (writeThroughAddr addr physAddr).isSome || (lv.cache.findEntry physAddr).isSome⟩]
  | .readWord physAddr | .writeWord physAddr _ => [⟨0, (lv.cache.findEntry physAddr).isSome⟩]
  | .atomic _ readAddr writeAddr op coreId =>
    match lv.memory with
    | some _ => [⟨coreId, false⟩]
    | none =>
      let (result, c) := lv.cache.readWordAlone readAddr
      ⟨0, (lv.cache.findEntry readAddr).isSome⟩ ::
        if (op result).isSome then [⟨0, (c.findEntry writeAddr).isSome⟩] else []
  | .setMemoryInterface _ => []

def afterCalls (lv : Level g (Option σ)) (calls : List (CacheCall σ)) : Level g (Option σ) :=
  calls.foldl call lv

def outcomesOf (lv : Level g (Option σ)) : List (CacheCall σ) → List Counted
  | [] => []
  | c :: calls => outcomes lv c ++ outcomesOf (call lv c) calls

/-! ### What a call adds -/

omit [MemoryInterface σ] in
theorem evictAlone_stats (c : Cache g) (s : Fin g.numSets) :
    ∃ writebacks, (c.evictAlone s).stats = { c.stats with writebacks } := by
  unfold Cache.evictAlone
  cases (c.lruLists s).getLast? with
  | none => exact ⟨_, rfl⟩
  | some w =>
    cases hdirty : (c.cacheEntries s w).dirty with
    | true => exact ⟨c.stats.writebacks + 1, by simp only [hdirty]; rfl⟩
    | false => exact ⟨c.stats.writebacks, by simp only [hdirty]; rfl⟩

omit [MemoryInterface σ] in
theorem allocateAlone_stats (c : Cache g) (s : Fin g.numSets) (tag : Word) :
    ∃ writebacks, (c.allocateAlone s tag).2.stats = { c.stats with writebacks } := by
  unfold Cache.allocateAlone
  cases c.findInvalid s with
  | some w => exact ⟨_, rfl⟩
  | none =>
    obtain ⟨writebacks, hevict⟩ := evictAlone_stats c s
    refine ⟨writebacks, ?_⟩
    rw [← hevict]
    dsimp only
    cases (c.evictAlone s).findInvalid s <;> rfl

theorem allocateEntry_stats (lv : Level g σ) (s : Fin g.numSets) (tag : Word) :
    ∃ writebacks, (lv.allocateEntry s tag).2.cache.stats =
      { lv.cache.stats with writebacks } := by
  have hcache := congrArg Prod.snd (lv.allocateEntry_cache s tag)
  dsimp only at hcache
  rw [hcache]
  exact allocateAlone_stats lv.cache s tag

theorem access_counts (lv : Level g σ) (physAddr : Word) (coreId : Nat) :
    Counts g.toCacheConfig ⟨coreId, (lv.cache.findEntry physAddr).isSome⟩ lv.cache.stats
      (lv.access physAddr coreId).2.2.cache.stats := by
  unfold access
  cases lv.cache.findEntry physAddr with
  | some w => exact hit_counts _ _ coreId
  | none =>
    obtain ⟨writebacks, halloc⟩ := allocateEntry_stats
      (lv.mapCache (·.mapStats (·.miss g.toCacheConfig coreId))) (g.setOf physAddr)
      (g.getTag physAddr)
    have hcounts := (miss_counts g.toCacheConfig lv.cache.stats coreId).writebacks writebacks
    exact hcounts.congr halloc

omit [MemoryInterface σ] in
theorem accessAlone_counts (c : Cache g) (physAddr : Word) (coreId : Nat) :
    Counts g.toCacheConfig ⟨coreId, (c.findEntry physAddr).isSome⟩ c.stats
      (c.accessAlone physAddr coreId).2.stats := by
  unfold Cache.accessAlone
  cases c.findEntry physAddr with
  | some w => exact hit_counts _ _ coreId
  | none =>
    obtain ⟨writebacks, halloc⟩ := allocateAlone_stats
      (c.mapStats (·.miss g.toCacheConfig coreId)) (g.setOf physAddr) (g.getTag physAddr)
    have hcounts := (miss_counts g.toCacheConfig c.stats coreId).writebacks writebacks
    exact hcounts.congr halloc

theorem writeWord_stats (lv : Level g σ) (physAddr data : Word) :
    (lv.writeWord physAddr data).cache.stats = (lv.access physAddr 0).2.2.cache.stats := by
  unfold Level.writeWord
  dsimp only
  split <;> rfl

omit [MemoryInterface σ] in
theorem invalidate_stats (c : Cache g) (addr : Word) : (c.invalidate addr).stats = c.stats := by
  unfold Cache.invalidate
  cases c.findEntry addr <;> rfl

/-- A store that is written through counts as a hit. -/
theorem write_counts (lv : Level g σ) (addr physAddr data : Word) (coreId : Nat) :
    Counts g.toCacheConfig
      ⟨coreId, (writeThroughAddr addr physAddr).isSome || (lv.cache.findEntry physAddr).isSome⟩
      lv.cache.stats (lv.write addr physAddr data coreId).2.cache.stats := by
  unfold Level.write
  cases writeThroughAddr addr physAddr with
  | none => exact access_counts lv physAddr coreId
  | some writeAddr =>
    dsimp only
    cases lv.cache.findEntry writeAddr with
    | none => exact hit_counts _ _ coreId
    | some w =>
      have hstats := invalidate_stats (lv.setWord writeAddr data w false).cache writeAddr
      have hhit := hit_counts g.toCacheConfig lv.cache.stats coreId
      exact hhit.congr (congrArg (·.hit g.toCacheConfig coreId) hstats)

omit [MemoryInterface σ] in
theorem writeAlone_counts (c : Cache g) (addr physAddr data : Word) (coreId : Nat) :
    Counts g.toCacheConfig
      ⟨coreId, (writeThroughAddr addr physAddr).isSome || (c.findEntry physAddr).isSome⟩
      c.stats (c.writeAlone addr physAddr data coreId).stats := by
  unfold Cache.writeAlone
  cases writeThroughAddr addr physAddr with
  | none => exact accessAlone_counts c physAddr coreId
  | some writeAddr =>
    dsimp only
    cases c.findEntry writeAddr with
    | none => exact hit_counts _ _ coreId
    | some w =>
      have hstats := invalidate_stats (c.setWordAlone writeAddr data w false) writeAddr
      have hhit := hit_counts g.toCacheConfig c.stats coreId
      exact hhit.congr (congrArg (·.hit g.toCacheConfig coreId) hstats)

/-- A call moves the counters by its accesses. -/
theorem call_recorded {lv : Level g (Option σ)}
    (h : Recorded g.toCacheConfig n events lv.cache.stats) (c : CacheCall σ) :
    Recorded g.toCacheConfig n (events ++ outcomes lv c) (call lv c).cache.stats := by
  obtain ⟨cache, memory⟩ := lv
  cases c with
  | setMemoryInterface memory' => rw [outcomes, List.append_nil]; exact h
  | read physAddr coreId =>
    refine h.access ?_
    cases memory with
    | none => exact accessAlone_counts cache physAddr coreId
    | some memory => exact access_counts ⟨cache, memory⟩ physAddr coreId
  | readWord physAddr =>
    refine h.access ?_
    cases memory with
    | none => exact accessAlone_counts cache physAddr 0
    | some memory => exact access_counts ⟨cache, memory⟩ physAddr 0
  | writeWord physAddr data =>
    refine h.access ?_
    cases memory with
    | none => exact accessAlone_counts cache physAddr 0
    | some memory =>
      have hcounts := access_counts ⟨cache, memory⟩ physAddr 0
      rwa [← writeWord_stats ⟨cache, memory⟩ physAddr data] at hcounts
  | write addr physAddr data coreId =>
    refine h.access ?_
    cases memory with
    | none => exact writeAlone_counts cache addr physAddr data coreId
    | some memory => exact write_counts ⟨cache, memory⟩ addr physAddr data coreId
  | atomic physAddr readAddr writeAddr op coreId =>
    cases memory with
    | some memory =>
      refine h.access ?_
      have hmiss := miss_counts g.toCacheConfig cache.stats coreId
      exact hmiss.congr
        (congrArg (·.miss g.toCacheConfig coreId) (invalidate_stats cache physAddr))
    | none =>
      have hread := h.access (accessAlone_counts cache readAddr 0)
      unfold outcomes call callAlone Cache.atomicAlone Cache.readWordAlone
      dsimp only
      cases op (cache.readAlone readAddr 0).1 with
      | none => exact hread
      | some v =>
        have hwrite := hread.access (accessAlone_counts (cache.readAlone readAddr 0).2 writeAddr 0)
        rwa [List.append_assoc] at hwrite

theorem afterCalls_recorded {lv : Level g (Option σ)}
    (h : Recorded g.toCacheConfig n events lv.cache.stats) (calls : List (CacheCall σ)) :
    Recorded g.toCacheConfig n (events ++ outcomesOf lv calls)
      (afterCalls lv calls).cache.stats := by
  induction calls generalizing lv events with
  | nil => rw [outcomesOf, List.append_nil]; exact h
  | cons c calls ih =>
    have hrest := ih (call_recorded h c)
    rwa [List.append_assoc] at hrest

omit [MemoryInterface σ] in
/-- The memory face is charged to core 0. -/
theorem outcomes_coreId (lv : Level g (Option σ)) {c : CacheCall σ} (hn : 0 < n)
    (hc : c.CoreBelow n) : ∀ e ∈ outcomes lv c, e.coreId < n := by
  cases c with
  | read physAddr coreId => simpa [outcomes] using show coreId < n from hc
  | write addr physAddr data coreId => simpa [outcomes] using show coreId < n from hc
  | readWord physAddr => simpa [outcomes] using hn
  | writeWord physAddr data => simpa [outcomes] using hn
  | setMemoryInterface memory => simp [outcomes]
  | atomic physAddr readAddr writeAddr op coreId =>
    unfold outcomes
    cases lv.memory with
    | some memory => simpa using show coreId < n from hc
    | none =>
      dsimp only
      split <;> simpa using hn

theorem outcomesOf_coreId (hn : 0 < n) {calls : List (CacheCall σ)}
    (hcalls : ∀ c ∈ calls, c.CoreBelow n) (lv : Level g (Option σ)) :
    ∀ e ∈ outcomesOf lv calls, e.coreId < n := by
  induction calls generalizing lv with
  | nil => exact fun _ he => nomatch he
  | cons c calls ih =>
    intro e he
    rcases List.mem_append.mp he with he | he
    · exact outcomes_coreId lv hn (hcalls c List.mem_cons_self) e he
    · exact ih (fun c' hc' => hcalls c' (List.mem_cons_of_mem c hc')) _ e he

/-- The totals are those of the accesses exactly where the time of a miss fits in 32 bits or
none missed. The counters of the cores add up to them in any case. -/
theorem cache_statistics (n : Nat) (memory : Option σ) (calls : List (CacheCall σ))
    (hfits : Fits g.toCacheConfig (outcomesOf ⟨Cache.init g n, memory⟩ calls)) :
    (Conserved g.toCacheConfig (afterCalls ⟨Cache.init g n, memory⟩ calls).cache.stats ↔
      g.accessLatency.toNat + g.missPenalty.toNat < 2 ^ 32 ∨
        ∀ e ∈ outcomesOf ⟨Cache.init g n, memory⟩ calls, e.isHit = true) ∧
    (0 < n → (∀ c ∈ calls, c.CoreBelow n) →
      SumsUp (afterCalls ⟨Cache.init g n, memory⟩ calls).cache.stats) := by
  have hstart : Recorded g.toCacheConfig n []
      (⟨Cache.init g n, memory⟩ : Level g (Option σ)).cache.stats := .start
  have hrun := afterCalls_recorded hstart calls
  rw [List.nil_append] at hrun
  refine ⟨?_, fun hn hcalls => hrun.sumsUp hfits (outcomesOf_coreId hn hcalls _)⟩
  rw [(hrun.tally hfits).conserved_iff]
  refine or_congr_right ?_
  unfold missCount
  rw [List.countP_eq_zero]
  exact forall₂_congr fun e _ => by simp

/-- A block that is missed, hit by another core, and left alone by an atomic. -/
theorem cache_statistics_three : SumsUp (afterCalls
    (⟨Cache.init l1Geometry 2, some ⟨fun _ => 0⟩⟩ : Level l1Geometry (Option (ByteMemory 4096)))
      [.read 0x100 0, .write 0x104 0x104 5 1, .atomic 0x100 0x100 0x100 some 1]).cache.stats := by
  have hfits : Fits l1Geometry.toCacheConfig (outcomesOf
      (⟨Cache.init l1Geometry 2, some ⟨fun _ => 0⟩⟩ : Level l1Geometry (Option (ByteMemory 4096)))
        [.read 0x100 0, .write 0x104 0x104 5 1, .atomic 0x100 0x100 0x100 some 1]) :=
    ⟨by decide +kernel, by decide +kernel⟩
  refine (cache_statistics _ _ _ hfits).2 (by decide) ?_
  simp [CacheCall.CoreBelow]

/-- One block, with latencies whose sum does not fit in 32 bits. -/
def slowConfig : CacheConfig where
  size := 64
  associativity := 1
  blockSize := 64
  accessLatency := 0x80000000
  missPenalty := 0x80000000

theorem slowConfig_accepted : slowConfig.Accepted := by decide

theorem slowConfig_wordBlocks : 4 ≤ slowConfig.blockSize.toNat := by decide

def slowGeometry : Geometry where
  toCacheConfig := slowConfig
  accepted := slowConfig_accepted
  wordBlocks := slowConfig_wordBlocks

/-- One read of it misses, and no time is added. -/
theorem slow_miss_lost : ¬∀ (g : Geometry) (n : Nat) (memory : Option (ByteMemory 4096))
    (calls : List (CacheCall (ByteMemory 4096))),
    Fits g.toCacheConfig (outcomesOf ⟨Cache.init g n, memory⟩ calls) →
      Conserved g.toCacheConfig (afterCalls ⟨Cache.init g n, memory⟩ calls).cache.stats := by
  intro h
  have hread := (h slowGeometry 1 none [.read 0 0] ⟨by decide, by decide⟩).totalAccessTime
  exact absurd hread (by decide)

end Counting
end RiscvEmulator.Memory
