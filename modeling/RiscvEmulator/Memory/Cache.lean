import Mathlib.Data.Fintype.Basic
import Mathlib.Data.List.FinRange
import RiscvEmulator.Memory.Geometry
import RiscvEmulator.Memory.Interface

/-! # The set-associative cache

`Cache` of `Cache.cpp`: lookup, allocation with LRU eviction, the timed accesses
of a core (`read`, `write`), the memory face towards the level above
(`readWord`, ..., `writeBlock`) and the atomics, which go around the cache. A
`Level` is a cache with the memory behind its `memory_interface`; all addresses
are physical, translation is done by the caller. -/
namespace RiscvEmulator.Memory

/-! ## Statistics -/

structure CoreStats where
  hits : BitVec 64 := 0
  misses : BitVec 64 := 0
  accesses : BitVec 64 := 0
  accessTime : BitVec 64 := 0
  missPenalty : BitVec 64 := 0
  hitTime : BitVec 64 := 0
  missTime : BitVec 64 := 0
deriving DecidableEq, Repr

structure CacheStats where
  hits : BitVec 64 := 0
  misses : BitVec 64 := 0
  accesses : BitVec 64 := 0
  writebacks : BitVec 64 := 0
  totalAccessTime : BitVec 64 := 0
  totalMissPenalty : BitVec 64 := 0
  totalHitTime : BitVec 64 := 0
  totalMissTime : BitVec 64 := 0
  /-- One entry a core, as set by `set_num_cores`. -/
  cores : List CoreStats := []
deriving DecidableEq, Repr

namespace CacheStats

def updateCoreStats (st : CacheStats) (coreId : Nat) (isHit : Bool) (accessTime : Word)
    (missPenalty : Word := 0) : CacheStats :=
  if coreId < st.cores.length then
    let time := accessTime.setWidth 64
    let st := { st with cores := st.cores.modify coreId fun c =>
      let c := { c with accesses := c.accesses + 1, accessTime := c.accessTime + time }
      if isHit then { c with hits := c.hits + 1, hitTime := c.hitTime + time }
      else { c with misses := c.misses + 1, missTime := c.missTime + time,
                    missPenalty := c.missPenalty + missPenalty.setWidth 64 } }
    if isHit then { st with totalHitTime := st.totalHitTime + time }
    else { st with totalMissTime := st.totalMissTime + time }
  else st

/-- Every counter is zeroed. -/
def reset (st : CacheStats) : CacheStats := { cores := st.cores.map fun _ => {} }

/-- The counters of an access that hits. -/
def hit (st : CacheStats) (c : CacheConfig) (coreId : Nat) : CacheStats :=
  let st := { st with accesses := st.accesses + 1, hits := st.hits + 1 }
  let st := st.updateCoreStats coreId true c.accessLatency
  { st with totalAccessTime := st.totalAccessTime + c.accessLatency.setWidth 64 }

/-- The counters of an access that misses. The two latencies are added in 32 bits. -/
def miss (st : CacheStats) (c : CacheConfig) (coreId : Nat) : CacheStats :=
  let st := { st with accesses := st.accesses + 1, misses := st.misses + 1,
                      totalMissPenalty := st.totalMissPenalty + c.missPenalty.setWidth 64 }
  let st := st.updateCoreStats coreId false (c.accessLatency + c.missPenalty) c.missPenalty
  { st with totalAccessTime :=
      st.totalAccessTime + (c.accessLatency + c.missPenalty).setWidth 64 }

end CacheStats

/-! ## Lookup and replacement order -/

/-- One way of one set. Words of `data` from `wordsPerBlock` on are never accessed. -/
structure CacheEntry where
  tag : Word
  data : Nat → Word
  valid : Bool
  dirty : Bool

/-- The ways of every set, and for every set its ways from the most to the least
recently used. -/
structure Cache (g : Geometry) where
  cacheEntries : Fin g.numSets → Fin g.ways → CacheEntry
  lruLists : Fin g.numSets → List (Fin g.ways)
  stats : CacheStats

namespace Cache
variable {g : Geometry}

/-- The constructor, followed by `set_num_cores`. -/
def init (g : Geometry) (numCores : Nat) : Cache g where
  cacheEntries _ _ := { tag := 0, data := fun _ => 0, valid := false, dirty := false }
  lruLists _ := List.finRange g.ways
  stats := { cores := List.replicate numCores {} }

def setEntry (c : Cache g) (s : Fin g.numSets) (w : Fin g.ways) (e : CacheEntry) : Cache g :=
  { c with
    cacheEntries := Function.update c.cacheEntries s (Function.update (c.cacheEntries s) w e) }

/-- The way of a set that holds a tag. -/
def lookup (c : Cache g) (s : Fin g.numSets) (tag : Word) : Option (Fin g.ways) :=
  (List.finRange g.ways).find? fun w =>
    (c.cacheEntries s w).valid && (c.cacheEntries s w).tag == tag

def findEntry (c : Cache g) (addr : Word) : Option (Fin g.ways) :=
  c.lookup (g.setOf addr) (g.getTag addr)

/-- The first way of a set that is free. -/
def findInvalid (c : Cache g) (s : Fin g.numSets) : Option (Fin g.ways) :=
  (List.finRange g.ways).find? fun w => !(c.cacheEntries s w).valid

def updateLru (c : Cache g) (s : Fin g.numSets) (w : Fin g.ways) : Cache g :=
  { c with lruLists := Function.update c.lruLists s (w :: (c.lruLists s).filter (· != w)) }

def popLru (c : Cache g) (s : Fin g.numSets) : Cache g :=
  { c with lruLists := Function.update c.lruLists s (c.lruLists s).dropLast }

def mapStats (c : Cache g) (f : CacheStats → CacheStats) : Cache g :=
  { c with stats := f c.stats }

/-- The replacement order keeps the way for its next use. -/
def invalidate (c : Cache g) (addr : Word) : Cache g :=
  match c.findEntry addr with
  | some w =>
    let e := c.cacheEntries (g.setOf addr) w
    c.setEntry (g.setOf addr) w { e with valid := false, dirty := false }
  | none => c

def invalidateAll (c : Cache g) : Cache g where
  cacheEntries s w := { c.cacheEntries s w with valid := false, dirty := false }
  lruLists _ := List.finRange g.ways
  stats := c.stats.reset

end Cache

/-! ## Stores that are written through -/

/-- The words shared by the cores, among them `uart_mutex`. -/
def isWriteThrough (addr : Word) : Bool := 0x82008 ≤ addr && addr ≤ 0x8201F

/-- The page table region. -/
def inPageTable (addr : Word) : Bool := 0x20000 ≤ addr && addr < 0x21000

/-- Where a store goes that is written through, `none` for a write-back one. -/
def writeThroughAddr (addr physAddr : Word) : Option Word :=
  if inPageTable addr then some addr
  else if isWriteThrough physAddr || inPageTable physAddr then some physAddr
  else none

/-! ## A cache over its memory -/

structure Level (g : Geometry) (σ : Type) where
  cache : Cache g
  memory : σ

namespace Level
variable {g : Geometry} {σ : Type} [MemoryInterface σ]

omit [MemoryInterface σ] in
def mapCache (lv : Level g σ) (f : Cache g → Cache g) : Level g σ :=
  { lv with cache := f lv.cache }

def writeBackBlock (lv : Level g σ) (s : Fin g.numSets) (w : Fin g.ways) : Level g σ :=
  let e := lv.cache.cacheEntries s w
  { lv with
    memory := MemoryInterface.writeBlock lv.memory (g.blockAddressOf s e.tag)
      ((List.range g.wordsPerBlock).map e.data) }

def evictLruEntry (lv : Level g σ) (s : Fin g.numSets) : Level g σ :=
  match (lv.cache.lruLists s).getLast? with
  | some w =>
    let lv := if (lv.cache.cacheEntries s w).dirty then
        (lv.writeBackBlock s w).mapCache
          (·.mapStats fun st => { st with writebacks := st.writebacks + 1 })
      else lv
    let e := lv.cache.cacheEntries s w
    lv.mapCache fun c => (c.setEntry s w { e with valid := false, dirty := false }).popLru s
  | none => lv

omit [MemoryInterface σ] in
/-- Give a free way to a tag. -/
def claim (lv : Level g σ) (s : Fin g.numSets) (w : Fin g.ways) (tag : Word) : Level g σ :=
  lv.mapCache fun c => c.setEntry s w
    { c.cacheEntries s w with tag := tag, valid := true, dirty := false }

/-- A free way, after an eviction if there is none. The source asserts that the
last case is never reached. -/
def allocateEntry (lv : Level g σ) (s : Fin g.numSets) (tag : Word) : Fin g.ways × Level g σ :=
  match lv.cache.findInvalid s with
  | some w => (w, lv.claim s w tag)
  | none =>
    let lv := lv.evictLruEntry s
    match lv.cache.findInvalid s with
    | some w => (w, lv.claim s w tag)
    | none => (⟨0, g.ways_pos⟩, lv)

def loadBlock (lv : Level g σ) (addr : Word) (s : Fin g.numSets) (w : Fin g.ways) : Level g σ :=
  let (block, memory) :=
    MemoryInterface.readBlock lv.memory (g.getBlockAddress addr) g.wordsPerBlock
  { cache := lv.cache.setEntry s w
      { lv.cache.cacheEntries s w with data := fun i => block.getD i 0 }
    memory := memory }

/-- What every cached access begins with: find the block or bring it in, count
the access, and make the way the most recently used. Says whether it was a hit. -/
def access (lv : Level g σ) (physAddr : Word) (coreId : Nat) : Bool × Fin g.ways × Level g σ :=
  let s := g.setOf physAddr
  match lv.cache.findEntry physAddr with
  | some w =>
    (true, w, lv.mapCache fun c => (c.mapStats (·.hit g.toCacheConfig coreId)).updateLru s w)
  | none =>
    let lv := lv.mapCache (·.mapStats (·.miss g.toCacheConfig coreId))
    let (w, lv) := lv.allocateEntry s (g.getTag physAddr)
    let lv := lv.loadBlock physAddr s w
    (false, w, lv.mapCache (·.updateLru s w))

/-- Set a word of a block and mark the block dirty, or leave its mark. -/
def setWord (lv : Level g σ) (physAddr data : Word) (w : Fin g.ways) (markDirty : Bool) :
    Level g σ :=
  let s := g.setOf physAddr
  let e := lv.cache.cacheEntries s w
  lv.mapCache (·.setEntry s w { e with
    data := Function.update e.data (g.wordIndex physAddr) data
    dirty := e.dirty || markDirty })

/-! ### Accesses of a core -/

def read (lv : Level g σ) (physAddr : Word) (coreId : Nat) : Bool × Word × Level g σ :=
  let (hit, w, lv) := lv.access physAddr coreId
  (hit, (lv.cache.cacheEntries (g.setOf physAddr) w).data (g.wordIndex physAddr), lv)

/-- `addr` is the address before translation, which the page table check also
looks at. -/
def write (lv : Level g σ) (addr physAddr data : Word) (coreId : Nat) : Bool × Level g σ :=
  match writeThroughAddr addr physAddr with
  | some writeAddr =>
    let lv := { lv with memory := MemoryInterface.writeWord lv.memory writeAddr data }
    let lv := match lv.cache.findEntry writeAddr with
      | some w => (lv.setWord writeAddr data w false).mapCache (·.invalidate writeAddr)
      | none => lv
    (true, lv.mapCache (·.mapStats (·.hit g.toCacheConfig coreId)))
  | none =>
    let (hit, w, lv) := lv.access physAddr coreId
    (hit, lv.setWord physAddr data w true)

/-! ### The memory face -/

def readWord (lv : Level g σ) (physAddr : Word) : Word × Level g σ :=
  let (_, data, lv) := lv.read physAddr 0
  (data, lv)

def writeWord (lv : Level g σ) (physAddr data : Word) : Level g σ :=
  let (_, w, lv) := lv.access physAddr 0
  if isWriteThrough physAddr then
    let lv := lv.setWord physAddr data w false
    { lv with memory := MemoryInterface.writeWord lv.memory physAddr data }
  else lv.setWord physAddr data w true

def readBlock (lv : Level g σ) (addr : Word) : Nat → List Word × Level g σ
  | 0 => ([], lv)
  | words + 1 =>
    let (data, lv) := lv.readWord addr
    let (rest, lv) := lv.readBlock (addr + 4) words
    (data :: rest, lv)

def writeBlock (lv : Level g σ) (addr : Word) : List Word → Level g σ
  | [] => lv
  | data :: rest => (lv.writeWord addr data).writeBlock (addr + 4) rest

instance : MemoryInterface (Level g σ) where
  readWord := readWord
  writeWord := writeWord
  readBlock := readBlock
  writeBlock := writeBlock

/-! ### Flushing -/

/-- Write a modified way back and clear its mark. -/
def flushWay (lv : Level g σ) (s : Fin g.numSets) (w : Fin g.ways) : Level g σ :=
  if (lv.cache.cacheEntries s w).dirty then
    (lv.writeBackBlock s w).mapCache fun c =>
      c.setEntry s w { c.cacheEntries s w with dirty := false }
  else lv

def flush (lv : Level g σ) (addr : Word) : Level g σ :=
  match lv.cache.findEntry addr with
  | some w => lv.flushWay (g.setOf addr) w
  | none => lv

/-- Flush the ways whose block begins in a range of addresses; the end of the range is
computed in 32 bits. -/
def flushRange (lv : Level g σ) (startAddr size : Word) : Level g σ :=
  let endAddr := startAddr + size
  (List.finRange g.numSets).foldl (fun lv s => (List.finRange g.ways).foldl (fun lv w =>
    let e := lv.cache.cacheEntries s w
    if e.valid then
      let blockAddr := g.blockAddressOf s e.tag
      if startAddr ≤ blockAddr && blockAddr < endAddr then lv.flushWay s w else lv
    else lv) lv) lv

/-! ### Atomics -/

/-- The shared body: read the memory behind the cache, store there what `op`
makes of the old word, if anything, and drop the own copy of the line. -/
def atomicUpdate (lv : Level g σ) (physAddr : Word) (op : Word → Option Word) (coreId : Nat) :
    Word × Level g σ :=
  let (result, memory) := MemoryInterface.readWord lv.memory physAddr
  let memory := match op result with
    | some v => MemoryInterface.writeWord memory physAddr v
    | none => memory
  (result, { cache := (lv.cache.invalidate physAddr).mapStats (·.miss g.toCacheConfig coreId)
             memory := memory })

def atomicAdd (lv : Level g σ) (physAddr value : Word) (coreId : Nat) : Word × Level g σ :=
  lv.atomicUpdate physAddr (fun result => some (result + value)) coreId

def atomicSwap (lv : Level g σ) (physAddr value : Word) (coreId : Nat) : Word × Level g σ :=
  lv.atomicUpdate physAddr (fun _ => some value) coreId

def atomicCompareAndSwap (lv : Level g σ) (physAddr expected desired : Word) (coreId : Nat) :
    Word × Level g σ :=
  lv.atomicUpdate physAddr
    (fun current => if current == expected then some desired else none) coreId

def atomicFetchAndAdd (lv : Level g σ) (physAddr value : Word) (coreId : Nat) :
    Word × Level g σ :=
  lv.atomicAdd physAddr value coreId

def atomicFetchAndSub (lv : Level g σ) (physAddr value : Word) (coreId : Nat) :
    Word × Level g σ :=
  lv.atomicUpdate physAddr (fun result => some (result - value)) coreId

def atomicFetchAndAnd (lv : Level g σ) (physAddr value : Word) (coreId : Nat) :
    Word × Level g σ :=
  lv.atomicUpdate physAddr (fun result => some (result &&& value)) coreId

def atomicFetchAndOr (lv : Level g σ) (physAddr value : Word) (coreId : Nat) :
    Word × Level g σ :=
  lv.atomicUpdate physAddr (fun result => some (result ||| value)) coreId

def atomicFetchAndXor (lv : Level g σ) (physAddr value : Word) (coreId : Nat) :
    Word × Level g σ :=
  lv.atomicUpdate physAddr (fun result => some (result ^^^ value)) coreId

end Level
end RiscvEmulator.Memory
