import RiscvEmulator.Memory.CacheLines
import RiscvEmulator.Memory.CacheStatistics

/-! # The ways of a set

Whatever is called, and with a next level or without one: between operations no tag is
held twice in a set and the replacement order lists every way once. A set that is full
gives up the line read or written least recently, and a dirty one goes back to the
address that it was loaded from. -/
namespace RiscvEmulator.Memory
open Lib.Recency

namespace Geometry
variable (g : Geometry)

/-- The line of an address. -/
def lineOf (a : Word) : Fin g.numSets × Word := (g.setOf a, g.getTag a)

/-- The block of an address goes back to where it came from. -/
theorem blockAddressOf_lineOf (a : Word) :
    g.blockAddressOf (g.setOf a) (g.getTag a) = g.getBlockAddress a := by
  obtain ⟨hset, htag, _, hblock⟩ := g.address_wordOf a
  rw [← hset, ← htag, ← hblock, g.getBlockAddress_byteAddr]
  exact g.blockAddressOf_line (wordOf a)

end Geometry

/-! ## Operations -/

/-- What a cache is called with; a block is read or written word by word. -/
inductive CacheStep (σ : Type) where
  | call (c : CacheCall σ)
  | invalidate (addr : Word)
  | invalidateAll
  | flush (addr : Word)
  | flushRange (startAddr size : Word)

inductive CacheOp (σ : Type) where
  | step (s : CacheStep σ)
  | readBlock (addr : Word) (words : Nat)
  | writeBlock (addr : Word) (data : List Word)

namespace Cache
variable {g : Geometry}

def readBlockAlone (c : Cache g) (addr : Word) : Nat → Cache g
  | 0 => c
  | words + 1 => (c.readWordAlone addr).2.readBlockAlone (addr + 4) words

def writeBlockAlone (c : Cache g) (addr : Word) : List Word → Cache g
  | [] => c
  | data :: rest => (c.writeWordAlone addr data).writeBlockAlone (addr + 4) rest

/-- Flushing without a next level clears the mark. -/
def flushWayAlone (c : Cache g) (s : Fin g.numSets) (w : Fin g.ways) : Cache g :=
  if (c.cacheEntries s w).dirty then
    c.setEntry s w { c.cacheEntries s w with dirty := false }
  else c

def flushAlone (c : Cache g) (addr : Word) : Cache g :=
  match c.findEntry addr with
  | some w => c.flushWayAlone (g.setOf addr) w
  | none => c

def flushRangeAlone (c : Cache g) (startAddr size : Word) : Cache g :=
  let endAddr := startAddr + size
  (List.finRange g.numSets).foldl (fun c s => (List.finRange g.ways).foldl (fun c w =>
    let e := c.cacheEntries s w
    if e.valid then
      let blockAddr := g.blockAddressOf s e.tag
      if startAddr ≤ blockAddr && blockAddr < endAddr then c.flushWayAlone s w else c
    else c) c) c

end Cache

namespace CacheOp
variable {σ : Type}

def readWords (addr : Word) : Nat → List (CacheStep σ)
  | 0 => []
  | words + 1 => .call (.readWord addr) :: readWords (addr + 4) words

def writeWords (addr : Word) : List Word → List (CacheStep σ)
  | [] => []
  | data :: rest => .call (.writeWord addr data) :: writeWords (addr + 4) rest

def steps : CacheOp σ → List (CacheStep σ)
  | .step s => [s]
  | .readBlock addr words => readWords addr words
  | .writeBlock addr data => writeWords addr data

end CacheOp

namespace Level
variable {g : Geometry} {σ : Type} [MemoryInterface σ] {lv : Level g (Option σ)}

omit [MemoryInterface σ] in
/-- What is done depends on whether there is a next level. -/
def either (lv : Level g (Option σ)) (connected : Level g σ → Level g σ)
    (alone : Cache g → Cache g) : Level g (Option σ) :=
  match lv.memory with
  | some memory =>
    let lv' := connected ⟨lv.cache, memory⟩
    ⟨lv'.cache, some lv'.memory⟩
  | none => ⟨alone lv.cache, none⟩

def step (lv : Level g (Option σ)) : CacheStep σ → Level g (Option σ)
  | .call c => Counting.call lv c
  | .invalidate addr => lv.mapCache (·.invalidate addr)
  | .invalidateAll => lv.mapCache (·.invalidateAll)
  | .flush addr => lv.either (·.flush addr) (·.flushAlone addr)
  | .flushRange startAddr size =>
    lv.either (·.flushRange startAddr size) (·.flushRangeAlone startAddr size)

def apply (lv : Level g (Option σ)) : CacheOp σ → Level g (Option σ)
  | .step s => lv.step s
  | .readBlock addr words =>
    lv.either (fun lv => (lv.readBlock addr words).2) (·.readBlockAlone addr words)
  | .writeBlock addr data => lv.either (·.writeBlock addr data) (·.writeBlockAlone addr data)

theorem readBlock_steps (lv : Level g (Option σ)) (addr : Word) (words : Nat) :
    lv.apply (.readBlock addr words) = (CacheOp.readWords addr words).foldl step lv := by
  induction words generalizing lv addr with
  | zero =>
    obtain ⟨cache, memory⟩ := lv
    cases memory <;> rfl
  | succ words ih =>
    rw [CacheOp.readWords, List.foldl_cons, ← ih]
    obtain ⟨cache, memory⟩ := lv
    cases memory <;> rfl

theorem writeBlock_steps (lv : Level g (Option σ)) (addr : Word) (data : List Word) :
    lv.apply (.writeBlock addr data) = (CacheOp.writeWords addr data).foldl step lv := by
  induction data generalizing lv addr with
  | nil =>
    obtain ⟨cache, memory⟩ := lv
    cases memory <;> rfl
  | cons word rest ih =>
    rw [CacheOp.writeWords, List.foldl_cons, ← ih]
    obtain ⟨cache, memory⟩ := lv
    cases memory <;> rfl

/-- An operation is its steps. -/
theorem apply_steps (lv : Level g (Option σ)) (op : CacheOp σ) :
    lv.apply op = op.steps.foldl step lv := by
  cases op with
  | step s => rfl
  | readBlock addr words => exact lv.readBlock_steps addr words
  | writeBlock addr data => exact lv.writeBlock_steps addr data

theorem apply_run (lv : Level g (Option σ)) (ops : List (CacheOp σ)) :
    ops.foldl apply lv = (ops.flatMap CacheOp.steps).foldl step lv := by
  rw [List.foldl_flatMap]
  simp only [← apply_steps]

end Level

/-! ## What is recorded along a run -/

/-- The lines read or written, the last one at the end, and for each way the address that
its block was loaded from. -/
structure Log (g : Geometry) where
  used : List (Fin g.numSets × Word)
  loads : Fin g.numSets → Fin g.ways → Word

namespace Log
variable {g : Geometry} {σ : Type}

def empty (g : Geometry) : Log g := ⟨[], fun _ _ => 0⟩

/-- A read or write around the cache. -/
def pass (log : Log g) (a : Word) : Log g := { log with used := log.used ++ [g.lineOf a] }

/-- A read or write of a line that the cache has, or that it loads. -/
def access (log : Log g) (c : Cache g) (a : Word) : Log g where
  used := log.used ++ [g.lineOf a]
  loads := match c.findEntry a with
    | some _ => log.loads
    | none =>
      let s := g.setOf a
      let w := (c.allocateAlone s (g.getTag a)).1
      Function.update log.loads s (Function.update (log.loads s) w (g.getBlockAddress a))

def call (log : Log g) (lv : Level g (Option σ)) : CacheCall σ → Log g
  | .read physAddr _ | .readWord physAddr | .writeWord physAddr _ => log.access lv.cache physAddr
  | .write addr physAddr _ _ =>
    match writeThroughAddr addr physAddr with
    | some writeAddr => log.pass writeAddr
    | none => log.access lv.cache physAddr
  | .atomic physAddr readAddr writeAddr op _ =>
    match lv.memory with
    | some _ => log.pass physAddr
    | none =>
      let (result, c) := lv.cache.readWordAlone readAddr
      let log := log.access lv.cache readAddr
      if (op result).isSome then log.access c writeAddr else log
  | .setMemoryInterface _ => log

def step (log : Log g) (lv : Level g (Option σ)) : CacheStep σ → Log g
  | .call c => log.call lv c
  | .invalidate _ | .invalidateAll | .flush _ | .flushRange _ _ => log

end Log

namespace Level
variable {g : Geometry} {σ : Type} [MemoryInterface σ]

/-- A run with its log. -/
def recorded (lv : Level g (Option σ)) (steps : List (CacheStep σ)) :
    Level g (Option σ) × Log g :=
  steps.foldl (fun r s => (r.1.step s, r.2.step r.1 s)) (lv, Log.empty g)

theorem recorded_level (lv : Level g (Option σ)) (steps : List (CacheStep σ)) :
    (lv.recorded steps).1 = steps.foldl step lv := by
  unfold recorded
  exact (List.foldl_hom Prod.fst fun _ _ => rfl).symm

end Level

/-! ## The lines in the ways -/

namespace Cache
variable {g : Geometry} {c c' : Cache g} {s : Fin g.numSets} {w : Fin g.ways} {a : Word}
  {log : Log g}

/-- The line that a way holds. -/
def lineIn (c : Cache g) (s : Fin g.numSets) (w : Fin g.ways) : Option (Fin g.numSets × Word) :=
  if (c.cacheEntries s w).valid then some (s, (c.cacheEntries s w).tag) else none

theorem lineIn_eq_some {l : Fin g.numSets × Word} : c.lineIn s w = some l ↔
    (c.cacheEntries s w).valid = true ∧ (s, (c.cacheEntries s w).tag) = l := by
  unfold lineIn
  split <;> simp_all

theorem lineIn_set {l : Fin g.numSets × Word} (h : c.lineIn s w = some l) : l.1 = s :=
  congrArg Prod.fst (lineIn_eq_some.mp h).2.symm

theorem lineIn_setEntry (c : Cache g) (s s' : Fin g.numSets) (w w' : Fin g.ways)
    (e : CacheEntry) : (c.setEntry s w e).lineIn s' w' =
      if s' = s ∧ w' = w then (if e.valid then some (s, e.tag) else none) else c.lineIn s' w' := by
  unfold lineIn
  rw [setEntry_apply]
  split
  · next h => rw [h.1]
  · rfl

theorem lineIn_congr (h : c'.cacheEntries = c.cacheEntries) : c'.lineIn = c.lineIn := by
  unfold lineIn
  rw [h]

theorem lineIn_of_findEntry (h : c.findEntry a = some w) :
    c.lineIn (g.setOf a) w = some (g.lineOf a) := by
  obtain ⟨hvalid, htag⟩ := lookup_valid h
  exact lineIn_eq_some.mpr ⟨hvalid, Prod.ext rfl htag⟩

theorem lineIn_of_miss (h : c.findEntry a = none) (s : Fin g.numSets) (w : Fin g.ways) :
    c.lineIn s w ≠ some (g.lineOf a) := by
  intro hline
  obtain rfl := lineIn_set hline
  obtain ⟨hvalid, hl⟩ := lineIn_eq_some.mp hline
  exact lookup_eq_none_iff.mp h w hvalid (congrArg Prod.snd hl)

/-- Between operations. -/
structure InOrder (log : Log g) (c : Cache g) : Prop where
  perm : ∀ s, (c.lruLists s).Perm (List.finRange g.ways)
  unique : ∀ s j k, c.lineIn s j = c.lineIn s k → (c.lineIn s j).isSome → j = k
  recent : ∀ s, ByUse log.used (c.lineIn s) (c.lruLists s)
  loaded : ∀ s w l, c.lineIn s w = some l → log.loads s w = g.blockAddressOf l.1 l.2

theorem InOrder.init (g : Geometry) (numCores : Nat) : (init g numCores).InOrder (.empty g) where
  perm _ := List.Perm.refl _
  unique s j k _ hsome := by cases hsome
  recent _ := ByUse.of_empty (fun _ => rfl) _
  loaded s w l hl := by cases hl

theorem InOrder.nodup (h : c.InOrder log) (s : Fin g.numSets) : (c.lruLists s).Nodup :=
  (h.perm s).nodup_iff.mpr (List.nodup_finRange _)

theorem InOrder.mem (h : c.InOrder log) (s : Fin g.numSets) (w : Fin g.ways) :
    w ∈ c.lruLists s :=
  (h.perm s).mem_iff.mpr (List.mem_finRange w)

/-! ### Operations that load nothing -/

/-- The order stays, and every way keeps its line or is freed. -/
structure Keeps (c c' : Cache g) : Prop where
  order : c'.lruLists = c.lruLists
  lines : ∀ s w, c'.lineIn s w = c.lineIn s w ∨ c'.lineIn s w = none

theorem Keeps.refl (c : Cache g) : c.Keeps c := ⟨rfl, fun _ _ => .inl rfl⟩

theorem Keeps.trans {c₁ c₂ : Cache g} (h : c.Keeps c₁) (h' : c₁.Keeps c₂) : c.Keeps c₂ where
  order := h'.order.trans h.order
  lines s w := (h'.lines s w).elim
    (fun heq => (h.lines s w).imp heq.trans heq.trans) .inr

theorem Keeps.of_eq (horder : c'.lruLists = c.lruLists)
    (hentries : c'.cacheEntries = c.cacheEntries) : c.Keeps c' :=
  ⟨horder, fun s w => .inl (by rw [lineIn_congr hentries])⟩

theorem Keeps.setEntry {e : CacheEntry}
    (he : e.valid = true → (c.cacheEntries s w).valid = true ∧ (c.cacheEntries s w).tag = e.tag) :
    c.Keeps (c.setEntry s w e) where
  order := rfl
  lines s' w' := by
    rw [lineIn_setEntry]
    split
    · next hsw =>
      split
      · next hvalid =>
        left
        rw [hsw.1, hsw.2]
        exact (lineIn_eq_some.mpr ⟨(he hvalid).1, by rw [(he hvalid).2]⟩).symm
      · exact .inr rfl
    · exact .inl rfl

theorem Keeps.sub (h : c.Keeps c') {l : Fin g.numSets × Word} (hl : c'.lineIn s w = some l) :
    c.lineIn s w = some l := by
  rcases h.lines s w with heq | hnone
  · exact heq ▸ hl
  · rw [hnone] at hl
    cases hl

theorem InOrder.keeps (h : c.InOrder log) (hk : c.Keeps c') : c'.InOrder log where
  perm s := hk.order ▸ h.perm s
  unique s j k heq hsome := by
    obtain ⟨l, hl⟩ := Option.isSome_iff_exists.mp hsome
    have hj := hk.sub hl
    have hk := hk.sub (heq ▸ hl)
    exact h.unique s j k (hj.trans hk.symm) (hj ▸ rfl)
  recent s := hk.order ▸ (h.recent s).free fun _ _ => hk.sub
  loaded s w l hl := h.loaded s w l (hk.sub hl)

/-- The line is read or written around the cache. -/
theorem InOrder.pass (h : c.InOrder log) (hno : ∀ s w, c.lineIn s w ≠ some (g.lineOf a)) :
    c.InOrder (log.pass a) where
  perm := h.perm
  unique := h.unique
  recent s := (h.recent s).pass (hno s)
  loaded := h.loaded

theorem Keeps.updateLru (h : c.Keeps c') (s : Fin g.numSets) (w : Fin g.ways) :
    (c.updateLru s w).Keeps (c'.updateLru s w) where
  order := by
    unfold Cache.updateLru
    rw [h.order]
  lines := h.lines

theorem setWordAlone_keeps (c : Cache g) (physAddr data : Word) (w : Fin g.ways) (mark : Bool) :
    c.Keeps (c.setWordAlone physAddr data w mark) :=
  Keeps.setEntry fun hvalid => ⟨hvalid, rfl⟩

theorem invalidate_keeps (c : Cache g) (a : Word) : c.Keeps (c.invalidate a) := by
  unfold invalidate
  split
  · exact Keeps.setEntry fun hvalid => by cases hvalid
  · exact Keeps.refl c

theorem flushWayAlone_keeps (c : Cache g) (s : Fin g.numSets) (w : Fin g.ways) :
    c.Keeps (c.flushWayAlone s w) := by
  unfold flushWayAlone
  split
  · exact Keeps.setEntry fun hvalid => ⟨hvalid, rfl⟩
  · exact Keeps.refl c

theorem flushAlone_keeps (c : Cache g) (a : Word) : c.Keeps (c.flushAlone a) := by
  unfold flushAlone
  split
  · exact c.flushWayAlone_keeps _ _
  · exact Keeps.refl c

theorem flushRangeAlone_keeps (c : Cache g) (startAddr size : Word) :
    c.Keeps (c.flushRangeAlone startAddr size) := by
  unfold flushRangeAlone
  refine List.foldlRecOn _ _ (motive := c.Keeps) (Keeps.refl c) fun c₁ h₁ s _ => ?_
  refine List.foldlRecOn _ _ (motive := c.Keeps) h₁ fun c₂ h₂ w _ => ?_
  dsimp only
  split
  · split
    · exact h₂.trans (c₂.flushWayAlone_keeps s w)
    · exact h₂
  · exact h₂

/-- Nothing holds a line that has been dropped. -/
theorem InOrder.lineIn_invalidate (h : c.InOrder log) (a : Word) (s : Fin g.numSets)
    (w : Fin g.ways) : (c.invalidate a).lineIn s w ≠ some (g.lineOf a) := by
  unfold invalidate
  cases hf : c.findEntry a with
  | none => exact lineIn_of_miss hf s w
  | some k =>
    intro hline
    simp only [lineIn_setEntry] at hline
    split at hline
    · cases hline
    · next hne =>
      obtain rfl := lineIn_set hline
      have hk := lineIn_of_findEntry hf
      exact hne ⟨rfl, h.unique _ w k (hline.trans hk.symm) (hline ▸ rfl)⟩

theorem invalidateAll_inOrder (c : Cache g) (log : Log g) : c.invalidateAll.InOrder log where
  perm _ := List.Perm.refl _
  unique s j k _ hsome := by cases hsome
  recent _ := ByUse.of_empty (fun _ => rfl) _
  loaded s w l hl := by cases hl

/-! ### Allocation -/

theorem evictAlone_cases (hlast : (c.lruLists s).getLast? = some w) :
    (c.evictAlone s).cacheEntries = (c.setEntry s w
        { c.cacheEntries s w with valid := false, dirty := false }).cacheEntries ∧
      (c.evictAlone s).lruLists = Function.update c.lruLists s (c.lruLists s).dropLast := by
  unfold evictAlone
  rw [hlast]
  dsimp only
  split <;> exact ⟨rfl, rfl⟩

theorem evictAlone_findInvalid (hfull : c.findInvalid s = none)
    (hlast : (c.lruLists s).getLast? = some w) : (c.evictAlone s).findInvalid s = some w :=
  findInvalid_freed hfull rfl (evictAlone_cases hlast).1

/-- The way that gets the tag was free or the last of a full set; the others are as before,
also in the order. -/
theorem InOrder.allocateAlone_spec (h : c.InOrder log) (s : Fin g.numSets) (tag : Word) :
    ∃ w, (c.allocateAlone s tag).1 = w ∧
      (∀ s' j, (c.allocateAlone s tag).2.lineIn s' j =
        if s' = s ∧ j = w then some (s, tag) else c.lineIn s' j) ∧
      (((c.allocateAlone s tag).2.updateLru s w).lruLists =
        Function.update c.lruLists s (w :: (c.lruLists s).filter (· != w))) := by
  cases hfree : c.findInvalid s with
  | some w =>
    have halloc : c.allocateAlone s tag = (w, c.claimAlone s w tag) := by
      unfold allocateAlone
      rw [hfree]
    rw [halloc]
    refine ⟨w, rfl, fun s' j => ?_, rfl⟩
    exact c.lineIn_setEntry s s' w j _
  | none =>
    obtain ⟨w, hlast⟩ := exists_last (h.perm s) g.ways_pos
    obtain ⟨hentries, horder⟩ := evictAlone_cases hlast
    have halloc : c.allocateAlone s tag = (w, (c.evictAlone s).claimAlone s w tag) := by
      unfold allocateAlone
      rw [hfree]
      dsimp only
      rw [evictAlone_findInvalid hfree hlast]
    rw [halloc]
    refine ⟨w, rfl, fun s' j => ?_, ?_⟩
    · show ((c.evictAlone s).setEntry s w _).lineIn s' j = _
      rw [lineIn_setEntry, lineIn_congr hentries, lineIn_setEntry]
      split
      · rfl
      · rfl
    · show Function.update (c.evictAlone s).lruLists s
        (w :: ((c.evictAlone s).lruLists s).filter (· != w)) = _
      rw [horder, Function.update_self, Function.update_idem,
        dropLast_eq_filter (h.nodup s) hlast, List.filter_filter]
      simp only [Bool.and_self]

/-! ### Accesses -/

/-- The line of an address is read or written in a way that holds it afterwards. -/
theorem InOrder.use (h : c.InOrder log) {loads : Fin g.numSets → Fin g.ways → Word}
    (horder : c'.lruLists = Function.update c.lruLists (g.setOf a)
      (w :: (c.lruLists (g.setOf a)).filter (· != w)))
    (hline : ∀ s j, c'.lineIn s j =
      if s = g.setOf a ∧ j = w then some (g.lineOf a) else c.lineIn s j)
    (hnew : ∀ j, j ≠ w → c.lineIn (g.setOf a) j ≠ some (g.lineOf a))
    (hloads : ∀ s j, loads s j =
      if s = g.setOf a ∧ j = w then g.getBlockAddress a else log.loads s j) :
    c'.InOrder ⟨log.used ++ [g.lineOf a], loads⟩ where
  perm s := by
    rw [horder]
    by_cases hs : s = g.setOf a
    · rw [hs, Function.update_self]
      exact front_perm (h.nodup _) fun j _ => h.mem _ j
    · rw [Function.update_of_ne hs]
      exact h.perm s
  unique s j k heq hsome := by
    rw [hline, hline] at heq
    rw [hline] at hsome
    by_cases hj : s = g.setOf a ∧ j = w
    · by_cases hk : s = g.setOf a ∧ k = w
      · exact hj.2.trans hk.2.symm
      · rw [if_pos hj, if_neg hk, hj.1] at heq
        exact absurd heq.symm (hnew k fun hkw => hk ⟨hj.1, hkw⟩)
    · rw [if_neg hj] at heq hsome
      by_cases hk : s = g.setOf a ∧ k = w
      · rw [if_pos hk, hk.1] at heq
        exact absurd heq (hnew j fun hjw => hj ⟨hk.1, hjw⟩)
      · rw [if_neg hk] at heq
        exact h.unique s j k heq hsome
  recent s := by
    rw [horder]
    by_cases hs : s = g.setOf a
    · rw [hs, Function.update_self]
      refine (h.recent _).use ?_ (fun j hj => ?_) hnew
      · rw [hline, if_pos ⟨rfl, rfl⟩]
      · rw [hline, if_neg fun hand => hj hand.2]
    · rw [Function.update_of_ne hs]
      have hsame : c'.lineIn s = c.lineIn s := funext fun j => by
        rw [hline, if_neg fun hand => hs hand.1]
      rw [hsame]
      exact (h.recent s).pass fun j hj => hs (lineIn_set hj).symm
  loaded s j l hl := by
    rw [hline] at hl
    show loads s j = _
    rw [hloads]
    split at hl
    · next hand =>
      obtain rfl := Option.some.inj hl
      rw [if_pos hand]
      exact (g.blockAddressOf_lineOf a).symm
    · next hand =>
      rw [if_neg hand]
      exact h.loaded s j l hl

theorem InOrder.hit (h : c.InOrder log) (hw : c.findEntry a = some w) :
    (c.updateLru (g.setOf a) w).InOrder (log.access c a) := by
  have hline := lineIn_of_findEntry hw
  have hlog : log.access c a = ⟨log.used ++ [g.lineOf a], log.loads⟩ := by
    unfold Log.access
    rw [hw]
  rw [hlog]
  refine h.use rfl (fun s j => ?_) (fun j hj hl => ?_) fun s j => ?_
  · show c.lineIn s j = _
    split
    · next hand => rw [hand.1, hand.2, hline]
    · rfl
  · exact hj (h.unique _ j w (hl.trans hline.symm) (hl ▸ rfl))
  · split
    · next hand =>
      rw [hand.1, hand.2, h.loaded _ _ _ hline]
      exact g.blockAddressOf_lineOf a
    · rfl

/-- Counting does not change what is allocated. -/
theorem allocateAlone_mapStats (c : Cache g) (f : CacheStats → CacheStats) (s : Fin g.numSets)
    (tag : Word) : ((c.mapStats f).allocateAlone s tag).1 = (c.allocateAlone s tag).1 := by
  have hevict : ((c.mapStats f).evictAlone s).cacheEntries = (c.evictAlone s).cacheEntries := by
    cases hlast : (c.lruLists s).getLast? with
    | some w =>
      have hlast₀ : ((c.mapStats f).lruLists s).getLast? = some w := hlast
      rw [(evictAlone_cases hlast₀).1, (evictAlone_cases hlast).1]
      rfl
    | none =>
      simp only [evictAlone, mapStats_lruLists, hlast, mapStats_cacheEntries]
  have hfind : ((c.mapStats f).evictAlone s).findInvalid s = (c.evictAlone s).findInvalid s := by
    unfold findInvalid
    rw [hevict]
  have hfree : (c.mapStats f).findInvalid s = c.findInvalid s := rfl
  unfold allocateAlone
  rw [hfree]
  cases c.findInvalid s with
  | some w => rfl
  | none =>
    dsimp only
    rw [hfind]
    cases (c.evictAlone s).findInvalid s <;> rfl

theorem InOrder.miss (h : c.InOrder log) (hmiss : c.findEntry a = none)
    (f : CacheStats → CacheStats) {r : Fin g.ways × Cache g}
    (hr : (c.mapStats f).allocateAlone (g.setOf a) (g.getTag a) = r) :
    (r.2.updateLru (g.setOf a) r.1).InOrder (log.access c a) := by
  have h₀ : (c.mapStats f).InOrder log := h.keeps (.of_eq rfl rfl)
  obtain ⟨w, hw, hlines, horder⟩ := h₀.allocateAlone_spec (g.setOf a) (g.getTag a)
  have hlog : log.access c a = ⟨log.used ++ [g.lineOf a], Function.update log.loads (g.setOf a)
      (Function.update (log.loads (g.setOf a)) w (g.getBlockAddress a))⟩ := by
    unfold Log.access
    rw [hmiss]
    dsimp only
    rw [← c.allocateAlone_mapStats f, hw]
  rw [← hr, hw, hlog]
  refine h₀.use horder (fun s j => ?_) (fun j _ => lineIn_of_miss hmiss _ j) fun s j => ?_
  · exact hlines s j
  · rw [Function.update_apply]
    by_cases hs : s = g.setOf a
    · rw [if_pos hs, Function.update_apply, hs]
      simp only [true_and]
    · rw [if_neg hs, if_neg fun hand => hs hand.1]

theorem InOrder.accessAlone (h : c.InOrder log) (a : Word) (coreId : Nat) :
    (c.accessAlone a coreId).2.InOrder (log.access c a) := by
  unfold Cache.accessAlone
  cases hf : c.findEntry a with
  | some w => exact (h.hit hf).keeps (.of_eq rfl rfl)
  | none => exact h.miss hf _ rfl

/-- A store that is written through. -/
theorem InOrder.through (h : c.InOrder log) (a data : Word) :
    (match c.findEntry a with
      | some w => (c.setWordAlone a data w false).invalidate a
      | none => c).InOrder (log.pass a) := by
  cases hf : c.findEntry a with
  | some w =>
    have hset := h.keeps (c.setWordAlone_keeps a data w false)
    exact (hset.keeps (invalidate_keeps _ a)).pass (hset.lineIn_invalidate a)
  | none => exact h.pass (lineIn_of_miss hf)

theorem InOrder.writeAlone (h : c.InOrder log) (addr physAddr data : Word) (coreId : Nat) :
    (c.writeAlone addr physAddr data coreId).InOrder
      (match writeThroughAddr addr physAddr with
        | some writeAddr => log.pass writeAddr
        | none => log.access c physAddr) := by
  unfold Cache.writeAlone
  cases writeThroughAddr addr physAddr with
  | some writeAddr => exact (h.through writeAddr data).keeps (.of_eq rfl rfl)
  | none => exact (h.accessAlone physAddr coreId).keeps (setWordAlone_keeps _ _ _ _ _)

theorem InOrder.writeWordAlone (h : c.InOrder log) (a data : Word) :
    (c.writeWordAlone a data).InOrder (log.access c a) :=
  (h.accessAlone a 0).keeps (setWordAlone_keeps _ _ _ _ _)

end Cache

/-! ## The same over a next level -/

namespace Level
variable {g : Geometry} {σ : Type} [MemoryInterface σ] {lv : Level g σ} {log : Log g}

theorem loadBlock_keeps (lv : Level g σ) (a : Word) (s : Fin g.numSets) (w : Fin g.ways) :
    lv.cache.Keeps (lv.loadBlock a s w).cache :=
  Cache.Keeps.setEntry fun hvalid => ⟨hvalid, rfl⟩

theorem access_inOrder (lv : Level g σ) (h : lv.cache.InOrder log) (a : Word) (coreId : Nat) :
    (lv.access a coreId).2.2.cache.InOrder (log.access lv.cache a) := by
  unfold access
  cases hf : lv.cache.findEntry a with
  | some w => exact (h.hit hf).keeps (.of_eq rfl rfl)
  | none =>
    let lv₀ := lv.mapCache (·.mapStats (·.miss g.toCacheConfig coreId))
    have hmiss := h.miss hf (·.miss g.toCacheConfig coreId)
      (lv₀.allocateEntry_cache (g.setOf a) (g.getTag a)).symm
    exact hmiss.keeps ((loadBlock_keeps _ a _ _).updateLru _ _)

theorem write_inOrder (lv : Level g σ) (h : lv.cache.InOrder log) (addr physAddr data : Word)
    (coreId : Nat) :
    (lv.write addr physAddr data coreId).2.cache.InOrder
      (match writeThroughAddr addr physAddr with
        | some writeAddr => log.pass writeAddr
        | none => log.access lv.cache physAddr) := by
  unfold write
  cases writeThroughAddr addr physAddr with
  | some writeAddr =>
    have hthrough := h.through writeAddr data
    dsimp only
    cases hf : lv.cache.findEntry writeAddr with
    | some w =>
      rw [hf] at hthrough
      exact hthrough.keeps (.of_eq rfl rfl)
    | none =>
      rw [hf] at hthrough
      exact hthrough.keeps (.of_eq rfl rfl)
  | none =>
    exact (access_inOrder lv h physAddr coreId).keeps (Cache.setWordAlone_keeps _ _ _ _ _)

theorem writeWord_inOrder (lv : Level g σ) (h : lv.cache.InOrder log) (a data : Word) :
    (lv.writeWord a data).cache.InOrder (log.access lv.cache a) := by
  unfold writeWord
  dsimp only
  split <;> exact (access_inOrder lv h a 0).keeps (Cache.setWordAlone_keeps _ _ _ _ _)

theorem atomicUpdate_inOrder (lv : Level g σ) (h : lv.cache.InOrder log) (a : Word)
    (op : Word → Option Word) (coreId : Nat) :
    (lv.atomicUpdate a op coreId).2.cache.InOrder (log.pass a) := by
  have hdropped := (h.keeps (Cache.invalidate_keeps _ a)).pass (h.lineIn_invalidate a)
  exact hdropped.keeps (.of_eq rfl rfl)

theorem flushWay_keeps (lv : Level g σ) (s : Fin g.numSets) (w : Fin g.ways) :
    lv.cache.Keeps (lv.flushWay s w).cache := by
  unfold flushWay
  split
  · exact Cache.Keeps.setEntry fun hvalid => ⟨hvalid, rfl⟩
  · exact Cache.Keeps.refl _

theorem flush_keeps (lv : Level g σ) (a : Word) : lv.cache.Keeps (lv.flush a).cache := by
  unfold flush
  split
  · exact lv.flushWay_keeps _ _
  · exact Cache.Keeps.refl _

theorem flushRange_keeps (lv : Level g σ) (startAddr size : Word) :
    lv.cache.Keeps (lv.flushRange startAddr size).cache := by
  unfold flushRange
  refine List.foldlRecOn _ _ (motive := fun lv' : Level g σ => lv.cache.Keeps lv'.cache)
    (Cache.Keeps.refl _) fun lv₁ h₁ s _ => ?_
  refine List.foldlRecOn _ _ (motive := fun lv' : Level g σ => lv.cache.Keeps lv'.cache)
    h₁ fun lv₂ h₂ w _ => ?_
  dsimp only
  split
  · split
    · exact h₂.trans (lv₂.flushWay_keeps s w)
    · exact h₂
  · exact h₂

/-! ## Runs -/

section
variable {lv : Level g (Option σ)}

theorem call_inOrder (h : lv.cache.InOrder log) (c : CacheCall σ) :
    (Counting.call lv c).cache.InOrder (log.call lv c) := by
  obtain ⟨cache, memory⟩ := lv
  cases c with
  | setMemoryInterface memory' => exact h
  | read physAddr coreId =>
    cases memory with
    | some memory => exact access_inOrder ⟨cache, memory⟩ h physAddr coreId
    | none => exact h.accessAlone physAddr coreId
  | readWord physAddr =>
    cases memory with
    | some memory => exact access_inOrder ⟨cache, memory⟩ h physAddr 0
    | none => exact h.accessAlone physAddr 0
  | write addr physAddr data coreId =>
    cases memory with
    | some memory => exact write_inOrder ⟨cache, memory⟩ h addr physAddr data coreId
    | none => exact h.writeAlone addr physAddr data coreId
  | writeWord physAddr data =>
    cases memory with
    | some memory => exact writeWord_inOrder ⟨cache, memory⟩ h physAddr data
    | none => exact h.writeWordAlone physAddr data
  | atomic physAddr readAddr writeAddr op coreId =>
    cases memory with
    | some memory => exact atomicUpdate_inOrder ⟨cache, memory⟩ h physAddr op coreId
    | none =>
      have hread := h.accessAlone readAddr 0
      show (cache.atomicAlone readAddr writeAddr op).2.InOrder _
      unfold Cache.atomicAlone Log.call
      dsimp only
      cases op (cache.readWordAlone readAddr).1 with
      | some v => exact hread.writeWordAlone writeAddr v
      | none => exact hread

theorem step_inOrder (h : lv.cache.InOrder log) (s : CacheStep σ) :
    (lv.step s).cache.InOrder (log.step lv s) := by
  have heither : ∀ (connected : Level g σ → Level g σ) (alone : Cache g → Cache g),
      (∀ lv' : Level g σ, lv'.cache.Keeps (connected lv').cache) →
      (∀ c : Cache g, c.Keeps (alone c)) → (lv.either connected alone).cache.InOrder log := by
    intro connected alone hconnected halone
    unfold either
    cases lv.memory with
    | some memory => exact h.keeps (hconnected ⟨lv.cache, memory⟩)
    | none => exact h.keeps (halone lv.cache)
  cases s with
  | call c => exact call_inOrder h c
  | invalidate addr => exact h.keeps (Cache.invalidate_keeps _ addr)
  | invalidateAll => exact Cache.invalidateAll_inOrder _ log
  | flush addr => exact heither _ _ (flush_keeps · addr) (Cache.flushAlone_keeps · addr)
  | flushRange startAddr size =>
    exact heither _ _ (flushRange_keeps · startAddr size)
      (Cache.flushRangeAlone_keeps · startAddr size)

theorem recorded_inOrder (numCores : Nat) (memory : Option σ) (steps : List (CacheStep σ)) :
    let r := (⟨Cache.init g numCores, memory⟩ : Level g (Option σ)).recorded steps
    r.1.cache.InOrder r.2 :=
  List.foldlRecOn steps _
    (motive := fun r : Level g (Option σ) × Log g => r.1.cache.InOrder r.2)
    (Cache.InOrder.init g numCores) fun _ h s _ => step_inOrder h s

end

/-! ## What a full set gives up -/

/-- The line of the way was used least recently; the other ways stay, and if it is dirty
it goes to the address that it was loaded from. -/
structure GivesUp (log : Log g) (lv : Level g σ) (s : Fin g.numSets) (w : Fin g.ways) : Prop where
  found : (lv.evictLruEntry s).cache.findInvalid s = some w
  oldest : ∀ j, j ≠ w → UsedSince log.used (s, (lv.cache.cacheEntries s j).tag)
    (s, (lv.cache.cacheEntries s w).tag)
  others : ∀ s' j, ¬(s' = s ∧ j = w) →
    (lv.evictLruEntry s).cache.cacheEntries s' j = lv.cache.cacheEntries s' j
  writtenBack : (lv.evictLruEntry s).memory =
    if (lv.cache.cacheEntries s w).dirty then
      MemoryInterface.writeBlock lv.memory (log.loads s w)
        ((List.range g.wordsPerBlock).map (lv.cache.cacheEntries s w).data)
    else lv.memory

theorem givesUp (lv : Level g σ) (h : lv.cache.InOrder log) {s : Fin g.numSets} {w : Fin g.ways}
    (hfull : lv.cache.findInvalid s = none) (hlast : (lv.cache.lruLists s).getLast? = some w) :
    lv.GivesUp log s w := by
  have hline : ∀ j, lv.cache.lineIn s j = some (s, (lv.cache.cacheEntries s j).tag) := fun j =>
    Cache.lineIn_eq_some.mpr ⟨Cache.valid_of_findInvalid hfull j, rfl⟩
  refine ⟨?_, fun j hj => ?_, fun s' j hne => ?_, ?_⟩
  · rw [evictLruEntry_cache]
    exact Cache.evictAlone_findInvalid hfull hlast
  · exact (h.recent s).last hlast (h.mem s j) hj (hline j) (hline w)
  · rw [evictLruEntry_cache, (Cache.evictAlone_cases hlast).1, Cache.setEntry_apply, if_neg hne]
  · rw [h.loaded s w _ (hline w)]
    unfold evictLruEntry
    rw [hlast]
    dsimp only
    split <;> rfl

/-- At any point of any run: no tag twice in a set, and the order lists every way once. A
full set gives up a way, the one used least recently. The operations are their steps. -/
theorem cache_order (g : Geometry) (numCores : Nat) (memory : Option σ) (ops : List (CacheOp σ))
    (n : Nat) :
    let start : Level g (Option σ) := ⟨Cache.init g numCores, memory⟩
    let steps := ops.flatMap CacheOp.steps
    let c := (start.recorded (steps.take n)).1.cache
    let log := (start.recorded (steps.take n)).2
    (start.recorded steps).1 = ops.foldl apply start ∧
      (∀ s j k, (c.cacheEntries s j).valid = true → (c.cacheEntries s k).valid = true →
        (c.cacheEntries s j).tag = (c.cacheEntries s k).tag → j = k) ∧
      (∀ s, (c.lruLists s).Perm (List.finRange g.ways)) ∧
      ∀ s, c.findInvalid s = none → ∃ w, (c.evictAlone s).findInvalid s = some w ∧
        ∀ memory : σ, GivesUp log ⟨c, memory⟩ s w := by
  intro start steps c log
  have h : c.InOrder log := recorded_inOrder numCores memory _
  refine ⟨?_, fun s j k hj hk htag => ?_, h.perm, fun s hfull => ?_⟩
  · rw [recorded_level, apply_run]
  · have hline : c.lineIn s j = some (s, (c.cacheEntries s k).tag) :=
      Cache.lineIn_eq_some.mpr ⟨hj, by rw [htag]⟩
    exact h.unique s j k (hline.trans (Cache.lineIn_eq_some.mpr ⟨hk, rfl⟩).symm) (hline ▸ rfl)
  · obtain ⟨w, hlast⟩ := exists_last (h.perm s) g.ways_pos
    exact ⟨w, Cache.evictAlone_findInvalid hfull hlast, fun memory =>
      givesUp ⟨c, memory⟩ h hfull hlast⟩

end Level
end RiscvEmulator.Memory
