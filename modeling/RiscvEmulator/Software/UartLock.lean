import RiscvEmulator.Memory.Coherence

/-! # The UART spinlock

`uart_lock` and `uart_unlock` of `uart.c` run by any number of cores over the
hierarchy, between arbitrary fetches and word loads and stores of each core to
other words. Accesses that are not cached do not reach the hierarchy. The swap
goes around the L1 and the releasing store is written through, so the lock lives
in the L2, as long as no L1 ever writes its line back. -/
namespace RiscvEmulator.Software
open Memory Lib.LineCache

/-- `uart_mutex`. -/
def lockAddr : Word := 0x82010
def lockWord : WordAddr := wordOf lockAddr

/-- Where a core is: in `locking` it spins in `uart_lock`, in `unlocking` it has
called `uart_unlock` and not stored yet. -/
inductive Phase where
  | outside | locking | critical | unlocking
deriving DecidableEq, Repr

structure LockState (N : Nat) where
  hierarchy : Hierarchy N
  phase : Fin N → Phase

inductive LockEvent (N : Nat) where
  /-- A fetch, or a cached load or store of a word other than the lock. -/
  | access (op : MemOp N)
  /-- Call of `uart_lock`. -/
  | lock (i : Fin N)
  /-- The `amoswap.w` of its loop; the loop ends when the old value is 0. -/
  | swap (i : Fin N)
  /-- Call of `uart_unlock`. -/
  | unlock (i : Fin N)
  /-- Its store of 0. -/
  | release (i : Fin N)
deriving DecidableEq, Repr

/-- A store that reaches the lock's line without being written through: the
words of 0x82000-0x8203F outside 0x82008-0x8201F. -/
def NeighbourStore {N : Nat} : LockEvent N → Prop
  | .access (.store _ x _) =>
    l1Geometry.line x = l1Geometry.line lockWord ∧ ¬writesThrough x
  | _ => False

namespace LockState
variable {N : Nat}

/-- Whether an access keeps to cacheable words other than the lock. -/
def allowed : MemOp N → Bool
  | .fetch _ _ => true
  | .load _ x => hasDataCache (byteAddr x) && x != lockWord
  | .store _ x _ => hasDataCache (byteAddr x) && x != lockWord

def setPhase (s : LockState N) (i : Fin N) (p : Phase) : LockState N :=
  { s with phase := Function.update s.phase i p }

/-- One event, where the core is in the phase for it. -/
def step (s : LockState N) : LockEvent N → Option (LockState N)
  | .access op => if allowed op then some { s with hierarchy := s.hierarchy.exec op } else none
  | .lock i => if s.phase i = .outside then some (s.setPhase i .locking) else none
  | .swap i =>
    if s.phase i = .locking then
      let (expected, hierarchy) := s.hierarchy.atomic i lockAddr (.swap 1)
      let s := { s with hierarchy := hierarchy }
      some (if expected = 0 then s.setPhase i .critical else s)
    else none
  | .unlock i => if s.phase i = .critical then some (s.setPhase i .unlocking) else none
  | .release i =>
    if s.phase i = .unlocking then
      some { hierarchy := s.hierarchy.store i lockAddr lockAddr 0
             phase := Function.update s.phase i .outside }
    else none

def run (s : LockState N) (events : List (LockEvent N)) : Option (LockState N) :=
  events.foldlM step s

/-- All cores outside, all caches empty. -/
def init (N : Nat) (ddr : DDRMemory) : LockState N where
  hierarchy := .init N ddr
  phase _ := .outside

/-! ## Mutual exclusion -/

/-- Between the successful swap and the releasing store. -/
def Holds (s : LockState N) (i : Fin N) : Prop := s.phase i = .critical ∨ s.phase i = .unlocking

/-- The lock's line is in no L1 modified, at most one core holds the lock, and
while one does the L2 has a nonzero word there. -/
structure Safe (s : LockState N) : Prop where
  good : s.hierarchy.Good
  unmodified : s.hierarchy.shared.Unmodified (l1Geometry.line lockWord)
  unique : ∀ i j, s.Holds i → s.Holds j → i = j
  locked : ∀ i, s.Holds i → s.hierarchy.shared.memory lockWord ≠ 0

theorem init_safe (ddr : DDRMemory) : (init N ddr).Safe where
  good := Hierarchy.init_good ddr
  unmodified i := by
    simp [init, Hierarchy.shared, Hierarchy.init, Cache.init_lines, Lines.empty]
  unique i j h := by simp [Holds, init] at h
  locked i h := by simp [Holds, init] at h

theorem lockWord_lt : lockWord.toNat < 0x10000000 := by decide

theorem byteAddr_lockWord : byteAddr lockWord = lockAddr := byteAddr_wordOf (by decide)

/-- A fetch, load or store that is allowed and no neighbour store leaves the
lock's line unmodified and the lock as it is. -/
theorem access_keeps_lock {h : Hierarchy N} (hg : h.Good)
    (hu : h.shared.Unmodified (l1Geometry.line lockWord)) {op : MemOp N}
    (ha : allowed op = true) (hn : ¬NeighbourStore (.access op)) :
    (h.exec op).Good ∧ (h.exec op).shared.Unmodified (l1Geometry.line lockWord) ∧
      (h.exec op).shared.memory lockWord = h.shared.memory lockWord := by
  cases op with
  | fetch i addr =>
    obtain ⟨h1, h2⟩ := Hierarchy.fetch_spec hg i addr
    exact ⟨h1, by rwa [Hierarchy.exec, h2], by rw [Hierarchy.exec, h2]⟩
  | load i x =>
    obtain ⟨_, h1, t, ht, h2⟩ := Hierarchy.load_spec hg i x
    simp only [Hierarchy.exec, h2]
    exact ⟨h1, (hu.touch ht).1, (hu.touch ht).2 lockWord rfl⟩
  | store i x v =>
    obtain ⟨hc, hne⟩ : hasDataCache (byteAddr x) = true ∧ x ≠ lockWord := by
      simpa [allowed] using ha
    have hx : x.toNat < 0x10000000 := by
      have := hasDataCache_lt hc
      rw [byteAddr_toNat] at this
      omega
    by_cases hw : writesThrough x
    · obtain ⟨h1, h2⟩ := Hierarchy.store_through_spec hg i x v (writesThrough_addr hw) hx
      simp only [Hierarchy.exec, h2]
      refine ⟨h1, hu.through, ?_⟩
      exact Function.update_of_ne (Ne.symm hne) _ _
    · obtain ⟨h1, t, ht, h2⟩ := Hierarchy.store_spec hg i x v (not_not.mp hw) hx
      have hl : l1Geometry.line x ≠ l1Geometry.line lockWord := fun hl => hn ⟨hl, hw⟩
      simp only [Hierarchy.exec, h2]
      obtain ⟨h3, h4⟩ := hu.store (v := v) ht hl
      exact ⟨h1, h3, h4 lockWord rfl⟩

/-- Storing to the lock around the caches. -/
theorem through_lock {h h' : Hierarchy N} {i : Fin N} {v : Word}
    (hu : h.shared.Unmodified (l1Geometry.line lockWord))
    (hs : h'.shared = h.shared.set i ((h.shared.seenBy i).through l1Geometry.line lockWord v)) :
    h'.shared.Unmodified (l1Geometry.line lockWord) ∧ h'.shared.memory lockWord = v := by
  rw [hs]
  refine ⟨hu.through, ?_⟩
  rw [Shared.set_memory, through_memory, Function.update_self]

/-- One core changes its phase. If it holds the lock afterwards no other core
does, and while any core does the lock word is not 0. -/
theorem Safe.move {s : LockState N} {h : Hierarchy N} {i : Fin N} {p : Phase} (hs : s.Safe)
    (hg : h.Good) (hu : h.shared.Unmodified (l1Geometry.line lockWord))
    (halone : p = .critical ∨ p = .unlocking → ∀ j, j ≠ i → ¬s.Holds j)
    (hlock : (p = .critical ∨ p = .unlocking) ∨ (∃ j, j ≠ i ∧ s.Holds j) →
      h.shared.memory lockWord ≠ 0) :
    Safe ⟨h, Function.update s.phase i p⟩ := by
  have hholds : ∀ j, Holds ⟨h, Function.update s.phase i p⟩ j →
      (j = i ∧ (p = .critical ∨ p = .unlocking)) ∨ (j ≠ i ∧ s.Holds j) := by
    intro j hj
    by_cases hji : j = i
    · subst hji
      exact .inl ⟨rfl, by simpa [Holds] using hj⟩
    · exact .inr ⟨hji, by simpa [Holds, hji] using hj⟩
  refine ⟨hg, hu, ?_, ?_⟩
  · intro j k hj hk
    rcases hholds j hj with ⟨hji, hp⟩ | ⟨hji, hj⟩ <;> rcases hholds k hk with ⟨hki, hp'⟩ | ⟨hki, hk⟩
    · rw [hji, hki]
    · exact absurd hk (halone hp k hki)
    · exact absurd hj (halone hp' j hji)
    · exact hs.unique j k hj hk
  · intro j hj
    rcases hholds j hj with ⟨_, hp⟩ | ⟨hji, hj⟩
    · exact hlock (.inl hp)
    · exact hlock (.inr ⟨j, hji, hj⟩)

/-- Every event but a neighbour store keeps the lock safe. -/
theorem step_safe {s t : LockState N} (hs : s.Safe) {e : LockEvent N} (he : s.step e = some t)
    (hn : ¬NeighbourStore e) : t.Safe := by
  have hown : ∀ {i}, s.Holds i → ∀ j, j ≠ i → ¬s.Holds j :=
    fun hi j hji hj => hji (hs.unique _ _ hj hi)
  cases e with
  | access op =>
    simp only [step, Option.ite_none_right_eq_some, Option.some.injEq] at he
    obtain ⟨ha, rfl⟩ := he
    obtain ⟨h1, h2, h3⟩ := access_keeps_lock hs.good hs.unmodified ha hn
    exact ⟨h1, h2, hs.unique, fun i hi => by rw [h3]; exact hs.locked i hi⟩
  | lock i =>
    simp only [step, Option.ite_none_right_eq_some, Option.some.injEq] at he
    obtain ⟨_, rfl⟩ := he
    refine hs.move hs.good hs.unmodified (by simp) ?_
    rintro (hp | ⟨j, _, hj⟩)
    · simp at hp
    · exact hs.locked j hj
  | swap i =>
    simp only [step, Option.ite_none_right_eq_some, Option.some.injEq] at he
    obtain ⟨_, rfl⟩ := he
    obtain ⟨hr, hg, hsh⟩ := Hierarchy.atomic_spec hs.good i lockWord (.swap 1) lockWord_lt
    rw [byteAddr_lockWord] at hr hg hsh
    obtain ⟨hu, hm⟩ := through_lock hs.unmodified hsh
    have hm1 : (s.hierarchy.atomic i lockAddr (.swap 1)).2.shared.memory lockWord ≠ 0 := by
      rw [hm]
      exact (by decide : (1 : Word) ≠ 0)
    split
    · rename_i h0
      have hfree : ∀ j, ¬s.Holds j := fun j hj => hs.locked j hj (hr ▸ h0)
      exact hs.move hg hu (fun _ j _ => hfree j) fun _ => hm1
    · exact ⟨hg, hu, hs.unique, fun _ _ => hm1⟩
  | unlock i =>
    simp only [step, Option.ite_none_right_eq_some, Option.some.injEq] at he
    obtain ⟨hp, rfl⟩ := he
    exact hs.move hs.good hs.unmodified (fun _ => hown (.inl hp)) fun _ => hs.locked i (.inl hp)
  | release i =>
    simp only [step, Option.ite_none_right_eq_some, Option.some.injEq] at he
    obtain ⟨hp, rfl⟩ := he
    have ha : writeThroughAddr lockAddr lockAddr = some (byteAddr lockWord) := by decide
    obtain ⟨hg, hsh⟩ := Hierarchy.store_through_spec hs.good i lockWord 0 ha lockWord_lt
    refine hs.move hg (through_lock hs.unmodified hsh).1 (by simp) ?_
    rintro (h | ⟨j, hji, hj⟩)
    · simp at h
    · exact absurd hj (hown (.inr hp) j hji)

theorem run_safe {s t : LockState N} {events : List (LockEvent N)} (hs : s.Safe)
    (hrun : s.run events = some t) (hn : ∀ e ∈ events, ¬NeighbourStore e) : t.Safe := by
  induction events generalizing s with
  | nil =>
    obtain rfl := Option.some.inj hrun
    exact hs
  | cons e events ih =>
    rw [run, List.foldlM_cons] at hrun
    obtain ⟨u, hu, hrest⟩ := Option.bind_eq_some_iff.mp hrun
    exact ih (step_safe hs hu (hn e (by simp))) hrest fun e' he' => hn e' (by simp [he'])

/-- In every run in which no core stores to the words of the lock's line that are
not written through, at most one core is between `uart_lock` and `uart_unlock`. -/
theorem uart_lock_exclusive (ddr : DDRMemory) {events : List (LockEvent N)} {s : LockState N}
    (hrun : (init N ddr).run events = some s) (hn : ∀ e ∈ events, ¬NeighbourStore e)
    {i j : Fin N} (hi : s.phase i = .critical) (hj : s.phase j = .critical) : i = j :=
  (run_safe (init_safe ddr) hrun hn).unique i j (.inl hi) (.inl hj)

/-- Core 0 takes the lock and core 1 spins, after a store of core 1 elsewhere. -/
def contendedRun : List (LockEvent 2) :=
  [.access (.store 1 (wordOf 0x50000) 3), .lock 0, .swap 0, .lock 1, .swap 1]

theorem uart_lock_exclusive_contended :
    ∃ s, (init 2 Hierarchy.zeroDdr).run contendedRun = some s ∧
      s.phase 0 = .critical ∧ ∀ j, s.phase j = .critical → (0 : Fin 2) = j := by
  have hphase : ((init 2 Hierarchy.zeroDdr).run contendedRun).map (fun s => s.phase 0) =
      some .critical := by decide +kernel
  obtain ⟨s, hrun, hs⟩ := Option.map_eq_some_iff.mp hphase
  refine ⟨s, hrun, hs, fun j => uart_lock_exclusive Hierarchy.zeroDdr hrun ?_ hs⟩
  simp only [contendedRun, List.forall_mem_cons, NeighbourStore, List.not_mem_nil, false_implies,
    implies_true, and_true, not_false_eq_true]
  decide

/-- Core 1 stores to 0x82000 and keeps the old lock word with it; when the line is
evicted the word goes back to the L2 and frees the lock core 0 holds. -/
theorem neighbour_store_breaks_lock :
    ((init 2 Hierarchy.zeroDdr).run [.access (.store 1 (wordOf 0x82000) 3), .lock 0, .swap 0,
      .access (.load 1 (wordOf 0x50000)), .access (.load 1 (wordOf 0x50400)),
      .access (.load 1 (wordOf 0x50800)), .access (.load 1 (wordOf 0x50C00)),
      .lock 1, .swap 1]).map (fun s => (s.phase 0, s.phase 1)) = some (.critical, .critical) := by
  decide +kernel

end LockState
end RiscvEmulator.Software
