import RiscvEmulator.Memory.ByteMemory
import RiscvEmulator.Memory.CacheRefinement

/-! # One cache over a word memory

Runs of `read`, `write` and the atomics of one cache with no MMU, from an empty
cache on. A write-back store or a fill never shows; a store that is written
through and an atomic drop the line of the word, and with it whatever other
words of the line the memory does not have yet. -/
namespace RiscvEmulator.Memory
open Lib.LineCache

/-! ## Calls and runs -/

/-- The atomics with their operands. `atomic_fetch_and_add` is `add`. -/
inductive Atomic where
  | add (value : Word)
  | swap (value : Word)
  | compareAndSwap (expected desired : Word)
  | fetchAndSub (value : Word)
  | fetchAndAnd (value : Word)
  | fetchAndOr (value : Word)
  | fetchAndXor (value : Word)
deriving DecidableEq, Repr

/-- What the operation makes of the old word. -/
def Atomic.apply : Atomic → Word → Word
  | add value, old => old + value
  | swap value, _ => value
  | compareAndSwap expected desired, old => if old = expected then desired else old
  | fetchAndSub value, old => old - value
  | fetchAndAnd value, old => old &&& value
  | fetchAndOr value, old => old ||| value
  | fetchAndXor value, old => old ^^^ value

/-- A `read` or `write` at a word-aligned address. -/
inductive Access where
  | read (x : WordAddr) (coreId : Nat)
  | write (x : WordAddr) (data : Word) (coreId : Nat)
deriving DecidableEq, Repr

inductive Call where
  | access (a : Access)
  | atomic (x : WordAddr) (op : Atomic) (coreId : Nat)
deriving DecidableEq, Repr

/-- The memory a reader expects: the values last written, over the initial ones. -/
def lastWritten (initial : WordAddr → Word) (accesses : List Access) : WordAddr → Word :=
  accesses.foldl (fun f a => match a with
    | .read _ _ => f
    | .write x data _ => Function.update f x data) initial

/-! ## Stores that are written through -/

/-- Whether the store to a word is written through. -/
def writesThrough (x : WordAddr) : Prop := writeThroughAddr (byteAddr x) (byteAddr x) ≠ none

instance (x : WordAddr) : Decidable (writesThrough x) := inferInstanceAs (Decidable (_ ≠ _))

/-- A store that is written through goes to its own word. -/
theorem writesThrough_addr {x : WordAddr} (h : writesThrough x) :
    writeThroughAddr (byteAddr x) (byteAddr x) = some (byteAddr x) := by
  simp only [writesThrough, writeThroughAddr] at h ⊢
  grind

namespace Level
variable {g : Geometry} {σ : Type} [MemoryInterface σ]

def atomic (lv : Level g σ) (addr : Word) (coreId : Nat) : Atomic → Word × Level g σ
  | .add value => lv.atomicAdd addr value coreId
  | .swap value => lv.atomicSwap addr value coreId
  | .compareAndSwap expected desired => lv.atomicCompareAndSwap addr expected desired coreId
  | .fetchAndSub value => lv.atomicFetchAndSub addr value coreId
  | .fetchAndAnd value => lv.atomicFetchAndAnd addr value coreId
  | .fetchAndOr value => lv.atomicFetchAndOr addr value coreId
  | .fetchAndXor value => lv.atomicFetchAndXor addr value coreId

/-- With no MMU an address is its own translation. -/
def issue (lv : Level g σ) : Access → Level g σ
  | .read x coreId => (lv.read (byteAddr x) coreId).2.2
  | .write x data coreId => (lv.write (byteAddr x) (byteAddr x) data coreId).2

def call (lv : Level g σ) : Call → Level g σ
  | .access a => lv.issue a
  | .atomic x op coreId => (lv.atomic (byteAddr x) coreId op).2

def runAccesses (lv : Level g σ) (accesses : List Access) : Level g σ :=
  accesses.foldl issue lv

def runCalls (lv : Level g σ) (calls : List Call) : Level g σ := calls.foldl call lv

/-- An empty cache with `n` cores over a memory. -/
def fresh (g : Geometry) (n : Nat) (memory : σ) : Level g σ := ⟨Cache.init g n, memory⟩

/-- The word of every atomic is the one its operation names. -/
theorem atomic_spec {M : WordMemory σ} {lv : Level g σ} (h : lv.Good M) (x : WordAddr)
    (coreId : Nat) (op : Atomic) (hdom : M.dom x) :
    (lv.atomic (byteAddr x) coreId op).1 = M.content lv.memory x ∧
      (lv.atomic (byteAddr x) coreId op).2.Good M ∧
      (lv.atomic (byteAddr x) coreId op).2.state M =
        (lv.state M).through g.line x (op.apply (M.content lv.memory x)) := by
  cases op with
  | compareAndSwap expected desired =>
    obtain ⟨h1, h2, h3⟩ := atomicUpdate_spec h x
      (fun current => if current == expected then some desired else none) coreId hdom
    refine ⟨h1, h2, h3.trans ?_⟩
    simp only [Atomic.apply, beq_iff_eq]
    split <;> rfl
  | add value => exact atomicUpdate_spec h x (fun result => some (result + value)) coreId hdom
  | swap value => exact atomicUpdate_spec h x (fun _ => some value) coreId hdom
  | fetchAndSub value =>
    exact atomicUpdate_spec h x (fun result => some (result - value)) coreId hdom
  | fetchAndAnd value =>
    exact atomicUpdate_spec h x (fun result => some (result &&& value)) coreId hdom
  | fetchAndOr value =>
    exact atomicUpdate_spec h x (fun result => some (result ||| value)) coreId hdom
  | fetchAndXor value =>
    exact atomicUpdate_spec h x (fun result => some (result ^^^ value)) coreId hdom

/-! ## One access -/

section
variable {M : WordMemory σ} {lv : Level g σ}

theorem issue_consistent (hdom : ∀ x, M.dom x) (h : lv.Consistent M) (a : Access) :
    (lv.issue a).Consistent M := by
  cases a with
  | read x coreId => exact h.read x coreId
  | write x data coreId =>
    by_cases hw : writesThrough x
    · obtain ⟨h1, h2⟩ :=
        write_through_spec h.toGood x data coreId (writesThrough_addr hw) (hdom x)
      exact ⟨h1, h2 ▸ through_clean h.clean⟩
    · obtain ⟨h1, t, ht, hs⟩ :=
        write_spec h.toGood x data coreId (not_not.mp hw) fun y _ => hdom y
      exact ⟨h1, hs ▸ store_clean (ht.clean h.clean)⟩

theorem call_consistent (hdom : ∀ x, M.dom x) (h : lv.Consistent M) (c : Call) :
    (lv.call c).Consistent M := by
  cases c with
  | access a => exact issue_consistent hdom h a
  | atomic x op coreId =>
    obtain ⟨_, h1, h2⟩ := atomic_spec h.toGood x coreId op (hdom x)
    exact ⟨h1, h2 ▸ through_clean h.clean⟩

/-- A store is seen as a store exactly when it is written back, or no other word
of its line is ahead of the memory. -/
theorem write_view_iff (hdom : ∀ x, M.dom x) (h : lv.Consistent M) (x : WordAddr) (v : Word)
    (coreId : Nat) :
    ((lv.write (byteAddr x) (byteAddr x) v coreId).2.state M).view =
        Function.update (lv.state M).view x v ↔
      (writesThrough x → (lv.state M).Synced g.line x) := by
  by_cases hw : writesThrough x
  · rw [(write_through_spec h.toGood x v coreId (writesThrough_addr hw) (hdom x)).2,
      through_view_iff]
    simp [hw]
  · obtain ⟨_, t, ht, hs⟩ := write_spec h.toGood x v coreId (not_not.mp hw) fun y _ => hdom y
    rw [hs, store_view, h.touch_view ht]
    simp [hw]

/-! ## Runs -/

theorem runAccesses_consistent (hdom : ∀ x, M.dom x) (h : lv.Consistent M) (as : List Access) :
    (lv.runAccesses as).Consistent M := by
  induction as generalizing lv with
  | nil => exact h
  | cons a as ih => exact ih (issue_consistent hdom h a)

theorem runCalls_consistent (hdom : ∀ x, M.dom x) (h : lv.Consistent M) (calls : List Call) :
    (lv.runCalls calls).Consistent M := by
  induction calls generalizing lv with
  | nil => exact h
  | cons c calls ih => exact ih (call_consistent hdom h c)

theorem runAccesses_concat (as : List Access) (a : Access) :
    lv.runAccesses (as ++ [a]) = (lv.runAccesses as).issue a := by
  simp [runAccesses]

/-- One more access of a run that has shown the right values so far. -/
theorem concat_view_iff (hdom : ∀ x, M.dom x) (h : lv.Consistent M) {as : List Access} (a : Access)
    (has : ((lv.runAccesses as).state M).view = lastWritten (lv.state M).view as) :
    ((lv.runAccesses (as ++ [a])).state M).view = lastWritten (lv.state M).view (as ++ [a]) ↔
      ∀ x v coreId, a = .write x v coreId → writesThrough x →
        ((lv.runAccesses as).state M).Synced g.line x := by
  have hg := runAccesses_consistent hdom h as
  rw [runAccesses_concat]
  cases a with
  | read x coreId =>
    simp only [issue, hg.touch_view (read_spec hg.toGood x coreId).2.2, has, reduceCtorEq,
      false_implies, implies_true, iff_true]
    simp [lastWritten]
  | write x v coreId =>
    have hlast : lastWritten (lv.state M).view (as ++ [.write x v coreId]) =
        Function.update (lastWritten (lv.state M).view as) x v := by
      simp [lastWritten]
    rw [hlast, ← has]
    refine (write_view_iff hdom hg x v coreId).trans ⟨?_, fun hs => hs x v coreId rfl⟩
    rintro hs x' v' coreId' ⟨⟩
    exact hs

/-- Every state of a run shows the values last written exactly when every store
of it that is written through finds its line in step with the memory. -/
theorem run_view_iff (hdom : ∀ x, M.dom x) (h : lv.Consistent M) (as : List Access) :
    (∀ as', as' <+: as → ((lv.runAccesses as').state M).view =
        lastWritten (lv.state M).view as') ↔
      ∀ as' x v coreId, as' ++ [.write x v coreId] <+: as → writesThrough x →
        ((lv.runAccesses as').state M).Synced g.line x := by
  induction as using List.reverseRecOn with
  | nil =>
    refine iff_of_true (fun as' has => ?_) fun as' x v coreId has => ?_
    · rw [List.prefix_nil.mp has]
      rfl
    · exact absurd (List.prefix_nil.mp has) (by simp)
  | append_singleton as a ih =>
    constructor
    · intro hview as' x v coreId has hw
      rcases List.prefix_concat_iff.mp has with heq | has
      · obtain ⟨rfl, ha⟩ := List.append_inj' heq rfl
        refine (concat_view_iff hdom h a ?_).mp (hview _ (List.prefix_refl _)) x v coreId
          (List.singleton_inj.mp ha).symm hw
        exact hview as' (List.prefix_append _ _)
      · exact ih.mp (fun as2 h2 => hview as2 (h2.trans (List.prefix_append _ _))) as' x v coreId
          has hw
    · intro hsync
      have hprev := ih.mpr fun as' x v coreId has =>
        hsync as' x v coreId (has.trans (List.prefix_append _ _))
      intro as' has
      rcases List.prefix_concat_iff.mp has with rfl | has
      · refine (concat_view_iff hdom h a (hprev as (List.prefix_refl _))).mpr ?_
        rintro x v coreId rfl hw
        exact hsync as x v coreId (List.prefix_refl _) hw
      · exact hprev as' has

/-! ## Transparency -/

/-- In every run from an empty cache, each read returns the value last written
to its word, or the initial one, exactly when each store that is written through
finds the other words of its line in step with the memory behind the cache. -/
theorem read_last_written_iff (hdom : ∀ x, M.dom x) (n : Nat) {memory : σ}
    (hinv : M.inv memory) (as : List Access) :
    (∀ as', as' <+: as → ∀ x coreId,
        (((fresh g n memory).runAccesses as').read (byteAddr x) coreId).2.1 =
          lastWritten (M.content memory) as' x) ↔
      ∀ as' x v coreId, as' ++ [.write x v coreId] <+: as → writesThrough x →
        (((fresh g n memory).runAccesses as').state M).Synced g.line x := by
  have hg : (fresh g n memory).Consistent M := init_consistent n hinv
  rw [← run_view_iff hdom hg as, show ((fresh g n memory).state M).view = M.content memory from
    init_view n memory]
  refine forall₂_congr fun as' _ => ⟨fun hr => funext fun x => ?_, fun hv x coreId => ?_⟩
  · rw [← hr x 0, (read_spec (runAccesses_consistent hdom hg as').toGood x 0).1]
  · rw [(read_spec (runAccesses_consistent hdom hg as').toGood x coreId).1, hv]

end

/-- All zeros, in the whole address space. -/
def zeroMemory : ByteMemory (2 ^ 32) := ⟨fun _ => 0⟩

theorem zeroMemory_backed (x : WordAddr) : (ByteMemory.wordMemory (2 ^ 32)).dom x := by
  have := x.isLt
  simp only [ByteMemory.wordMemory]
  omega

/-- Two words of different lines, one of them in the window. -/
theorem read_last_written_two_lines :
    (∀ as', as' <+: [.write (wordOf 0x1000) 7 0, .write (wordOf 0x82010) 1 0] →
      ∀ x coreId, (((fresh l1Geometry 1 zeroMemory).runAccesses as').read
          (byteAddr x) coreId).2.1 =
        lastWritten ((ByteMemory.wordMemory _).content zeroMemory) as' x) ↔
      ∀ as' x v coreId,
        as' ++ [.write x v coreId] <+: [.write (wordOf 0x1000) 7 0, .write (wordOf 0x82010) 1 0] →
        writesThrough x → (((fresh l1Geometry 1 zeroMemory).runAccesses as').state
          (ByteMemory.wordMemory _)).Synced l1Geometry.line x :=
  read_last_written_iff (M := ByteMemory.wordMemory _) zeroMemory_backed 1 trivial _

/-- 0x82000 shares its line with the window: a store to `uart_mutex` drops it. -/
theorem window_store_loses_neighbour :
    (((fresh l1Geometry 1 zeroMemory).runAccesses
        [.write (wordOf 0x82000) 7 0, .write (wordOf 0x82010) 1 0]).read 0x82000 0).2.1 = 0 ∧
      lastWritten ((ByteMemory.wordMemory _).content zeroMemory)
        [.write (wordOf 0x82000) 7 0, .write (wordOf 0x82010) 1 0] (wordOf 0x82000) = 7 := by
  decide +kernel

section
variable {M : WordMemory σ} {lv : Level g σ}

/-! ## Atomics and cached data -/

/-- The atomic returns what a read would have returned, stores what the operation
makes of that, and shows no change anywhere else. -/
def AtomicAgrees (lv : Level g σ) (x : WordAddr) (op : Atomic) : Prop :=
  ∀ coreId reader,
    (lv.atomic (byteAddr x) coreId op).1 = (lv.read (byteAddr x) reader).2.1 ∧
    ((lv.atomic (byteAddr x) coreId op).2.read (byteAddr x) reader).2.1 =
      op.apply (lv.read (byteAddr x) reader).2.1 ∧
    ∀ y, y ≠ x → ((lv.atomic (byteAddr x) coreId op).2.read (byteAddr y) reader).2.1 =
      (lv.read (byteAddr y) reader).2.1

theorem atomicAgrees_iff (hdom : ∀ x, M.dom x) (h : lv.Good M) (x : WordAddr) (op : Atomic) :
    lv.AtomicAgrees x op ↔
      ∀ y, g.line y = g.line x → (lv.state M).view y = M.content lv.memory y := by
  have hread : ∀ y reader, (lv.read (byteAddr y) reader).2.1 = (lv.state M).view y :=
    fun y reader => (read_spec h y reader).1
  have hafter : ∀ coreId y reader,
      ((lv.atomic (byteAddr x) coreId op).2.read (byteAddr y) reader).2.1 =
        if y = x then op.apply (M.content lv.memory x)
        else if g.line y = g.line x then M.content lv.memory y else (lv.state M).view y := by
    intro coreId y reader
    obtain ⟨_, hg, hs⟩ := atomic_spec h x coreId op (hdom x)
    rw [(read_spec hg y reader).1, hs, through_view_apply]
    rfl
  simp only [AtomicAgrees, hread, hafter, (atomic_spec h x _ op (hdom x)).1, if_true]
  constructor
  · intro ha y hl
    obtain ⟨hold, _, hother⟩ := ha 0 0
    by_cases hy : y = x
    · rw [hy, hold]
    · simpa [hy, hl] using (hother y hy).symm
  · intro hs _ _
    refine ⟨(hs x rfl).symm, by rw [hs x rfl], ?_⟩
    intro y hy
    rw [if_neg hy]
    split
    · rename_i hl
      exact (hs y hl).symm
    · rfl

/-- In every state a cache reaches by reads, writes and atomics, an atomic agrees
with the cached data exactly when no word of its line, the word itself included,
is ahead of the memory behind the cache. -/
theorem reachable_atomic_agrees_iff (hdom : ∀ x, M.dom x) (n : Nat) {memory : σ}
    (hinv : M.inv memory) (calls : List Call) (x : WordAddr) (op : Atomic) :
    ((fresh g n memory).runCalls calls).AtomicAgrees x op ↔
      ∀ y, g.line y = g.line x → (((fresh g n memory).runCalls calls).state M).view y =
        M.content ((fresh g n memory).runCalls calls).memory y :=
  atomicAgrees_iff hdom (runCalls_consistent hdom (init_consistent n hinv) calls).toGood x op

end

theorem reachable_atomic_agrees_after_read :
    ((fresh l1Geometry 1 zeroMemory).runCalls [.access (.read (wordOf 0x1000) 0)]).AtomicAgrees
        (wordOf 0x1000) (.add 1) ↔
      ∀ y, l1Geometry.line y = l1Geometry.line (wordOf 0x1000) →
        (((fresh l1Geometry 1 zeroMemory).runCalls [.access (.read (wordOf 0x1000) 0)]).state
          (ByteMemory.wordMemory _)).view y =
        (ByteMemory.wordMemory _).content ((fresh l1Geometry 1 zeroMemory).runCalls
          [.access (.read (wordOf 0x1000) 0)]).memory y :=
  reachable_atomic_agrees_iff (M := ByteMemory.wordMemory _) zeroMemory_backed 1 trivial _ _ _

/-- After a store the word is only in the cache: the atomic adds to what was
there before. -/
theorem atomic_misses_dirty_word :
    ¬((fresh l1Geometry 1 zeroMemory).runCalls
      [.access (.write (wordOf 0x1000) 5 0)]).AtomicAgrees (wordOf 0x1000) (.add 1) := by
  intro h
  have hold := (h 0 0).1
  revert hold
  decide +kernel

end Level
end RiscvEmulator.Memory
