import RiscvEmulator.Memory.Hierarchy

/-! # Loads and stores of several cores

Word loads and stores of cacheable addresses by any cores in any order, with
translation off. No cache hears of the stores of the others: the coherence
controller is never asked. What saves the values is that only one core at a time
has a line it modifies (`Exclusive`). -/
namespace RiscvEmulator.Memory
open Lib.LineCache

/-- What a core asks of the hierarchy. -/
inductive MemOp (N : Nat) where
  | fetch (i : Fin N) (addr : Word)
  | load (i : Fin N) (x : WordAddr)
  | store (i : Fin N) (x : WordAddr) (v : Word)
deriving DecidableEq, Repr

/-- Loads and stores go to cacheable addresses. -/
def MemOp.Cacheable {N : Nat} : MemOp N → Prop
  | .fetch _ _ => True
  | .load _ x => hasDataCache (byteAddr x) = true
  | .store _ x _ => hasDataCache (byteAddr x) = true

/-- The memory as the stores in this order leave it, whoever issues them. -/
def lastStored {N : Nat} (initial : WordAddr → Word) (ops : List (MemOp N)) : WordAddr → Word :=
  ops.foldl (fun f op => match op with
    | .store _ x v => Function.update f x v
    | _ => f) initial

namespace Hierarchy
variable {N : Nat}

def exec (h : Hierarchy N) : MemOp N → Hierarchy N
  | .fetch i addr => (h.fetch i addr).2
  | .load i x => (h.load i (byteAddr x)).2
  | .store i x v => h.store i (byteAddr x) (byteAddr x) v

def run (h : Hierarchy N) (ops : List (MemOp N)) : Hierarchy N := ops.foldl exec h

/-- The core has the line to itself as far as the operation needs it: a load hits
or finds no other core with a modified copy, a store finds no other core with a
copy, and one that is written through finds the rest of its own copy in step
with the L2. -/
def Exclusive (h : Hierarchy N) : MemOp N → Prop
  | .fetch _ _ => True
  | .load i x => h.shared.MayRead l1Geometry.line i x
  | .store i x _ => h.shared.NoOtherCopy i x ∧
      (writesThrough x → (h.shared.seenBy i).Synced l1Geometry.line x)

/-- What all cores are meant to see. -/
def ddrWords (ddr : DDRMemory) (x : WordAddr) : Word := ddr.readWord (byteAddr x)

theorem init_coherent (ddr : DDRMemory) :
    (init N ddr).shared.Coherent l1Geometry.line (ddrWords ddr) := fun x =>
  ⟨fun i v hv => by simp [shared, init, Cache.init_lines, Lines.empty] at hv,
    fun _ => init_memory ddr x⟩

/-- One operation of one core, if it has the line to itself. -/
theorem exec_coherent {h : Hierarchy N} {f : WordAddr → Word} (hg : h.Good)
    (hc : h.shared.Coherent l1Geometry.line f) (op : MemOp N) (ha : op.Cacheable)
    (he : h.Exclusive op) :
    (h.exec op).Good ∧ (h.exec op).shared.Coherent l1Geometry.line (lastStored f [op]) := by
  cases op with
  | fetch i addr =>
    obtain ⟨h1, h2⟩ := fetch_spec hg i addr
    exact ⟨h1, h2 ▸ hc⟩
  | load i x =>
    obtain ⟨_, h1, t, ht, h2⟩ := load_spec hg i x
    refine ⟨h1, ?_⟩
    simp only [exec, h2]
    exact hc.touch (h.shared_granular i) he ht
  | store i x v =>
    have hx := hasDataCache_word ha
    obtain ⟨hno, hsync⟩ := he
    by_cases hw : writesThrough x
    · obtain ⟨h1, h2⟩ := store_through_spec hg i x v (writesThrough_addr hw) hx
      refine ⟨h1, ?_⟩
      simp only [exec, h2]
      exact hc.through h.shared_granular hno (hsync hw)
    · obtain ⟨h1, t, ht, h2⟩ := store_spec hg i x v (not_not.mp hw) hx
      refine ⟨h1, ?_⟩
      have hmay : h.shared.MayRead l1Geometry.line i x :=
        .inr (hno.noOtherDirty h.shared_granular)
      have hs := (hc.touch (h.shared_granular i) hmay ht).store (v := v)
        (Shared.set_noOtherCopy hno)
      rw [Shared.seenBy_set, Shared.set_set] at hs
      simp only [exec, h2]
      exact hs

theorem run_take_succ (h : Hierarchy N) (ops : List (MemOp N)) {k : Nat} (hk : k < ops.length) :
    h.run (ops.take (k + 1)) = (h.run (ops.take k)).exec ops[k] := by
  rw [run, ← List.take_append_getElem hk, List.foldl_append]
  rfl

theorem lastStored_take_succ (f : WordAddr → Word) (ops : List (MemOp N)) {k : Nat}
    (hk : k < ops.length) :
    lastStored f (ops.take (k + 1)) = lastStored (lastStored f (ops.take k)) [ops[k]] := by
  rw [lastStored, ← List.take_append_getElem hk, List.foldl_append]
  rfl

/-- A run in which every operation finds its line free keeps all copies right. -/
theorem run_coherent (ddr : DDRMemory) (ops : List (MemOp N)) (ha : ∀ op ∈ ops, op.Cacheable)
    (he : ∀ k (hk : k < ops.length), ((init N ddr).run (ops.take k)).Exclusive ops[k]) {k : Nat}
    (hk : k ≤ ops.length) :
    ((init N ddr).run (ops.take k)).Good ∧
      ((init N ddr).run (ops.take k)).shared.Coherent l1Geometry.line
        (lastStored (ddrWords ddr) (ops.take k)) := by
  induction k with
  | zero => exact ⟨init_good ddr, init_coherent ddr⟩
  | succ k ih =>
    obtain ⟨hg, hc⟩ := ih (Nat.le_of_lt hk)
    have hstep := exec_coherent hg hc ops[k] (ha _ (List.getElem_mem hk)) (he k hk)
    rwa [run_take_succ _ _ hk, lastStored_take_succ _ _ hk]

/-- Every load returns the value of the last store to its word by any core, or
the initial value, in every run whose operations find their line free. -/
theorem load_last_stored (ddr : DDRMemory) (ops : List (MemOp N)) (ha : ∀ op ∈ ops, op.Cacheable)
    (he : ∀ k (hk : k < ops.length), ((init N ddr).run (ops.take k)).Exclusive ops[k])
    {k : Nat} (hk : k < ops.length) {i : Fin N} {x : WordAddr} (hload : ops[k] = .load i x) :
    (((init N ddr).run (ops.take k)).load i (byteAddr x)).1 =
      lastStored (ddrWords ddr) (ops.take k) x := by
  obtain ⟨hg, hc⟩ := run_coherent ddr ops ha he (Nat.le_of_lt hk)
  have hmay := he k hk
  rw [hload] at hmay
  rw [(load_spec hg i x).1]
  exact hc.view (shared_granular _ i) hmay

/-- DDR full of zeros. -/
def zeroDdr : DDRMemory := ⟨fun _ => 0⟩

/-- Core 0 reads back what it has stored; no other core has touched the line. -/
theorem load_last_stored_private :
    (((init 2 zeroDdr).run [.store 0 (wordOf 0x50000) 7]).load 0 (byteAddr (wordOf 0x50000))).1 =
      lastStored (N := 2) (ddrWords zeroDdr) [.store 0 (wordOf 0x50000) 7] (wordOf 0x50000) := by
  refine load_last_stored zeroDdr [.store 0 (wordOf 0x50000) 7, .load 0 (wordOf 0x50000)]
    ?_ ?_ (k := 1) (by decide) rfl
  · simp only [List.forall_mem_cons, MemOp.Cacheable, List.not_mem_nil, false_implies,
      implies_true, and_true]
    decide
  · intro k hk
    match k, hk with
    | 0, _ =>
      refine ⟨?_, fun hw => absurd hw (by decide)⟩
      simp only [Shared.NoOtherCopy]
      decide +kernel
    | 1, _ =>
      refine .inl ?_
      decide +kernel

/-- Core 1 keeps its copy when core 0 stores: it goes on reading the old value. -/
theorem store_leaves_stale_copy :
    (((init 2 zeroDdr).run [.load 1 (wordOf 0x50000), .store 0 (wordOf 0x50000) 7]).load 1
        0x50000).1 = 0 ∧
      lastStored (N := 2) (ddrWords zeroDdr)
        [.load 1 (wordOf 0x50000), .store 0 (wordOf 0x50000) 7] (wordOf 0x50000) = 7 := by
  decide +kernel

end Hierarchy
end RiscvEmulator.Memory
