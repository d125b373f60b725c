import RiscvEmulator.Lib.OneCell
import RiscvEmulator.System.MappedAccess

/-! # Synonyms

Several virtual addresses may be mapped to one physical address. Accesses through
all of them are those of one word as long as each looks at a place that has what
the last store has left at its own. -/
namespace RiscvEmulator.System
open Memory Cores Isa Lib.OneCell

/-- An executed load or store, with what it has left in `rd` or its operand. -/
inductive MappedEvent where
  | load (op : LoadOp) (va pa : Word) (rd : Isa.Reg) (result : Word)
  | store (op : StoreOp) (va pa operand : Word)
deriving DecidableEq, Repr

/-- An array that has the word `m` at `x`. -/
def wordArray (x : WordAddr) (m : Word) : Bytes := Bytes.store (fun _ => 0) (4 * x.toNat) 4 m

theorem wordArray_word (x : WordAddr) (m : Word) : (wordArray x m).word (4 * x.toNat) = m := by
  refine BitVec.eq_of_getLsbD_eq fun j hj => ?_
  have hbit : 8 * (4 * x.toNat + j / 8 - 4 * x.toNat) + j % 8 = j := by omega
  unfold wordArray
  rw [Simulator.getLsbD_store_word _ _ _ _ _ hj, if_pos (by omega), hbit]

theorem extractWord_array (op : LoadOp) {x : WordAddr} {pa : Word} (hpa : wordOf pa = x)
    (ha : pa.toNat % op.size = 0) (m : Word) :
    Simulator.extractWord op pa m = op.eval (wordArray x m) pa.toNat := by
  have h := Simulator.extractWord_word op (wordArray x m) ha
  rwa [← wordOf_toNat, hpa, wordArray_word] at h

theorem insertWord_array (op : StoreOp) {x : WordAddr} {pa : Word} (hpa : wordOf pa = x)
    (ha : pa.toNat % op.size = 0) (m v : Word) :
    Simulator.insertWord op pa m v = (op.apply (wordArray x m) pa.toNat v).word (4 * x.toNat) := by
  have h := Simulator.insertWord_word op (wordArray x m) v ha
  rwa [← wordOf_toNat, hpa, wordArray_word] at h

/-- The word at `x` as loads and stores of its bytes see it. -/
def mappedCell (x : WordAddr) : Cell MappedEvent Word where
  fits e m := match e with
    | .load op _ pa rd result => rd ≠ 0 → result = op.eval (wordArray x m) pa.toNat
    | .store .. => True
  next e m := match e with
    | .load .. => m
    | .store op _ pa v => (op.apply (wordArray x m) pa.toNat v).word (4 * x.toNat)

/-- Where a store leaves the word. -/
def MappedEvent.place : MappedEvent → Place → Place
  | .load .., p => p
  | .store _ va _ _, _ => Simulator.plainPlace va

namespace Simulator
variable {N n : Nat} {s s₁ s' t : Simulator N n} {i : Fin N} {x : WordAddr} {p q : Place}

/-- Core `i` executes an aligned load or store whose address is mapped into the
word `x`. -/
inductive MappedAccess (i : Fin N) (x : WordAddr) :
    Simulator N n → MappedEvent → Simulator N n → Prop
  | load {s s₁ s' : Simulator N n} {instr : Load} {va pa : Word} :
    s.Fetches i s₁ instr.encode → instr.address (s.cores i).regs = va →
    va.toNat % instr.op.size = 0 → (s₁.fetchPc i).2.Mapped i va pa → wordOf pa = x →
    s.step i = .ok s' →
    MappedAccess i x s (.load instr.op va pa instr.rd ((s'.cores i).regs instr.rd)) s'
  | store {s s₁ s' : Simulator N n} {instr : Store} {va pa : Word} :
    s.Fetches i s₁ instr.encode → instr.address (s.cores i).regs = va →
    va.toNat % instr.op.size = 0 → (s₁.fetchPc i).2.Mapped i va pa → wordOf pa = x →
    s.step i = .ok s' →
    MappedAccess i x s (.store instr.op va pa ((s.cores i).regs instr.rs2)) s'

/-- The virtual address is below the end of memory, and what the access takes over
of the word is the same where it looks and at `p`. A store to a page table region
address that goes through the cache must be mapped to itself. -/
def FindsPart (s : Simulator N n) (i : Fin N) (x : WordAddr) (p : Place) : MappedEvent → Prop
  | .load op va pa rd _ => va.toNat < n ∧
    (rd = 0 ∨ extractWord op pa (s.wordAt i x (plainPlace va)) = extractWord op pa (s.wordAt i x p))
  | .store op va pa v => va.toNat < n ∧ (inPageTable va = true → va = pa) ∧
    insertWord op pa (s.wordAt i x (plainPlace va)) v = insertWord op pa (s.wordAt i x p) v

instance (s : Simulator N n) (i : Fin N) (x : WordAddr) (p : Place) (e : MappedEvent) :
    Decidable (s.FindsPart i x p e) :=
  match e with
  | .load .. => inferInstanceAs (Decidable (_ ∧ _))
  | .store .. => inferInstanceAs (Decidable (_ ∧ _ ∧ _))

/-- One access that finds its part of the word. -/
theorem MappedAccess.step {e : MappedEvent} (h : MappedAccess i x s e s')
    (hfind : s.FindsPart i x p e) (hs : s.InOrder i) (hx : s.RamWord x)
    (hdom : x.toNat < 0x10000000) :
    s'.InOrder i ∧ s'.RamWord x ∧ (mappedCell x).fits e (s.wordAt i x p) ∧
      s'.wordAt i x (e.place p) = (mappedCell x).next e (s.wordAt i x p) := by
  cases h with
  | load hf hva ha hm hpa hstep =>
    obtain ⟨hlt, hpart⟩ := hfind
    obtain ⟨hs', hx', hw, hregs⟩ := hf.step_mappedLoad hs hx hva hlt ha hm hpa hstep
    refine ⟨hs', hx', ?_, congrFun hw p⟩
    intro hrd
    rw [hregs, State.write_self _ _ hrd, hpart.resolve_left hrd]
    exact extractWord_array _ hpa (hm.size (LoadOp.size_dvd _) ha) _
  | store hf hva ha hm hpa hstep =>
    obtain ⟨hlt, htable, hpart⟩ := hfind
    obtain ⟨hs', hx', hw⟩ := hf.step_mappedStore hs hx hdom hva hlt ha hm hpa htable hstep
    refine ⟨hs', hx', trivial, hw.trans (hpart.trans ?_)⟩
    exact insertWord_array _ hpa (hm.size (StoreOp.size_dvd _) ha) _ _

/-- Loads and stores through any addresses of a word, with steps without data
access between them, are those of one word. -/
theorem mappedRun_onOneWord {es : List MappedEvent}
    (hrun : Tracked (fun s s' => QuietStep s i s')
      (fun p s e s' => MappedAccess i x s e s' ∧ s.FindsPart i x p e) MappedEvent.place p s es q t)
    (hs : s.InOrder i) (hx : s.RamWord x) (hdom : x.toNat < 0x10000000) :
    (mappedCell x).Admits (s.wordAt i x p) es (t.wordAt i x q) := by
  have hquiet : ∀ s s' : Simulator N n, s.InOrder i ∧ s.RamWord x → s.QuietStep i s' →
      (s'.InOrder i ∧ s'.RamWord x) ∧ s'.wordAt i x = s.wordAt i x := by
    intro s s' ⟨hs, hx⟩ hq
    obtain ⟨hs', hsame⟩ := hs.quietStep hq
    exact ⟨⟨hs', hx.devices hsame.devices⟩, hsame.wordAt i x⟩
  refine (hrun.admits hquiet (fun p s e s' ⟨hs, hx⟩ ⟨ha, hfind⟩ => ?_) ⟨hs, hx⟩).1
  obtain ⟨hs', hx', hfits, hnext⟩ := ha.step hfind hs hx hdom
  exact ⟨⟨hs', hx'⟩, hfits, hnext⟩

/-- One core about to store 5 at 0x50000 and to load from `va`, with a table that
maps the pages of 0x4F000, 0x50000 and 0x51000 to the frame of 0x50000. -/
def aliased (va : Word) : Simulator 1 0x100000 :=
  let s := loaded 1 0x100000 [Store.encode ⟨.sw, 8, 5, 0⟩, Load.encode ⟨.lw, 7, 9, 0⟩] fun _ r =>
    if r = 5 then 0x50000 else if r = 8 then 5 else if r = 9 then va else 0
  { s with memory := s.memory |>.writeWord 0x10000 0x0F |>.writeWord 0x1013C 0x1400F
      |>.writeWord 0x10140 0x1400F |>.writeWord 0x10144 0x1400F }.writeCsr core0 0x180 0x80000010

theorem aliased_inOrder (va : Word) : (aliased va).InOrder 0 :=
  ⟨Hierarchy.init_good _, rfl⟩

theorem aliased_ramWord (va : Word) : (aliased va).RamWord (wordOf 0x50000) :=
  ((loaded_plainRam 1 [] (fun _ _ => 0) (by decide) (by decide)).ramWord (by decide)).devices rfl

theorem MappedAccess.load_stepped (instr : Load) {va pa v : Word} (hr : s.Running i)
    (hf : ((s.handleInterrupt i).fetchPc i).1 = instr.encode)
    (hva : instr.address (s.cores i).regs = va) (ha : va.toNat % instr.op.size = 0)
    (hm : ((s.handleInterrupt i).fetchPc i).2.Mapped i va pa) (hpa : wordOf pa = x)
    (hstep : (s.step i).toOption.isSome) (hv : ((s.stepped i).cores i).regs instr.rd = v) :
    MappedAccess i x s (.load instr.op va pa instr.rd v) (s.stepped i) :=
  hv ▸ .load ⟨hr.prepare_eq, hf⟩ hva ha hm hpa (step_stepped hstep)

theorem MappedAccess.store_stepped (instr : Store) {va pa v : Word} (hr : s.Running i)
    (hf : ((s.handleInterrupt i).fetchPc i).1 = instr.encode)
    (hva : instr.address (s.cores i).regs = va) (ha : va.toNat % instr.op.size = 0)
    (hm : ((s.handleInterrupt i).fetchPc i).2.Mapped i va pa) (hpa : wordOf pa = x)
    (hstep : (s.step i).toOption.isSome) (hv : (s.cores i).regs instr.rs2 = v) :
    MappedAccess i x s (.store instr.op va pa v) (s.stepped i) :=
  hv ▸ .store ⟨hr.prepare_eq, hf⟩ hva ha hm hpa (step_stepped hstep)

/-- The store goes through the cache, and so does a load from 0x51000, but not one
from 0x4F000. -/
theorem aliased_accesses (va : Word) (hva : va = 0x51000 ∨ va = 0x4F000) :
    MappedAccess 0 (wordOf 0x50000) (aliased va) (.store .sw 0x50000 0x50000 5)
        ((aliased va).stepped 0) ∧
      MappedAccess 0 (wordOf 0x50000) ((aliased va).stepped 0)
        (.load .lw va 0x50000 7 (if va = 0x51000 then 5 else 0))
        (((aliased va).stepped 0).stepped 0) := by
  rcases hva with rfl | rfl
  all_goals
    refine ⟨.store_stepped ⟨.sw, 8, 5, 0⟩ (by decide +kernel) (by decide +kernel)
      (by decide +kernel) (by decide) ⟨by decide +kernel, by decide +kernel⟩ (by decide)
      (by decide +kernel) (by decide +kernel),
      .load_stepped ⟨.lw, 7, 9, 0⟩ (by decide +kernel) (by decide +kernel)
      (by decide +kernel) (by decide) ⟨by decide +kernel, by decide +kernel⟩ (by decide)
      (by decide +kernel) (by decide +kernel)⟩

/-- 0x50000 and 0x51000 are alike. -/
theorem mappedRun_onOneWord_cached :
    (mappedCell (wordOf 0x50000)).Admits ((aliased 0x51000).wordAt 0 (wordOf 0x50000) .memory)
      [.store .sw 0x50000 0x50000 5, .load .lw 0x51000 0x50000 7 5]
      ((((aliased 0x51000).stepped 0).stepped 0).wordAt 0 (wordOf 0x50000) .dataCache) := by
  obtain ⟨hstore, hload⟩ := aliased_accesses 0x51000 (.inl rfl)
  exact mappedRun_onOneWord (.access ⟨hstore, by decide +kernel⟩
    (.access ⟨hload, by decide +kernel⟩ (.nil _ _)))
    (aliased_inOrder _) (aliased_ramWord _) (by decide)

/-- A load from 0x4F000 does not find what was stored through 0x50000. -/
theorem synonym_misses_store : ∃ (s t : Simulator 1 0x100000) (es : List MappedEvent),
    s.InOrder 0 ∧ s.RamWord (wordOf 0x50000) ∧
      Tracked (fun s s' => QuietStep s 0 s') (fun _ => MappedAccess 0 (wordOf 0x50000))
        MappedEvent.place .memory s es .dataCache t ∧
      ∀ m w, ¬(mappedCell (wordOf 0x50000)).Admits m es w := by
  obtain ⟨hstore, hload⟩ := aliased_accesses 0x4F000 (.inr rfl)
  refine ⟨_, _, _, aliased_inOrder 0x4F000, aliased_ramWord 0x4F000,
    .access hstore (.access hload (.nil _ _)), fun m w h => ?_⟩
  -- the word is 5, and the load has left 0
  have hload := h.2.1 (by decide)
  have hstored : insertWord .sw 0x50000 m 5 = _ :=
    insertWord_array (x := wordOf 0x50000) .sw rfl (by decide) m 5
  rw [← extractWord_array .lw rfl (by decide)] at hload
  have hfive : (0 : Word) = 5 := hload.trans hstored.symm
  exact absurd hfive (by decide)

end Simulator
end RiscvEmulator.System
