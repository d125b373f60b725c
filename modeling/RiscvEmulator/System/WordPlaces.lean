import RiscvEmulator.System.LoadStoreStep
import RiscvEmulator.System.SatpFrame

/-! # Where a word of RAM is kept

The simulator's memory, a core's data cache and the L2 each have a value for every
word, and different accesses look at different ones. Only the data accesses of
the core change them. -/
namespace RiscvEmulator.System
open Memory Cores Isa Lib.LineCache

/-- Where an access may look for a word. -/
inductive Place where
  | memory | dataCache | l2
deriving DecidableEq, Repr

namespace Simulator
variable {N n : Nat} {s s₁ s' t u : Simulator N n} {i : Fin N} {x : WordAddr}

/-- The value of a word at a place. -/
def wordAt (s : Simulator N n) (i : Fin N) (x : WordAddr) : Place → Word
  | .memory => s.readWord (byteAddr x)
  | .dataCache => (s.hierarchy.shared.seenBy i).view x
  | .l2 => s.hierarchy.shared.memory x

/-- Where LW and SW look. -/
def plainPlace (vaddr : Word) : Place := if hasDataCache vaddr then .dataCache else .memory

/-! ## Steps that leave the words alone -/

/-- Memory, caches and devices show the same. -/
structure SameWords (s t : Simulator N n) : Prop where
  shared : t.hierarchy.shared = s.hierarchy.shared
  memory : t.memory = s.memory
  devices : t.devices = s.devices
  clint : t.clint = s.clint

namespace SameWords

theorem refl (s : Simulator N n) : SameWords s s := ⟨rfl, rfl, rfl, rfl⟩

theorem trans (h : SameWords s t) (h' : SameWords t u) : SameWords s u :=
  ⟨h'.shared.trans h.shared, h'.memory.trans h.memory, h'.devices.trans h.devices,
    h'.clint.trans h.clint⟩

theorem wordAt (h : SameWords s t) (i : Fin N) (x : WordAddr) : t.wordAt i x = s.wordAt i x := by
  funext p
  cases p with
  | memory =>
    unfold Simulator.wordAt readWord
    rw [h.memory, h.devices, h.clint]
  | dataCache | l2 =>
    unfold Simulator.wordAt
    rw [h.shared]

end SameWords

theorem SameData.sameWords (h : SameData s t) : SameWords s t :=
  ⟨h.shared, h.memory, h.devices, h.clint⟩

/-- The caches are in order, and `x0` is 0. -/
structure InOrder (s : Simulator N n) (i : Fin N) : Prop where
  good : s.hierarchy.Good
  zero : (s.cores i).regs 0 = 0

/-- A fetch, translated or not. -/
theorem fetch_sameWords (hg : s.hierarchy.Good) (i : Fin N) (addr : Word) :
    (s.fetch i addr).2.hierarchy.Good ∧ SameWords s (s.fetch i addr).2 := by
  have hacc := s.fetch_accessed i addr
  have hh := (s.cacheTranslate_accessed i addr false true).2
  obtain ⟨hg', hs⟩ := Hierarchy.fetch_spec (hh ▸ hg) i (s.cacheTranslate i addr false true).1
  exact ⟨hg', hs.trans (congrArg Hierarchy.shared hh), hacc.memory, hacc.devices, hacc.clint⟩

/-- The state in which the fetched instruction executes. -/
theorem Fetches.sameWords {instr : Word} (h : s.Fetches i s₁ instr) (hs : s.InOrder i) :
    (s₁.fetchPc i).2.InOrder i ∧ SameWords s (s₁.fetchPc i).2 := by
  obtain ⟨hdata, hh⟩ := (SameButGate.prepare h.prepared).sameData
  obtain ⟨hg, hw⟩ := fetch_sameWords (hh ▸ hs.good) i (s₁.cores i).pc
  exact ⟨⟨hg, by rw [h.regs]; exact hs.zero⟩, hdata.sameWords.trans hw⟩

theorem Retired.sameWords {regs : Isa.Reg → Word} (h : Retired t i regs s') : SameWords t s' :=
  h.data.sameWords

theorem InOrder.retired {regs : Isa.Reg → Word} (hg : t.hierarchy.Good)
    (hr : Retired t i regs s') (h0 : regs 0 = 0) : s'.InOrder i :=
  ⟨hr.hierarchy ▸ hg, by rw [hr.regs]; exact h0⟩

/-- A core that does not execute. -/
theorem InOrder.idle {b : Bool} (hs : s.InOrder i) (hp : s.prepare i = .ok (b, s')) :
    s'.InOrder i ∧ SameWords s s' := by
  have hgate := SameButGate.prepare hp
  obtain ⟨hdata, hh⟩ := hgate.sameData
  exact ⟨⟨hh ▸ hs.good, by rw [hgate.regs]; exact hs.zero⟩, hdata.sameWords⟩

/-- A step without data access, with or without translation. -/
theorem InOrder.quietStep (hs : s.InOrder i) (h : s.QuietStep i s') :
    s'.InOrder i ∧ SameWords s s' := by
  rcases h.quiet with ⟨s'', hp⟩ | ⟨s₁, instr, hf, hq⟩
  · obtain rfl : s'' = s' := Except.ok.inj ((step_idle hp).symm.trans h.step)
    exact hs.idle hp
  · obtain ⟨hs₁, hw⟩ := hf.sameWords hs
    have hstep := hf.step_eq.symm.trans h.step
    rcases execute_quiet hq (s₁.fetchPc i).2 i with ⟨c, hc⟩ | ⟨e, he⟩
    · rw [hc] at hstep
      obtain rfl := Except.ok.inj hstep
      have hret := retire_retired (s₁.fetchPc i).2 i c
      exact ⟨.retired hs₁.good hret (Function.update_self ..), hw.trans hret.sameWords⟩
    · rw [he] at hstep
      cases hstep

/-- It keeps the page table. -/
theorem QuietStep.keepsSatp (h : s.QuietStep i s') : KeepsSatp i s s' := by
  rcases h.quiet with ⟨s'', hp⟩ | ⟨s₁, instr, hf, hq⟩
  · obtain rfl : s'' = s' := Except.ok.inj ((step_idle hp).symm.trans h.step)
    exact (prepare_keepsSatp hp).1
  · exact hf.step_keepsSatp h.step fun hw => hq.2.2.2 hw.1

/-! ## Accesses through the data cache -/

section
variable {h : Hierarchy N}

/-- The hierarchy after an access that has brought the line in. -/
theorem wordAt_touch {r : State WordAddr (Fin l1Geometry.numSets × Word) Word}
    (ht : Touch l1Geometry.line x (t.hierarchy.shared.seenBy i) r)
    (hs : h.shared = t.hierarchy.shared.set i r) :
    (t.setHierarchy h).wordAt i x = t.wordAt i x := by
  funext p
  cases p with
  | memory => rfl
  | dataCache =>
    show (h.shared.seenBy i).view x = _
    rw [hs, Shared.seenBy_set, ht.view_self]
    rfl
  | l2 =>
    show h.shared.memory x = _
    rw [hs]
    exact ht.memory_self

/-- A load through the data cache. -/
theorem load_wordAt (hg : t.hierarchy.Good) (i : Fin N) (x : WordAddr) :
    (t.hierarchy.load i (byteAddr x)).1 = t.wordAt i x .dataCache ∧
      (t.hierarchy.load i (byteAddr x)).2.Good ∧
      (t.setHierarchy (t.hierarchy.load i (byteAddr x)).2).wordAt i x = t.wordAt i x := by
  obtain ⟨hv, hg', r, hr, hs⟩ := Hierarchy.load_spec hg i x
  exact ⟨hv, hg', wordAt_touch hr hs⟩

/-- LR.W. -/
theorem readWord_wordAt (hg : t.hierarchy.Good) (i : Fin N) (x : WordAddr) :
    (t.hierarchy.readWord i (byteAddr x)).1 = t.wordAt i x .dataCache ∧
      (t.hierarchy.readWord i (byteAddr x)).2.Good ∧
      (t.setHierarchy (t.hierarchy.readWord i (byteAddr x)).2).wordAt i x = t.wordAt i x := by
  obtain ⟨hv, hg', r, hr, hs⟩ := Hierarchy.readWord_spec hg i x
  exact ⟨hv, hg', wordAt_touch hr hs⟩

/-- A store through the data cache, or past it to the same word. -/
theorem store_wordAt (hg : t.hierarchy.Good) (i : Fin N) {addr : Word} (x : WordAddr) (v : Word)
    (haddr : inPageTable addr = true → addr = byteAddr x) (hx : x.toNat < 0x10000000) :
    (t.hierarchy.store i addr (byteAddr x) v).Good ∧
      (t.setHierarchy (t.hierarchy.store i addr (byteAddr x) v)).wordAt i x .dataCache = v := by
  have hthrough : writeThroughAddr addr (byteAddr x) = none ∨
      writeThroughAddr addr (byteAddr x) = some (byteAddr x) := by
    unfold writeThroughAddr
    split
    · next hin => exact .inr (congrArg some (haddr hin))
    · split
      · exact .inr rfl
      · exact .inl rfl
  rcases hthrough with ha | ha
  · obtain ⟨hg', r, _, hs⟩ := Hierarchy.store_spec hg i x v ha hx
    refine ⟨hg', ?_⟩
    show ((t.hierarchy.store i addr (byteAddr x) v).shared.seenBy i).view x = v
    rw [hs, Shared.seenBy_set, store_view, Function.update_self]
  · obtain ⟨hg', hs⟩ := Hierarchy.store_through_spec hg i x v ha hx
    refine ⟨hg', ?_⟩
    show ((t.hierarchy.store i addr (byteAddr x) v).shared.seenBy i).view x = v
    rw [hs, Shared.seenBy_set, through_view_apply, if_pos rfl]

/-- SC.W. -/
theorem writeWord_wordAt (hg : t.hierarchy.Good) (i : Fin N) (x : WordAddr) (v : Word)
    (hx : x.toNat < 0x10000000) :
    (t.hierarchy.writeWord i (byteAddr x) v).Good ∧
      (t.setHierarchy (t.hierarchy.writeWord i (byteAddr x) v)).wordAt i x .dataCache = v := by
  obtain ⟨hg', r, _, hs⟩ := Hierarchy.writeWord_spec hg i x v hx
  refine ⟨hg', ?_⟩
  show ((t.hierarchy.writeWord i (byteAddr x) v).shared.seenBy i).view x = v
  rw [hs, Shared.seenBy_set]
  split
  · rw [storeBoth_view, Function.update_self]
  · rw [store_view, Function.update_self]

end

end Simulator
end RiscvEmulator.System
