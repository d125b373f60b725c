import RiscvEmulator.System.AtomicStep
import RiscvEmulator.System.CodeFetch
import RiscvEmulator.System.ZeroRegister

/-! # LR.W and SC.W

LR.W loads and makes no reservation; SC.W stores and reports success, whatever
the core and the others have done before. Loops that rely on a failing SC.W lose
updates. -/
namespace RiscvEmulator.System
open Memory Cores Isa Lib.LineCache

namespace Simulator
variable {N n : Nat} {s s₁ t : Simulator N n} {i : Fin N} {ord : OrderBits}
  {rs2 rs1 rd : Isa.Reg}

/-! ## Interleavings -/

/-- The cores take turns in any order, a turn being steps with aligned accesses and
translation off. -/
def Interleaved : Simulator N n → Simulator N n → Prop :=
  Relation.ReflTransGen fun s t => ∃ i, AlignedRun i s t

/-- What SC.W relies on, for every core. It says nothing of who has loaded or stored. -/
structure Calm (s : Simulator N n) : Prop where
  good : s.hierarchy.Good
  untranslated : ∀ i, s.Untranslated i
  zero : ∀ i, ZeroIsZero i s

theorem init_calm (ddr : DDRMemory) : (init N n ddr).Calm :=
  ⟨Hierarchy.init_good ddr, fun _ => rfl, fun _ => rfl⟩

theorem AlignedRun.zero (hrun : AlignedRun i s t) {j : Fin N} (h : ZeroIsZero j s) :
    ZeroIsZero j t := by
  induction hrun with
  | nil s => exact h
  | idle hp _ ih =>
    refine ih ?_
    by_cases hj : j = i
    · subst hj
      exact (congrFun (SameButGate.prepare hp).regs 0).trans h
    · exact (congrArg (fun c => Core.regs c 0) ((prepare_frame hp).others j hj)).trans h
  | step _ hstep _ _ _ ih => exact ih ((Happens.step i hstep).zero h)

/-- A turn of a core leaves the translation of the others alone. -/
theorem AlignedRun.mmus (hrun : AlignedRun i s t) {j : Fin N} (hj : j ≠ i) :
    t.mmus j = s.mmus j := by
  induction hrun with
  | nil s => rfl
  | idle hp _ ih => exact ih.trans ((gateMoves_stepMoves (prepare_moves hp)).aside.mmus j hj)
  | step _ hstep _ _ _ ih => exact ih.trans ((step_moves hstep).aside.mmus j hj)

theorem Calm.turn (h : s.Calm) (hrun : AlignedRun i s t) : t.Calm := by
  have hi := hrun.fetching ⟨h.good, h.untranslated i⟩
  refine ⟨hi.good, fun j => ?_, fun j => hrun.zero (h.zero j)⟩
  by_cases hj : j = i
  · exact hj ▸ hi.untranslated
  · unfold Untranslated
    rw [hrun.mmus hj]
    exact h.untranslated j

/-- Whatever the cores have done before, the next SC.W finds what it relies on. -/
theorem Interleaved.calm (hrun : Interleaved s t) (h : s.Calm) : t.Calm := by
  induction hrun with
  | refl => exact h
  | tail _ hturn ih => exact ih.turn hturn.choose_spec

/-! ## SC.W -/

theorem Untranslated.amoRam_sc (hu : t.Untranslated i) (rd : Cores.Reg) (addr v : Word) :
    t.amoRam i rd 0x03 addr v =
      (t.setHierarchy (t.hierarchy.writeWord i addr v)).finish i rd 0 :=
  congrArg (fun t : Simulator N n => t.finish i rd 0) (hu.dataWriteWord_eq addr v)

/-- Every SC.W on a cached word of RAM stores its operand and returns 0. -/
theorem storeConditional_succeeds (h : s.Fetches i s₁ (storeConditional ord rs2 rs1 rd))
    (hg : s.hierarchy.Good) (hu : s.Untranslated i) (hx0 : (s.cores i).regs 0 = 0)
    (ha : Aligned ((s.cores i).regs rs1)) (hc : hasDataCache ((s.cores i).regs rs1) = true)
    (hram : ((s.cores i).regs rs1).toNat < n) :
    ∃ s', s.step i = .ok s' ∧ (s'.cores i).regs = ((s.cores i).isaState.write rd 0).regs ∧
      s'.ramWord i ((s.cores i).regs rs1) = (s.cores i).regs rs2 := by
  obtain ⟨s', hs', hret⟩ := Fetches.step_atomicType h hu hx0 hram
    ((h.untranslated hu).amoRam_sc ..)
  obtain ⟨hgt, hdata⟩ := h.sameData hg hu
  refine ⟨s', hs', hret.regs, ?_⟩
  generalize (s.cores i).regs rs2 = v at hret ⊢
  generalize (s.cores i).regs rs1 = addr at ha hc hret ⊢
  rw [← byteAddr_wordOf ha] at hc hret ⊢
  obtain ⟨hg', u, _, hs⟩ := Hierarchy.writeWord_spec hgt i (wordOf addr) v (hasDataCache_word hc)
  rw [ramWord_cached hc (hret.hierarchy ▸ hg'), hret.hierarchy,
    setHierarchy_hierarchy, hs, Shared.seenBy_set]
  split
  · rw [storeBoth_view, Function.update_self]
  · rw [store_view, Function.update_self]

/-- Two cores with one increment loop body each, on the word at 0x50000. -/
def incrementLoops : Simulator 2 0x100000 :=
  loaded 2 0x100000 [loadReserved ⟨false, false⟩ 5 6, (Rv32i.opImm .addi 6 6 1).encode,
    storeConditional ⟨false, false⟩ 6 5 7] fun _ r =>
      if r = 5 then 0x50000 else if r = 7 then 9 else 0

theorem storeConditional_succeeds_alone :
    ∃ s', (loaded 1 0x100000 [storeConditional ⟨false, false⟩ 6 5 7] fun _ r =>
        if r = 5 then 0x50000 else if r = 6 then 4 else 0).step 0 = .ok s' ∧
      (s'.cores 0).regs 7 = 0 ∧ s'.ramWord 0 0x50000 = 4 := by
  obtain ⟨s₁, hf⟩ := loaded_fetches 1 0x100000
    (fun _ r => if r = 5 then 0x50000 else if r = 6 then 4 else 0) 0
    (storeConditional ⟨false, false⟩ 6 5 7)
  obtain ⟨s', hs', hregs, hword⟩ := storeConditional_succeeds hf (loaded_good ..)
    (loaded_untranslated ..) rfl (by decide) (by decide) (by decide)
  exact ⟨s', hs', congrFun hregs 7, hword⟩

/-- The SC.W of core 1 succeeds though core 0 has stored since its LR.W, and one
of the two increments is lost. -/
theorem sc_after_foreign_store :
    ([0, 1, 0, 1, 0, 1].foldlM step incrementLoops).toOption.map
      (fun s => ((s.cores 0).regs 7, (s.cores 1).regs 7, s.ramWord 1 0x50000)) =
        some (0, 0, 1) := by
  decide +kernel

end Simulator
end RiscvEmulator.System
