import RiscvEmulator.System.CoreFrame

/-! # The moves of a step

A step of a core is made of its accesses and of changes of the core, its page table
base, the boot flags and the shared counters. None of these is a tick of the
timer, and none touches the MMU or the instruction cache of another core. -/
namespace RiscvEmulator.System
open Memory Cores Interrupt

namespace Simulator
variable {N n : Nat} {s s' t u : Simulator N n} {i j : Fin N}

/-- What a step of core `i` does at a time. -/
inductive StepMove (i : Fin N) (s : Simulator N n) : Simulator N n → Prop
  | access {t : Simulator N n} (h : AccessMove i True s t) : StepMove i s t
  | core (c : Core) : StepMove i s (s.setCore i c)
  | flags (flags : Fin N → Bool) : StepMove i s { s with coreBootedFlags := flags }
  | counters (counters : GlobalCounters) : StepMove i s { s with counters := counters }
  | base (base : Word) : StepMove i s
    { s with mmus := Function.update s.mmus i ((s.mmus i).setPageTableBase base) }

/-- The moves one after another. -/
def StepMoves (i : Fin N) : Simulator N n → Simulator N n → Prop :=
  Relation.ReflTransGen (StepMove i)

theorem StepMoves.refl (s : Simulator N n) (i : Fin N) : StepMoves i s s :=
  Relation.ReflTransGen.refl

theorem StepMoves.trans (h : StepMoves i s t) (h' : StepMoves i t u) : StepMoves i s u :=
  Relation.ReflTransGen.trans h h'

theorem StepMove.moves (h : StepMove i s t) : StepMoves i s t := .single h

theorem StepMoves.core (h : StepMoves i s t) (c : Core) : StepMoves i s (t.setCore i c) :=
  h.trans (StepMove.core c).moves

theorem StepMoves.next (h : StepMoves i s t) : StepMoves i s (exitState (t.next i)) := h.core _

theorem Accesses.stepMoves {direct : Prop} (h : Accesses i direct s t) : StepMoves i s t := by
  induction h with
  | refl => exact .refl s i
  | tail _ hmove ih =>
    refine ih.trans (StepMove.access ?_).moves
    cases hmove with
    | translate addr w instruction => exact .translate addr w instruction
    | fetch addr => exact .fetch addr
    | data lv => exact .data lv
    | device p write _ => exact .device p write trivial
    | clint addr value _ => exact .clint addr value trivial
    | memory m _ => exact .memory m trivial

theorem Moved.stepMoves {direct : Prop} (h : Moved i direct s t) : StepMoves i s t := by
  obtain ⟨u, c, hu, rfl, _⟩ := h
  exact hu.stepMoves.core c

/-! ## SYSTEM -/

theorem writeCsr_moves (s : Simulator N n) (i : Fin N) (a : BitVec 12) (v : Word) :
    StepMoves i s (s.writeCsr i a v) := by
  have hcore := (StepMoves.refl s i).core ((s.cores i).writeCsr a v)
  unfold writeCsr
  simp only
  split
  · exact hcore.trans (StepMove.base _).moves
  · split
    · exact hcore.trans (StepMove.counters _).moves
    · exact hcore

theorem SystemLeaves.moves {instr old : Word} {e : Exit (Simulator N n)}
    (h : SystemLeaves i instr old s e) : StepMoves i s (exitState e) := by
  have hs := StepMoves.refl s i
  cases h with
  | mret => exact hs.core _
  | ecall => exact hs.core _
  | skip => exact (hs.core _).next
  | update => exact ((hs.core _).trans (writeCsr_moves ..)).next
  | unknown => exact hs.next

theorem system_moves (s : Simulator N n) (i : Fin N) (instr : Word) :
    StepMoves i s (exitState (s.system i instr)) :=
  ((StepMoves.refl s i).core _).trans (s.system_leaves i instr).moves

theorem execute_moves {instr : Word} {e : Exit (Simulator N n)} (h : s.execute i instr = .ok e) :
    StepMoves i s (exitState e) := by
  by_cases hsystem : opcode instr = 0x73
  · rw [execute_system hsystem] at h
    obtain rfl := Except.ok.inj h
    exact s.system_moves i instr
  · exact (execute_moved hsystem h).stepMoves

/-! ## The step -/

theorem GateMove.stepMoves (h : GateMove i s t) : StepMoves i s t := by
  cases h with
  | interrupt => exact (StepMoves.refl s i).core _
  | boot flags => exact ((StepMoves.refl s i).core _).trans (StepMove.flags flags).moves
  | look waits => exact (StepMoves.refl s i).core _

theorem gateMoves_stepMoves (h : Relation.ReflTransGen (GateMove i) s t) : StepMoves i s t := by
  induction h with
  | refl => exact .refl s i
  | tail _ hmove ih => exact ih.trans hmove.stepMoves

theorem retire_moves (e : Exit (Simulator N n)) : StepMoves i (exitState e) (retire i e) := by
  cases e with
  | fault t => exact .refl t i
  | done t => exact ((StepMoves.refl t i).core _).trans (StepMove.counters _).moves

theorem step_moves (h : s.step i = .ok s') : StepMoves i s s' := by
  rcases step_cases h with hp | ⟨s₁, instr, e, hf, he, rfl⟩
  · exact gateMoves_stepMoves (prepare_moves hp)
  · have hfetch : Accesses i True s₁ (s₁.fetchPc i).2 := s₁.fetch_moves i (s₁.cores i).pc
    exact (((gateMoves_stepMoves (prepare_moves hf.prepared)).trans hfetch.stepMoves).trans
      (execute_moves he)).trans (retire_moves e)

/-! ## What the moves leave alone -/

/-- Nothing that other cores fetch with, and not the time. -/
structure Aside (i : Fin N) (s t : Simulator N n) : Prop where
  mtime : t.clint.mtime = s.clint.mtime
  mmus : ∀ j, j ≠ i → t.mmus j = s.mmus j
  icaches : ∀ j, j ≠ i → t.hierarchy.l1Icaches j = s.hierarchy.l1Icaches j

theorem Aside.refl (s : Simulator N n) (i : Fin N) : Aside i s s :=
  ⟨rfl, fun _ _ => rfl, fun _ _ => rfl⟩

theorem Aside.trans (h : Aside i s t) (h' : Aside i t u) : Aside i s u :=
  ⟨h'.mtime.trans h.mtime, fun j hj => (h'.mmus j hj).trans (h.mmus j hj),
    fun j hj => (h'.icaches j hj).trans (h.icaches j hj)⟩

/-- Four bytes do not get at `mtime`. -/
theorem register_ne_mtime (addr : BitVec 64) : CLINT.register N addr 4 ≠ some .mtime := by
  intro h
  unfold CLINT.register at h
  simp only at h
  split at h
  · obtain ⟨k, _, hk⟩ := Option.map_eq_some_iff.mp h
    cases hk
  · split at h
    · obtain ⟨k, _, hk⟩ := Option.map_eq_some_iff.mp h
      cases hk
    · split at h
      · next hoffset => exact absurd hoffset.2 (by decide)
      · cases h

theorem write_mtime (c : CLINT N) (addr value : BitVec 64) :
    (c.write addr value 4).mtime = c.mtime := by
  have hne := register_ne_mtime (N := N) addr
  unfold CLINT.write
  cases hr : CLINT.register N addr 4 with
  | none => rfl
  | some r =>
    cases r with
    | msip k => rfl
    | mtimecmp k => rfl
    | mtime => exact absurd hr hne

theorem AccessMove.aside {direct : Prop} (h : AccessMove i direct s t) : Aside i s t := by
  cases h with
  | translate addr w instruction =>
    exact ⟨rfl, fun j hj => Function.update_of_ne hj .., fun _ _ => rfl⟩
  | fetch addr => exact ⟨rfl, fun _ _ => rfl, fun j hj => Function.update_of_ne hj ..⟩
  | data lv => exact ⟨rfl, fun _ _ => rfl, fun _ _ => rfl⟩
  | device p write _ => exact ⟨rfl, fun _ _ => rfl, fun _ _ => rfl⟩
  | clint addr value _ => exact ⟨write_mtime .., fun _ _ => rfl, fun _ _ => rfl⟩
  | memory m _ => exact ⟨rfl, fun _ _ => rfl, fun _ _ => rfl⟩

theorem StepMove.aside (h : StepMove i s t) : Aside i s t := by
  cases h with
  | access h => exact h.aside
  | core c => exact ⟨rfl, fun _ _ => rfl, fun _ _ => rfl⟩
  | flags flags => exact ⟨rfl, fun _ _ => rfl, fun _ _ => rfl⟩
  | counters counters => exact ⟨rfl, fun _ _ => rfl, fun _ _ => rfl⟩
  | base base => exact ⟨rfl, fun j hj => Function.update_of_ne hj .., fun _ _ => rfl⟩

theorem StepMoves.aside (h : StepMoves i s t) : Aside i s t := by
  induction h with
  | refl => exact .refl s i
  | tail _ hmove ih => exact ih.trans hmove.aside

end Simulator
end RiscvEmulator.System
