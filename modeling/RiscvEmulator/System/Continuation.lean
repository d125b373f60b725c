import RiscvEmulator.System.BootSafety
import RiscvEmulator.System.StepMoves

/-! # What may follow

The steps of one core in any order with what the rest of the simulator does: turns of
the other cores, ticks of the timer, and the release. The rest touches nothing that
the core fetches with. -/
namespace RiscvEmulator.System
open Memory Cores Interrupt

namespace Simulator
variable {N n : Nat} {s s' t u v : Simulator N n} {i j : Fin N}

/-! ## Turns -/

theorem checkInfiniteLoop_moves (s : Simulator N n) (i : Fin N) :
    StepMoves i s (s.checkInfiniteLoop i) := by
  have hfetch : Accesses i True s (s.fetch i (s.cores i).pc).2 := s.fetch_moves i (s.cores i).pc
  unfold checkInfiniteLoop
  simp only
  split
  · exact hfetch.stepMoves.core _
  · exact hfetch.stepMoves

theorem executeCoreStep_moves (h : s.executeCoreStep i = .ok s') : StepMoves i s s' := by
  rcases executeCoreStep_cases h with ⟨_, rfl⟩ | ⟨t, hstep, rfl⟩
  · exact .refl _ i
  · have hmark : StepMoves i s (s.marked i) := (StepMoves.refl s i).core _
    exact (hmark.trans (step_moves hstep)).trans (t.checkInfiniteLoop_moves i)

/-! ## The rest of the simulator -/

/-- What happens beside the steps of core `i`. -/
inductive Meanwhile (i : Fin N) (s : Simulator N n) : Simulator N n → Prop
  | turn {t : Simulator N n} (j : Fin N) (hj : j ≠ i) (h : s.executeCoreStep j = .ok t) :
    Meanwhile i s t
  | tick : Meanwhile i s s.updateTimer
  | releaseAllCores : Meanwhile i s s.releaseAllCores
  | releaseCores : Meanwhile i s s.releaseCores

/-- The core is as it was, but for the mark that it has booted, and so is what it
fetches with. -/
structure LeftAlone (i : Fin N) (s t : Simulator N n) : Prop where
  core : ∃ booted, t.cores i = { s.cores i with hasBooted := booted }
  mmu : t.mmus i = s.mmus i
  icache : t.hierarchy.l1Icaches i = s.hierarchy.l1Icaches i

theorem Meanwhile.leftAlone (h : Meanwhile i s t) : LeftAlone i s t := by
  cases h with
  | turn j hj h =>
    have haside := (executeCoreStep_moves h).aside
    have hcore := (executeCoreStep_frame h).others i hj.symm
    exact ⟨⟨_, hcore⟩, haside.mmus i hj.symm, haside.icaches i hj.symm⟩
  | tick => exact ⟨⟨_, rfl⟩, rfl, rfl⟩
  | releaseAllCores =>
    refine ⟨?_, rfl, rfl⟩
    by_cases hi : i.val = 0
    · exact ⟨(s.cores i).hasBooted, if_pos hi⟩
    · exact ⟨true, if_neg hi⟩
  | releaseCores => exact ⟨⟨_, rfl⟩, rfl, rfl⟩

theorem LeftAlone.pc (h : LeftAlone i s t) : (t.cores i).pc = (s.cores i).pc := by
  obtain ⟨booted, hcore⟩ := h.core
  rw [hcore]

theorem LeftAlone.waits (h : LeftAlone i s t) :
    (t.cores i).isWaitingForInterrupt = (s.cores i).isWaitingForInterrupt := by
  obtain ⟨booted, hcore⟩ := h.core
  rw [hcore]

theorem LeftAlone.refl (s : Simulator N n) (i : Fin N) : LeftAlone i s s := ⟨⟨_, rfl⟩, rfl, rfl⟩

theorem LeftAlone.trans (h : LeftAlone i s t) (h' : LeftAlone i t u) : LeftAlone i s u := by
  obtain ⟨booted, hcore⟩ := h.core
  obtain ⟨booted', hcore'⟩ := h'.core
  exact ⟨⟨booted', by rw [hcore', hcore]⟩, h'.mmu.trans h.mmu, h'.icache.trans h.icache⟩

/-- What may come after `t`, in which core `i` steps only where `steps` holds. -/
inductive Continues (i : Fin N) (steps : Simulator N n → Prop) (t : Simulator N n) :
    Simulator N n → Prop
  | start : Continues i steps t t
  | meanwhile {u v : Simulator N n} :
    Continues i steps t u → Meanwhile i u v → Continues i steps t v
  | step {u v : Simulator N n} : Continues i steps t u → steps u → u.step i = .ok v →
    Continues i steps t v

/-- What holds at first, and is kept by the steps and by the rest, holds from then on. -/
theorem Continues.invariant {steps P : Simulator N n → Prop} (h : Continues i steps t u)
    (hrest : ∀ u v, P u → LeftAlone i u v → P v)
    (hstep : ∀ u v, P u → steps u → u.step i = .ok v → P v) (ht : P t) : P u := by
  induction h with
  | start => exact ht
  | meanwhile _ hmove ih => exact hrest _ _ ih hmove.leftAlone
  | step _ hsteps hok ih => exact hstep _ _ ih hsteps hok

/-! ## The end of a cycle -/

/-- What comes after the cores' steps, a part at a time. -/
inductive EndMove (s : Simulator N n) : Simulator N n → Prop
  | tick : EndMove s s.updateTimer
  | releaseAllCores : EndMove s s.releaseAllCores
  | releaseCores : EndMove s s.releaseCores

theorem EndMove.meanwhile (h : EndMove s t) : Meanwhile i s t := by
  cases h with
  | tick => exact .tick
  | releaseAllCores => exact .releaseAllCores
  | releaseCores => exact .releaseCores

theorem endMoves_leftAlone (h : Relation.ReflTransGen EndMove s t) (i : Fin N) :
    LeftAlone i s t := by
  induction h with
  | refl => exact .refl s i
  | tail _ hmove ih => exact ih.trans hmove.meanwhile.leftAlone

end Simulator

namespace Emulation
variable {N n : Nat} {e e' : Emulation N n} {signal : Bool}
open Simulator (EndMove)

theorem release_moves {s : Simulator N n} (hs : e.toSimulator = s) (currentCycle : Nat) :
    Relation.ReflTransGen EndMove s (e.release currentCycle).toSimulator := by
  subst hs
  have hall : Relation.ReflTransGen EndMove e.toSimulator e.releaseAllCores :=
    .single .releaseAllCores
  unfold release handleReleaseSignal
  split
  · exact hall
  · exact hall.tail .releaseCores

theorem endDebugCycle_moves (e : Emulation N n) (s : Simulator N n) :
    Relation.ReflTransGen EndMove s (e.endDebugCycle s).toSimulator := by
  have htick : Relation.ReflTransGen EndMove s s.updateTimer := .single .tick
  unfold endDebugCycle checkReleaseSignal
  simp only
  split
  · split <;> split
    · exact (release_moves (by rfl) 0).tail .tick
    · exact htick
    · exact (release_moves (by rfl) 0).tail .tick
    · exact htick
  · exact htick

theorem Cycle.ends (h : Cycle e signal e') :
    ∃ s, e.coresStep = .ok s ∧ Relation.ReflTransGen EndMove s e'.toSimulator := by
  have htick : ∀ s : Simulator N n, Relation.ReflTransGen EndMove s s.updateTimer :=
    fun _ => .single .tick
  cases h with
  | @run s currentCycle hs =>
    refine ⟨s, hs, ?_⟩
    unfold endRunCycle checkReleaseSignal
    simp only
    split <;> split
    · exact ((htick s).trans (release_moves (by rfl) currentCycle)).tail .tick
    · exact (htick s).tail .tick
    · exact ((htick s).trans (release_moves (by rfl) currentCycle)).tail .tick
    · exact (htick s).tail .tick
  | @debug s hs => exact ⟨s, hs, endDebugCycle_moves e s⟩

theorem Cycle.leftAlone (h : Cycle e signal e') (i : Fin N) :
    ∃ s, e.coresStep = .ok s ∧ s.LeftAlone i e'.toSimulator := by
  obtain ⟨s, hs, hmoves⟩ := h.ends
  exact ⟨s, hs, Simulator.endMoves_leftAlone hmoves i⟩

end Emulation
end RiscvEmulator.System
