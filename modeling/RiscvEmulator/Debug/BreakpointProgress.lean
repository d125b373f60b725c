import RiscvEmulator.Debug.LastCommand
import RiscvEmulator.System.RunModes

/-! # Progress at a breakpoint

The step of a core that stands at a breakpoint waits for the loop that it enters. So a
command executes the instruction there once if it is the last, and not at all before the
next if there is one. -/
namespace RiscvEmulator.Debug
open RiscvEmulator.Memory RiscvEmulator.System RiscvEmulator.Lib.Transitions
open RiscvEmulator.Lib.Fold
open Simulator (core0)

variable {N n : Nat} {order : List Word → Word → List Word} {c c' : Config N n}
  {stack : List (Frame N)}

/-! ## With a command left -/

/-- The stacks on which core `i` has not come to its step, where the loop inside a step is
not left. -/
def Outside (i : Fin N) (active : Bool) : List (Frame N) → Prop
  | .step j :: _ => j ≠ i
  | .debugHook :: _ => False
  | _ :: .debugHook :: _ => active = true
  | _ => True

/-- Core `i` is at a breakpoint before its step, and there is a command for the loop that it
is going to enter. -/
structure Waits (i : Fin N) (pc : Word) (c : Config N n) : Prop where
  shape : Shape c.stack
  command : ¬NoCommand c.input
  flags : c.debugger.goesOn = false
  breakpoint : pc ∈ c.debugger.breakpoints
  stands : (c.emulation.cores i).pc = pc
  outside : Outside i c.debugger.active c.stack

theorem Caller.outside (h : Caller stack) (i : Fin N) (active : Bool) :
    Outside i active stack := by
  cases h <;> exact trivial

/-- Until the command is read, it does not come to its step. -/
theorem Waits.next {i : Fin N} {pc : Word} {event : Event N} (h : Waits i pc c)
    (hread : ∀ action, event ≠ .read action) (hnext : c.next order = some (event, c')) :
    Waits i pc c' ∧ event ≠ .executed i pc := by
  have hshape' : Shape c'.stack :=
    h.shape.next hnext fun action hevent _ => absurd hevent (hread action)
  have hsilent : (.silent : Event N) ≠ .executed i pc := by
    intro hevent
    cases hevent
  obtain ⟨hshape, hcommand, hflags, hbreak, hstands, houtside⟩ := id h
  generalize hst : c.stack = st at hshape
  rw [hst] at houtside
  cases hshape with
  | ended =>
    rw [next_ended hst] at hnext
    cases hnext
  | loop hf =>
    rcases next_loop hf hst hnext with
      ⟨rfl, rfl, _⟩ | ⟨rfl, _, g, input, hg, hiff, rfl⟩ | ⟨action, _, _, hevent, _⟩
    · exact ⟨⟨hshape', hcommand, hflags, hbreak, hstands, trivial⟩, hsilent⟩
    · have houtside' : Outside i c.debugger.active [g] := by
        cases g with
        | commandLoop | handled => exact trivial
        | _ => cases hg
      exact ⟨⟨hshape', hiff.not.mp hcommand, hflags, hbreak, hstands, houtside'⟩, hsilent⟩
    · exact absurd hevent (hread action)
  | @inner f caller hf hcaller j steps cores =>
    have hactive : c.debugger.active = true := by
      cases f with
      | commandLoop | handled => exact houtside
      | _ => cases hf
    rcases next_loop hf hst hnext with
      ⟨_, _, hleft⟩ | ⟨rfl, _, g, input, hg, hiff, rfl⟩ | ⟨action, _, _, hevent, _⟩
    · -- nothing takes it out of the loop inside
      rcases hleft with hleft | hleft | hleft
      · rw [hactive] at hleft
        cases hleft
      · rw [hleft] at hcommand
        exact absurd (fun _ hl => absurd hl List.not_mem_nil) hcommand
      · rw [hflags] at hleft
        cases hleft
    · have houtside' : Outside i c.debugger.active
          (g :: .debugHook :: .step j :: .cycle steps cores :: caller) := by
        cases g with
        | commandLoop | handled => exact hactive
        | _ => cases hg
      exact ⟨⟨hshape', hiff.not.mp hcommand, hflags, hbreak, hstands, houtside'⟩, hsilent⟩
    · exact absurd hevent (hread action)
  | cmdContinue =>
    obtain ⟨rfl, rfl | ⟨_, rfl⟩⟩ := next_cmdContinue hst hnext
    · exact ⟨⟨hshape', hcommand, hflags, hbreak, hstands, trivial⟩, hsilent⟩
    · exact ⟨⟨hshape', hcommand, hflags, hbreak, hstands, trivial⟩, hsilent⟩
  | debugRun hcaller steps =>
    obtain ⟨rfl, rfl | ⟨left, _, rfl⟩⟩ := next_debugRun hst hnext
    · exact ⟨⟨hshape', hcommand, hflags, hbreak, hstands, hcaller.outside i _⟩, hsilent⟩
    · refine ⟨⟨hshape', hcommand, hflags, hbreak, hstands, ?_⟩, hsilent⟩
      cases hcaller <;> exact trivial
  | cycle hcaller steps cores =>
    cases cores with
    | nil =>
      obtain ⟨rfl, rfl⟩ := next_cycleEnd hst hnext
      have hpc := (Simulator.endMoves_leftAlone (c.emulation.endDebugCycle_moves
        c.emulation.toSimulator) i).pc.trans hstands
      refine ⟨⟨hshape', hcommand, hflags, hbreak, hpc, ?_⟩, hsilent⟩
      cases hcaller <;> exact trivial
    | cons j cores =>
      obtain ⟨rfl, ⟨_, rfl⟩ | ⟨_, d, frames, hframes, rfl⟩⟩ := next_turn hst hnext
      · refine ⟨⟨hshape', hcommand, hflags, hbreak, hstands, ?_⟩, hsilent⟩
        cases hcaller <;> exact trivial
      · have hpc := (marked_core_pc c.emulation.toSimulator j i).1.trans hstands
        rcases hframes with ⟨rfl, rfl, hnot⟩ | ⟨rfl, rfl⟩
        · refine ⟨⟨hshape', hcommand, hflags, hbreak, hpc, ?_⟩, hsilent⟩
          rintro rfl
          exact hnot (hstands ▸ hbreak)
        · exact ⟨⟨hshape', hcommand, hflags, hbreak, hpc, rfl⟩, hsilent⟩
  | debugHook => exact houtside.elim
  | step hcaller j steps cores =>
    obtain ⟨t, ht, rfl, rfl⟩ := next_step hst hnext
    have hother : (t.checkInfiniteLoop j).cores i = c.emulation.cores i :=
      ((Simulator.step_frame ht).turnFrame.trans (t.checkInfiniteLoop_frame j)).others i
        (Ne.symm houtside)
    refine ⟨⟨hshape', hcommand, hflags, hbreak, (congrArg Cores.Core.pc hother).trans hstands, ?_⟩,
      fun hexec => houtside (executes_cases hexec).1⟩
    cases hcaller <;> exact trivial

theorem Waits.never {i : Fin N} {pc : Word} {ok : Config N n → Prop} {es : List (Event N)}
    (h : Waits i pc c) (hrun : Runs (Config.next order) ok c es c') (hfree : ReadFree es) :
    .executed i pc ∉ es := by
  induction hrun with
  | nil => exact List.not_mem_nil
  | @cons c event c' es c'' _ hnext _ ih =>
    have hread : ∀ action, event ≠ .read action := fun action hevent =>
      hfree action (hevent ▸ List.mem_cons_self)
    obtain ⟨hc', hevent⟩ := h.next hread hnext
    have hrest := ih hc' fun action hmem => hfree action (List.mem_cons_of_mem _ hmem)
    exact List.not_mem_cons_of_ne_of_not_mem hevent.symm hrest

/-! ## Progress -/

def Config.AtBreakpoint (c : Config N n) (i : Fin N) : Prop :=
  (c.emulation.cores i).pc ∈ c.debugger.breakpoints

/-- The outermost loop, as `main` enters it. -/
structure Outermost (c : Config N n) : Prop where
  stack : c.stack = [.commandLoop]
  flags : c.debugger.goesOn = false

/-- From here core `i` executes the instruction at `pc` before a command is read, and does not
execute it again before that. -/
def ExecutesOnce (order : List Word → Word → List Word) (ok : Config N n → Prop)
    (c : Config N n) (i : Fin N) (pc : Word) : Prop :=
  (∃ es c', Runs (Config.next order) Free c es c' ∧ ReadFree es ∧ .executed i pc ∈ es) ∧
    ∀ es c', Runs (Config.next order) ok c es c' → ReadFree es → es.count (.executed i pc) ≤ 1

/-- A command has a cycle to run, core `i` is ready to execute in this one, and does not
come back in the others. -/
structure CanExecute (c : Config N n) (action : Action) (i : Fin N) : Prop where
  runs : action ≠ .debugRun 0
  ready : Ready c.emulation i
  once : ∀ steps, action = .debugRun steps →
    Visits i (c.emulation.cores i).pc 1 steps.toNat c.emulation

/-- A command that has the cores run is read by the outermost loop, and one that is read with a
core at a breakpoint is the last and can execute there. No interrupt leads to a breakpoint. -/
structure Meets (order : List Word → Word → List Word) (c : Config N n) : Prop where
  outermost : ∀ action c', c.next order = some (.read action, c') → action ≠ .nothing →
    c.depth = 1
  last : ∀ action c', c.next order = some (.read action, c') → action ≠ .nothing →
    ∀ i, c.AtBreakpoint i → NoCommand c'.input ∧ CanExecute c action i
  noEntry : NoEntry c

theorem runs_shape {c₀ : Config N n} {es : List (Event N)} (hstart : Outermost c₀)
    (h : Runs (Config.next order) (Meets order) c₀ es c) : Shape c.stack ∧ FlagsRead c := by
  refine h.invariant (P := fun c => Shape c.stack ∧ FlagsRead c) ?_
    ⟨hstart.stack ▸ .loop rfl, flagsRead_of_clear hstart.flags⟩
  intro c event c' hc hmeets hnext
  refine ⟨hc.1.next hnext fun action hread ha => ?_, hc.2.next hc.1 hnext⟩
  exact hmeets.outermost action c' (hread ▸ hnext) ha

/-- What the outermost loop makes of a command that has the cores run. -/
theorem outermost_read {action : Action} (hshape : Shape c.stack) (hdepth : c.depth = 1)
    (ha : action ≠ .nothing) (hnext : c.next order = some (.read action, c')) :
    c.stack = [.commandLoop] ∧ ∃ steps caller, Caller (N := N) caller ∧
      action.frames ++ [.handled] = .debugRun steps :: caller ∧
        c' = ⟨c.emulation, c.debugger, c'.input, .debugRun steps :: caller⟩ := by
  obtain ⟨stack, d, input, hst, _, hd, rfl⟩ := next_read hnext
  obtain rfl := hd ha
  have hstack : stack = [] := by
    rw [hst] at hshape
    cases hshape with
    | loop => rfl
    | inner hf hcaller =>
      rw [Config.depth, hst, hcaller.countP_inner hf] at hdepth
      cases hdepth
  subst hstack
  refine ⟨hst, ?_⟩
  cases action with
  | nothing => exact absurd rfl ha
  | debugRun k => exact ⟨k.toNat, [.handled], .steps, rfl, rfl⟩
  | untilBreakpoint => exact ⟨1, [.cmdContinue, .handled], .untilBreakpoint, rfl, rfl⟩

/-- As the last command, it executes the instruction once. -/
theorem CanExecute.executesOnce {i : Fin N} {action : Action} {steps : Nat}
    (h : CanExecute c action i) (ha : action ≠ .nothing) (hcaller : Caller stack)
    (hframes : action.frames ++ [.handled] = .debugRun steps :: stack) {input : List String}
    (hquiet : NoCommand input) (hbreak : c.AtBreakpoint i) :
    ExecutesOnce order (Meets order)
      ⟨c.emulation, c.debugger, input, .debugRun steps :: stack⟩ i (c.emulation.cores i).pc := by
  have hsteps : steps ≠ 0 ∧ Visits i (c.emulation.cores i).pc 1 steps c.emulation := by
    cases action with
    | nothing => exact absurd rfl ha
    | debugRun k =>
      cases hframes
      exact ⟨fun h0 => h.runs (congrArg _ (BitVec.eq_of_toNat_eq h0)), h.once k rfl⟩
    | untilBreakpoint =>
      cases hframes
      refine ⟨Nat.one_ne_zero, 0, ?_, fun _ _ => trivial⟩
      unfold standing
      split <;> decide
  obtain ⟨left, rfl⟩ := Nat.exists_eq_succ_of_ne_zero hsteps.1
  refine ⟨h.ready.executes c.debugger hquiet left stack, fun es c' hrun _ => ?_⟩
  refine hrun.count_le (P := fun budget c₁ => Watched i (c.emulation.cores i).pc budget c₁)
    (fun budget c₁ event c₂ hc hmeets hnext => hc.next hmeets.noEntry hnext) ?_
  exact ⟨.debugRun hcaller _, hquiet, hbreak, hsteps.2⟩

/-- In a run that keeps to the condition there are at most two loops, and a command given
while a core is at a breakpoint executes the instruction there once before the next. A
command that another one follows does not, condition or not. -/
theorem breakpoint_progress (order : List Word → Word → List Word) {c₀ : Config N n}
    {es : List (Event N)} (hstart : Outermost c₀)
    (hrun : Runs (Config.next order) (Meets order) c₀ es c) :
    c.depth ≤ 2 ∧ ∀ action c', c.next order = some (.read action, c') → action ≠ .nothing →
      ∀ i, c.AtBreakpoint i →
        (Meets order c → ExecutesOnce order (Meets order) c' i (c.emulation.cores i).pc) ∧
        (c.depth = 1 → ¬NoCommand c'.input →
          ¬ExecutesOnce order Free c' i (c.emulation.cores i).pc) := by
  obtain ⟨hshape, hflags⟩ := runs_shape hstart hrun
  refine ⟨hshape.countP_isLoop_le, fun action c' hnext ha i hbreak => ⟨fun hmeets => ?_, ?_⟩⟩
  · obtain ⟨hquiet, hcan⟩ := hmeets.last action c' hnext ha i hbreak
    obtain ⟨_, steps, caller, hcaller, hframes, hc'⟩ :=
      outermost_read hshape (hmeets.outermost action c' hnext ha) ha hnext
    rw [hc']
    exact hcan.executesOnce ha hcaller hframes hquiet hbreak
  · rintro hdepth hcommand ⟨⟨es, c'', hruns, hfree, hmem⟩, _⟩
    obtain ⟨hst, steps, caller, hcaller, _, hc'⟩ := outermost_read hshape hdepth ha hnext
    have houtside : Outside i c.debugger.active (.debugRun steps :: caller) := by
      cases hcaller <;> exact trivial
    have hwaits : Waits i (c.emulation.cores i).pc c' := by
      rw [hc']
      exact ⟨.debugRun hcaller steps, hcommand, hflags.clear hst nofun nofun, hbreak, rfl, houtside⟩
    exact hwaits.never hruns hfree hmem

/-! ## One core over zeros -/

/-- A new breakpoint goes in front. -/
def inFront (breakpoints : List Word) (pc : Word) : List Word := pc :: breakpoints

/-- Its `pc` is 0, with a breakpoint. -/
def stopped (input : List String) (stack : List (Frame 1)) : Config 1 0x100000 :=
  ⟨Emulation.idle, ⟨[0], 0, false, false, true⟩, input, stack⟩

theorem stopped_atBreakpoint (input : List String) (stack : List (Frame 1)) (i : Fin 1) :
    (stopped input stack).AtBreakpoint i := List.mem_singleton.mpr rfl

theorem one_core : List.finRange 1 = [core0] := rfl

theorem stopped_read (input : List String) :
    (stopped ("step" :: input) [.commandLoop]).next inFront =
      some (.read (.debugRun 1), stopped input [.debugRun 1, .handled]) := by
  have hwords : tokenize "step" = ["step"] := by decide
  have hblank : isBlank "step" = false := by decide
  simp [stopped, Config.next, Config.commandLoop, hblank, hwords, Debugger.handleCommand,
    Debugger.cmdStep, Action.frames]

theorem idle_ready (i : Fin 1) : Ready Emulation.idle i := by
  obtain rfl : i = core0 := Subsingleton.elim i core0
  have hprepare : ((Emulation.idle.toSimulator.marked core0).prepare core0).toOption.map
      (fun r => (r.1, (r.2.cores core0).pc)) = some (true, 0) := by decide +kernel
  have hstep : ((Emulation.idle.toSimulator.marked core0).step core0).toOption.isSome := by
    decide +kernel
  refine ⟨Emulation.idle.toSimulator, ⟨[], [], rfl, rfl⟩, rfl, ?_, ?_⟩
  · obtain ⟨⟨executing, s⟩, hs, hfacts⟩ := Option.map_eq_some_iff.mp hprepare
    obtain ⟨rfl, hpc⟩ := Prod.mk.inj hfacts
    exact ⟨s, eq_ok_of_toOption hs, hpc⟩
  · obtain ⟨s, hs⟩ := Option.isSome_iff_exists.mp hstep
    exact ⟨s, eq_ok_of_toOption hs⟩

theorem stopped_meets : Meets inFront (stopped ["step"] [.commandLoop]) := by
  refine ⟨fun _ _ _ _ => rfl, fun action c' hnext _ i _ => ?_, fun i stack s hst => nomatch hst⟩
  rw [stopped_read] at hnext
  cases hnext
  refine ⟨fun _ hl => absurd hl List.not_mem_nil, by decide, idle_ready i, ?_⟩
  intro steps hsteps
  obtain rfl := Action.debugRun.inj hsteps
  refine ⟨0, ?_, fun _ _ => trivial⟩
  unfold standing
  split <;> decide

/-- The last `step`. -/
theorem last_step_executes : ExecutesOnce inFront (Meets inFront)
    (stopped [] [.debugRun 1, .handled]) core0 0 :=
  ((breakpoint_progress inFront ⟨rfl, rfl⟩ (.nil (stopped ["step"] [.commandLoop]))).2 _ _
    (stopped_read []) nofun core0 (stopped_atBreakpoint _ _ _)).1 stopped_meets

/-- The first `step` of two does not execute the instruction, and with every further one there is
another loop. -/
theorem steps_do_not_execute :
    (stopped ["step", "step"] [.commandLoop]).next inFront =
      some (.read (.debugRun 1), stopped ["step"] [.debugRun 1, .handled]) ∧
    ¬ExecutesOnce inFront Free (stopped ["step"] [.debugRun 1, .handled]) core0 0 ∧
    ∀ m, ∃ es c, Runs (Config.next inFront) Free
      (stopped (List.replicate m "step") [.commandLoop]) es c ∧ c.depth = m + 1 ∧
        es.count (.read (.debugRun 1)) = m ∧ ∀ j pc, Event.executed j pc ∉ es := by
  refine ⟨stopped_read ["step"], ?_, fun m => ?_⟩
  · rintro ⟨⟨es, c, hruns, hfree, hmem⟩, _⟩
    have hcommand : ¬NoCommand ["step"] := fun hquiet =>
      absurd (hquiet "step" List.mem_cons_self) (by decide)
    have hwaits : Waits core0 0 (stopped ["step"] [.debugRun 1, .handled]) :=
      ⟨.debugRun .steps 1, hcommand, rfl, List.mem_singleton.mpr rfl, rfl, trivial⟩
    exact hwaits.never hruns hfree hmem
  · obtain ⟨es, c, hruns, hdepth, hreads, hnone⟩ :=
      steps_nest inFront one_core (stopped [] []).emulation (stopped [] []).debugger m rfl
        (by decide) (List.mem_singleton.mpr rfl) []
    exact ⟨es, c, hruns, hdepth.trans (Nat.add_comm 1 m), hreads, hnone⟩

end RiscvEmulator.Debug
