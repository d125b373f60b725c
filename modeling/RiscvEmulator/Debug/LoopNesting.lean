import RiscvEmulator.Debug.CommandLoop
import RiscvEmulator.Lib.Transitions
import RiscvEmulator.System.BootSafety

/-! # How command loops nest

A core's step at a breakpoint enters the loop inside the command that asked for the
step. As long as the inner loop has no core run, there are at most two; a `step` given
there opens the next one. -/
namespace RiscvEmulator.Debug
open RiscvEmulator.Memory RiscvEmulator.System RiscvEmulator.Lib.Transitions

variable {N n : Nat} {order : List Word → Word → List Word} {c c' : Config N n} {e : Event N}
  {f : Frame N} {stack : List (Frame N)}

/-- The frames of `command_loop`. -/
def Frame.isLoop : Frame N → Bool
  | .commandLoop | .handled => true
  | _ => false

/-- How many calls of `command_loop` there are. -/
def Config.depth (c : Config N n) : Nat := c.stack.countP Frame.isLoop

/-- Nothing is left but lines without a word. -/
def NoCommand (input : List String) : Prop := ∀ line ∈ input, tokenize line = []

/-- A flag takes `command_loop` out of its loop after a command. -/
def Debugger.goesOn (d : Debugger) : Bool := d.continueExecution || d.stepMode

theorem words_blank {cs : List Char}
    (h : (cs.all fun c => c == ' ' || c == '\t' || c == '\r' || c == '\n') = true) :
    words [] cs = [] := by
  induction cs with
  | nil => rfl
  | cons c cs ih =>
    rw [List.all_cons, Bool.and_eq_true] at h
    have hspace : isSpace c = true := by
      have hc := h.1
      simp only [Bool.or_eq_true, beq_iff_eq] at hc
      rcases hc with ((rfl | rfl) | rfl) | rfl <;> decide
    rw [words, if_pos hspace, if_pos rfl]
    exact ih h.2

/-- The loop skips no command. -/
theorem tokenize_blank {line : String} (h : isBlank line = true) : tokenize line = [] :=
  words_blank h

theorem commandLoop_cases (order : List Word → Word → List Word) (c : Config N n)
    (stack : List (Frame N)) :
    (c.debugger.active = false ∨ c.input = []) ∧
        c.commandLoop order stack = (.silent, { c with stack := stack }) ∨
      ∃ line input, c.input = line :: input ∧
        (tokenize line = [] ∧ c.commandLoop order stack = (.silent, { c with input := input }) ∨
        tokenize line = [] ∧ c.commandLoop order stack =
          (.silent, { c with input := input, stack := .handled :: stack }) ∨
        tokenize line ≠ [] ∧ ∃ d action,
          c.debugger.handleCommand order (tokenize line) = (d, action) ∧
          c.commandLoop order stack = (.read action, { c with
            debugger := d
            input := input
            stack := action.frames ++ .handled :: stack })) := by
  unfold Config.commandLoop
  split
  · next hleft => exact .inl ⟨.inl (Bool.not_eq_true' _ ▸ hleft), rfl⟩
  · cases hin : c.input with
    | nil => exact .inl ⟨.inr rfl, rfl⟩
    | cons line input =>
      refine .inr ⟨line, input, rfl, ?_⟩
      simp only
      split
      · next hblank => exact .inl ⟨tokenize_blank hblank, rfl⟩
      · by_cases hw : tokenize line = []
        · refine .inr (.inl ⟨hw, ?_⟩)
          rw [hw, if_pos rfl]
          rfl
        · refine .inr (.inr ⟨hw, (c.debugger.handleCommand order (tokenize line)).1,
            (c.debugger.handleCommand order (tokenize line)).2, rfl, ?_⟩)
          rw [if_neg hw]

theorem noCommand_cons {line : String} {input : List String} :
    NoCommand (line :: input) ↔ tokenize line = [] ∧ NoCommand input :=
  List.forall_mem_cons

theorem handleCommand_runs {d d' : Debugger} {tokens : List String} {action : Action}
    (h : d.handleCommand order tokens = (d', action)) (ha : action ≠ .nothing) : d' = d := by
  cases tokens with
  | nil =>
    cases h
    exact absurd rfl ha
  | cons command args =>
    simp only [Debugger.handleCommand] at h
    repeat' split at h
    all_goals
      cases h
      first
        | rfl
        | exact absurd rfl ha

/-- What `command_loop` does next: it is left, it goes on, or it reads a command. One that has
the cores run leaves the debugger as it is. -/
theorem next_loop (hf : f.isLoop = true) (hst : c.stack = f :: stack)
    (h : c.next order = some (e, c')) :
    (e = .silent ∧ c' = { c with stack := stack } ∧
        (c.debugger.active = false ∨ c.input = [] ∨ c.debugger.goesOn = true)) ∨
      (e = .silent ∧ (f = .commandLoop ∨ c.debugger.goesOn = false) ∧
        ∃ (g : Frame N) (input : List String), g.isLoop = true ∧
          (NoCommand c.input ↔ NoCommand input) ∧
            c' = { c with input := input, stack := g :: stack }) ∨
      ∃ action d input, e = .read action ∧ f = .commandLoop ∧ ¬NoCommand c.input ∧
        (action ≠ .nothing → d = c.debugger) ∧ c' = { c with
          debugger := d
          input := input
          stack := action.frames ++ .handled :: stack } := by
  cases f with
  | commandLoop =>
    simp only [Config.next, hst, Option.some.injEq] at h
    rcases commandLoop_cases order c stack with
      ⟨hleft, hr⟩ | ⟨line, input, hin, ⟨hw, hr⟩ | ⟨hw, hr⟩ | ⟨hw, d, action, hcommand, hr⟩⟩
    · rw [hr] at h
      cases h
      exact .inl ⟨rfl, rfl, hleft.imp_right .inl⟩
    · rw [hr] at h
      cases h
      rw [hin, noCommand_cons, and_iff_right hw]
      exact .inr (.inl ⟨rfl, .inl rfl, .commandLoop, input, rfl, Iff.rfl, by rw [← hst]⟩)
    · rw [hr] at h
      cases h
      rw [hin, noCommand_cons, and_iff_right hw]
      exact .inr (.inl ⟨rfl, .inl rfl, .handled, input, rfl, Iff.rfl, rfl⟩)
    · rw [hr] at h
      cases h
      rw [hin, noCommand_cons]
      exact .inr (.inr ⟨action, d, input, rfl, rfl, fun hquiet => hw hquiet.1,
        handleCommand_runs hcommand, rfl⟩)
  | handled =>
    simp only [Config.next, hst, Option.some.injEq] at h
    unfold Config.handled at h
    split at h
    · next hflags =>
      cases h
      exact .inl ⟨rfl, rfl, .inr (.inr hflags)⟩
    · next hflags =>
      cases h
      exact .inr (.inl ⟨rfl, .inr (Bool.eq_false_of_not_eq_true hflags), .commandLoop, c.input,
        rfl, Iff.rfl, rfl⟩)
  | _ => cases hf

theorem next_ended (hst : c.stack = []) : c.next order = none := by
  unfold Config.next
  rw [hst]

/-- `cmd_continue` ends, or has the cores run, none of which is then at a breakpoint. -/
theorem next_cmdContinue (hst : c.stack = .cmdContinue :: stack)
    (h : c.next order = some (e, c')) :
    e = .silent ∧ (c' = { c with stack := stack } ∨ c.breakpointHit = false ∧
      c' = { c with stack := .debugRun 1 :: .cmdContinue :: stack }) := by
  simp only [Config.next, hst, Option.some.injEq] at h
  cases h
  refine ⟨rfl, ?_⟩
  unfold Config.cmdContinue
  split
  · exact .inl rfl
  · next hgoes =>
    rw [Bool.or_eq_true, not_or, Bool.not_eq_true] at hgoes
    exact .inr ⟨hgoes.1, rfl⟩

theorem next_debugRun {steps : Nat} (hst : c.stack = .debugRun steps :: stack)
    (h : c.next order = some (e, c')) :
    e = .silent ∧ (c' = { c with stack := stack } ∨ ∃ left, steps = left + 1 ∧
      c' = { c with stack := .cycle left (List.finRange N) :: stack }) := by
  simp only [Config.next, hst, Option.some.injEq] at h
  cases h
  refine ⟨rfl, ?_⟩
  unfold Config.debugRun
  split
  · exact .inl rfl
  · next left =>
    split
    · exact .inl rfl
    · exact .inr ⟨left, rfl, rfl⟩

theorem next_cycleEnd {steps : Nat} (hst : c.stack = .cycle steps [] :: stack)
    (h : c.next order = some (e, c')) :
    e = .silent ∧ c' = { c with
      emulation := c.emulation.endDebugCycle c.emulation.toSimulator
      stack := .debugRun steps :: stack } := by
  simp only [Config.next, hst, Option.some.injEq] at h
  cases h
  exact ⟨rfl, rfl⟩

theorem next_debugHook (hst : c.stack = .debugHook :: stack) (h : c.next order = some (e, c')) :
    e = .silent ∧ c' = { c with debugger := c.debugger.clearStepMode, stack := stack } := by
  simp only [Config.next, hst, Option.some.injEq] at h
  cases h
  exact ⟨rfl, rfl⟩

theorem marked_core_pc (s : Simulator N n) (i j : Fin N) :
    ((s.marked i).cores j).pc = (s.cores j).pc ∧
      ((s.marked i).cores j).hasFinished = (s.cores j).hasFinished := by
  unfold Simulator.marked
  by_cases hj : j = i
  · rw [hj, Simulator.setCore_cores_self]
    exact ⟨rfl, rfl⟩
  · rw [Simulator.setCore_cores_other s i _ hj]
    exact ⟨rfl, rfl⟩

/-- The turn of core `i` is passed over, comes to its step, or is stopped at a breakpoint. -/
theorem next_turn {i : Fin N} {cores : List (Fin N)} {steps : Nat}
    (hst : c.stack = .cycle steps (i :: cores) :: stack) (h : c.next order = some (e, c')) :
    e = .silent ∧
      (c.emulation.entersStep i = false ∧ c' = { c with stack := .cycle steps cores :: stack } ∨
      c.emulation.entersStep i = true ∧ ∃ (d : Debugger) (frames : List (Frame N)),
        (frames = [] ∧ d = c.debugger ∧ (c.emulation.cores i).pc ∉ c.debugger.breakpoints ∨
          frames = [.commandLoop, .debugHook] ∧
            d = { c.debugger with focusCore := i.val, active := true }) ∧
        c' = { c with
          emulation := { c.emulation with toSimulator := c.emulation.toSimulator.marked i }
          debugger := d
          stack := frames ++ .step i :: .cycle steps cores :: stack }) := by
  simp only [Config.next, hst, Config.cycle, Option.some.injEq] at h
  cases h
  refine ⟨rfl, ?_⟩
  unfold Config.turn
  cases henter : c.emulation.entersStep i with
  | false => exact .inl ⟨rfl, rfl⟩
  | true =>
    refine .inr ⟨rfl, ?_⟩
    rw [if_pos rfl]
    simp only
    split
    · exact ⟨_, _, .inr ⟨rfl, rfl⟩, rfl⟩
    · next hpc =>
      rw [Debugger.shouldBreak, List.contains_iff_mem] at hpc
      have hmarked := (marked_core_pc c.emulation.toSimulator i i).1
      unfold Simulator.marked at hmarked
      rw [hmarked] at hpc
      exact ⟨_, _, .inl ⟨rfl, rfl, hpc⟩, rfl⟩

/-- A step that does not abort. -/
theorem next_step {i : Fin N} (hst : c.stack = .step i :: stack)
    (h : c.next order = some (e, c')) :
    ∃ s, c.emulation.toSimulator.step i = .ok s ∧
      e = Config.executes c.emulation.toSimulator i ∧
      c' = { c with
        emulation := { c.emulation with toSimulator := s.checkInfiniteLoop i }
        stack := stack } := by
  simp only [Config.next, hst, Config.step] at h
  cases hs : c.emulation.toSimulator.step i with
  | error a =>
    rw [hs] at h
    cases h
  | ok s =>
    rw [hs] at h
    cases h
    exact ⟨s, rfl, rfl, rfl⟩

/-! ## The stack -/

/-- What remains of the outermost loop and its command once the cores have run. -/
inductive Caller : List (Frame N) → Prop
  | steps : Caller [.handled]
  | untilBreakpoint : Caller [.cmdContinue, .handled]

/-- The stacks with at most one loop inside another: a core's step may have entered the
inner one. -/
inductive Shape : List (Frame N) → Prop
  | ended : Shape []
  | loop {f : Frame N} (hf : f.isLoop = true) : Shape [f]
  | cmdContinue : Shape [.cmdContinue, .handled]
  | debugRun {caller : List (Frame N)} (h : Caller caller) (steps : Nat) :
    Shape (.debugRun steps :: caller)
  | cycle {caller : List (Frame N)} (h : Caller caller) (steps : Nat) (cores : List (Fin N)) :
    Shape (.cycle steps cores :: caller)
  | step {caller : List (Frame N)} (h : Caller caller) (i : Fin N) (steps : Nat)
      (cores : List (Fin N)) : Shape (.step i :: .cycle steps cores :: caller)
  | debugHook {caller : List (Frame N)} (h : Caller caller) (i : Fin N) (steps : Nat)
      (cores : List (Fin N)) : Shape (.debugHook :: .step i :: .cycle steps cores :: caller)
  | inner {f : Frame N} {caller : List (Frame N)} (hf : f.isLoop = true) (h : Caller caller)
      (i : Fin N) (steps : Nat) (cores : List (Fin N)) :
    Shape (f :: .debugHook :: .step i :: .cycle steps cores :: caller)

theorem Caller.shape (h : Caller stack) : Shape stack := by
  cases h with
  | steps => exact .loop rfl
  | untilBreakpoint => exact .cmdContinue

theorem Caller.countP_isLoop (h : Caller stack) : stack.countP Frame.isLoop = 1 := by
  cases h <;> rfl

theorem Caller.countP_inner (h : Caller stack) (hf : f.isLoop = true) (i : Fin N) (steps : Nat)
    (cores : List (Fin N)) :
    (f :: .debugHook :: .step i :: .cycle steps cores :: stack).countP Frame.isLoop = 2 := by
  rw [List.countP_cons_of_pos hf]
  exact congrArg (· + 1) h.countP_isLoop

theorem Shape.countP_isLoop_le (h : Shape stack) : stack.countP Frame.isLoop ≤ 2 := by
  have hone : 1 ≤ 2 := by decide
  cases h with
  | ended => exact Nat.zero_le 2
  | loop hf =>
    rw [List.countP_cons_of_pos hf]
    exact hone
  | cmdContinue => exact hone
  | debugRun h => exact h.countP_isLoop.trans_le hone
  | cycle h => exact h.countP_isLoop.trans_le hone
  | step h => exact h.countP_isLoop.trans_le hone
  | debugHook h => exact h.countP_isLoop.trans_le hone
  | inner hf h => exact (h.countP_inner hf _ _ _).le

/-- Where only the outermost loop reads a command that has the cores run, no loop comes to
stand inside another two. -/
theorem Shape.next (hs : Shape c.stack) (h : c.next order = some (e, c'))
    (houter : ∀ action, e = .read action → action ≠ .nothing → c.depth = 1) : Shape c'.stack := by
  generalize hst : c.stack = st at hs
  cases hs with
  | ended =>
    rw [next_ended hst] at h
    cases h
  | loop hf =>
    rcases next_loop hf hst h with
      ⟨_, rfl, _⟩ | ⟨_, _, g, input, hg, _, rfl⟩ | ⟨action, d, input, _, _, _, _, rfl⟩
    · exact .ended
    · exact .loop hg
    · cases action with
      | nothing => exact .loop rfl
      | debugRun steps => exact .debugRun .steps _
      | untilBreakpoint => exact .debugRun .untilBreakpoint 1
  | cmdContinue =>
    obtain ⟨_, rfl | ⟨_, rfl⟩⟩ := next_cmdContinue hst h
    · exact .loop rfl
    · exact .debugRun .untilBreakpoint 1
  | debugRun hcaller steps =>
    obtain ⟨_, rfl | ⟨left, _, rfl⟩⟩ := next_debugRun hst h
    · exact hcaller.shape
    · exact .cycle hcaller left _
  | cycle hcaller steps cores =>
    cases cores with
    | nil =>
      obtain ⟨_, rfl⟩ := next_cycleEnd hst h
      exact .debugRun hcaller steps
    | cons i cores =>
      obtain ⟨_, ⟨_, rfl⟩ | ⟨_, d, frames, ⟨rfl, _⟩ | ⟨rfl, _⟩, rfl⟩⟩ := next_turn hst h
      · exact .cycle hcaller steps cores
      · exact .step hcaller i steps cores
      · exact .inner rfl hcaller i steps cores
  | step hcaller i steps cores =>
    obtain ⟨s, _, _, rfl⟩ := next_step hst h
    exact .cycle hcaller steps cores
  | debugHook hcaller i steps cores =>
    obtain ⟨_, rfl⟩ := next_debugHook hst h
    exact .step hcaller i steps cores
  | inner hf hcaller i steps cores =>
    rcases next_loop hf hst h with
      ⟨_, rfl, _⟩ | ⟨_, _, g, input, hg, _, rfl⟩ | ⟨action, d, input, he, _, _, _, rfl⟩
    · exact .debugHook hcaller i steps cores
    · exact .inner hg hcaller i steps cores
    · by_cases ha : action = .nothing
      · subst ha
        exact .inner rfl hcaller i steps cores
      · have hdepth := houter action he ha
        rw [Config.depth, hst, hcaller.countP_inner hf] at hdepth
        cases hdepth

/-! ## The flags -/

/-- A flag is set only until `command_loop` or the step reads it. -/
def FlagsRead (c : Config N n) : Prop :=
  c.debugger.goesOn = true → ∀ f stack, c.stack = f :: stack → f = .handled ∨ f = .debugHook

theorem FlagsRead.clear (h : FlagsRead c) (hst : c.stack = f :: stack) (hf : f ≠ .handled)
    (hf' : f ≠ .debugHook) : c.debugger.goesOn = false := by
  refine Bool.eq_false_of_not_eq_true fun hgoes => ?_
  rcases h hgoes f stack hst with hf'' | hf''
  · exact hf hf''
  · exact hf' hf''

theorem flagsRead_of_clear (h : c.debugger.goesOn = false) : FlagsRead c :=
  fun hgoes => absurd hgoes (Bool.eq_false_iff.mp h)

theorem FlagsRead.next_loop (h : FlagsRead c) (hf : f.isLoop = true) (hst : c.stack = f :: stack)
    (hbelow : ∀ g stack', stack = g :: stack' → g = .debugHook)
    (hnext : c.next order = some (e, c')) : FlagsRead c' := by
  rcases Debug.next_loop hf hst hnext with
    ⟨_, rfl, _⟩ | ⟨_, hf', g, input, _, _, rfl⟩ | ⟨action, d, input, _, rfl, _, hd, rfl⟩
  · exact fun _ g stack' hst' => .inr (hbelow g stack' hst')
  · rcases hf' with rfl | hclear
    · exact flagsRead_of_clear (h.clear hst nofun nofun)
    · exact flagsRead_of_clear hclear
  · by_cases ha : action = .nothing
    · subst ha
      exact fun _ g stack' hst' => .inl (List.cons.inj hst').1.symm
    · rw [hd ha]
      exact flagsRead_of_clear (h.clear hst nofun nofun)

theorem FlagsRead.next (h : FlagsRead c) (hs : Shape c.stack)
    (hnext : c.next order = some (e, c')) : FlagsRead c' := by
  generalize hst : c.stack = st at hs
  cases hs with
  | ended =>
    rw [next_ended hst] at hnext
    cases hnext
  | loop hf => exact h.next_loop hf hst (fun _ _ hnone => nomatch hnone) hnext
  | inner hf =>
    exact h.next_loop hf hst (fun _ _ hbelow => (List.cons.inj hbelow).1.symm) hnext
  | cmdContinue =>
    have hclear := h.clear hst nofun nofun
    obtain ⟨_, rfl | ⟨_, rfl⟩⟩ := next_cmdContinue hst hnext
    · exact flagsRead_of_clear hclear
    · exact flagsRead_of_clear hclear
  | debugRun =>
    have hclear := h.clear hst nofun nofun
    obtain ⟨_, rfl | ⟨_, _, rfl⟩⟩ := next_debugRun hst hnext
    · exact flagsRead_of_clear hclear
    · exact flagsRead_of_clear hclear
  | cycle _ _ cores =>
    have hclear := h.clear hst nofun nofun
    cases cores with
    | nil =>
      obtain ⟨_, rfl⟩ := next_cycleEnd hst hnext
      exact flagsRead_of_clear hclear
    | cons i cores =>
      obtain ⟨_, ⟨_, rfl⟩ | ⟨_, d, frames, ⟨rfl, rfl, _⟩ | ⟨rfl, rfl⟩, rfl⟩⟩ := next_turn hst hnext
      · exact flagsRead_of_clear hclear
      · exact flagsRead_of_clear hclear
      · exact flagsRead_of_clear hclear
  | step =>
    have hclear := h.clear hst nofun nofun
    obtain ⟨_, _, _, rfl⟩ := next_step hst hnext
    exact flagsRead_of_clear hclear
  | debugHook =>
    obtain ⟨_, rfl⟩ := next_debugHook hst hnext
    exact flagsRead_of_clear rfl

/-! ## A loop inside the loop inside the loop -/

theorem entersStep_unfinished {s : Simulator N n} {i : Fin N} (h : s.entersStep i = true) :
    (s.cores i).hasFinished = false := by
  simp only [Simulator.entersStep, Bool.and_eq_true, Bool.not_eq_true'] at h
  exact h.1

theorem entersStep_marked {s : Simulator N n} {i : Fin N} (h : s.entersStep i = true) :
    (s.marked i).entersStep i = true := by
  have hcore := (marked_core_pc s i i).2.trans (entersStep_unfinished h)
  unfold Simulator.entersStep
  rw [hcore, Simulator.marked, Simulator.setCore_cores_self]
  rfl

/-- `step` with the first core at a breakpoint comes to the next command without a step. -/
theorem step_nests {i : Fin N} {cores : List (Fin N)} (hfirst : List.finRange N = i :: cores)
    {em : Emulation N n} {d : Debugger} {input : List String} (hactive : d.active = true)
    (henters : em.entersStep i = true) (hbreak : (em.cores i).pc ∈ d.breakpoints) :
    Runs (Config.next order) Free ⟨em, d, "step" :: input, .commandLoop :: stack⟩
      [.read (.debugRun 1), .silent, .silent]
      ⟨{ em with toSimulator := em.toSimulator.marked i },
        { d with focusCore := i.val }, input,
        .commandLoop :: .debugHook :: .step i :: .cycle 0 cores :: .handled :: stack⟩ := by
  have hread : Config.next order ⟨em, d, "step" :: input, .commandLoop :: stack⟩ =
      some (.read (.debugRun 1), ⟨em, d, input, .debugRun 1 :: .handled :: stack⟩) := by
    have hwords : tokenize "step" = ["step"] := by decide
    have hblank : isBlank "step" = false := by decide
    simp [Config.next, Config.commandLoop, hactive, hblank, hwords, Debugger.handleCommand,
      Debugger.cmdStep, Action.frames]
  have hunfinished : em.allCoresFinished = false := by
    unfold Simulator.allCoresFinished
    rw [hfirst, List.all_cons, entersStep_unfinished henters]
    rfl
  have hrun : Config.next order ⟨em, d, input, .debugRun 1 :: .handled :: stack⟩ =
      some (.silent, ⟨em, d, input, .cycle 0 (i :: cores) :: .handled :: stack⟩) := by
    simp [Config.next, Config.debugRun, hunfinished, hfirst]
  have hstop : Config.next order ⟨em, d, input, .cycle 0 (i :: cores) :: .handled :: stack⟩ =
      some (.silent, ⟨{ em with toSimulator := em.toSimulator.marked i },
        { d with focusCore := i.val }, input,
        .commandLoop :: .debugHook :: .step i :: .cycle 0 cores :: .handled :: stack⟩) := by
    simp [Config.next, Config.cycle, Config.turn, henters, Debugger.shouldBreak, hbreak,
      hactive, Simulator.marked]
  exact .cons trivial hread (.cons trivial hrun (.single trivial hstop))

/-- So every further `step` opens another loop. -/
theorem steps_nest (order : List Word → Word → List Word) {i : Fin N} {cores : List (Fin N)}
    (hfirst : List.finRange N = i :: cores) (em : Emulation N n) (d : Debugger) (m : Nat)
    (hactive : d.active = true) (henters : em.entersStep i = true)
    (hbreak : (em.cores i).pc ∈ d.breakpoints) (stack : List (Frame N)) :
    ∃ es c, Runs (Config.next order) Free ⟨em, d, List.replicate m "step", .commandLoop :: stack⟩
      es c ∧ c.depth = stack.countP Frame.isLoop + 1 + m ∧ es.count (.read (.debugRun 1)) = m ∧
      ∀ j pc, Event.executed j pc ∉ es := by
  induction m generalizing em d stack with
  | zero =>
    refine ⟨[], _, .nil _, ?_, rfl, fun _ _ => List.not_mem_nil⟩
    exact List.countP_cons_of_pos rfl
  | succ m ih =>
    let marked : Emulation N n := { em with toSimulator := em.toSimulator.marked i }
    have henters' : marked.entersStep i = true := entersStep_marked henters
    have hbreak' : (marked.cores i).pc ∈ d.breakpoints :=
      (marked_core_pc em.toSimulator i i).1 ▸ hbreak
    have hactive' : { d with focusCore := i.val }.active = true := hactive
    obtain ⟨es, c, hrun, hdepth, hreads, hnone⟩ := ih marked _ hactive' henters' hbreak'
      (.debugHook :: .step i :: .cycle 0 cores :: .handled :: stack)
    refine ⟨_, c, (step_nests hfirst hactive henters hbreak).trans hrun, ?_, ?_,
      fun j pc hmem => ?_⟩
    · have hinner : (Frame.debugHook :: .step i :: .cycle 0 cores :: .handled :: stack).countP
          Frame.isLoop = stack.countP Frame.isLoop + 1 := by
        simp [List.countP_cons, Frame.isLoop]
      rw [hdepth, hinner]
      omega
    · rw [List.count_append, hreads]
      exact Nat.add_comm 1 m
    · rcases List.mem_append.mp hmem with hmem | hmem
      · simp at hmem
      · exact hnone j pc hmem

end RiscvEmulator.Debug
