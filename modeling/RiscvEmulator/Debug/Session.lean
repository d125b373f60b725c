import RiscvEmulator.Debug.BreakpointProgress

/-! # A session

What the commands of a session have the cores do, one after the other. The loop at a
breakpoint interrupts a turn, but as long as only the outermost loop has the cores run, each
command ends where it would without a debugger: whatever the breakpoints are, and whatever
else is asked for at them. -/
namespace RiscvEmulator.Debug
open RiscvEmulator.Memory RiscvEmulator.System RiscvEmulator.Lib.Transitions
open RiscvEmulator.Lib.Fold

variable {N n : Nat} {order : List Word → Word → List Word} {c c' : Config N n}
  {e e' e₀ : Emulation N n} {stack : List (Frame N)}

/-! ## Without a debugger -/

/-- How many cycles a command may have the cores go through. -/
def Action.Cycles : Action → Nat → Prop
  | .nothing, k => k = 0
  | .debugRun steps, k => k = steps.toNat
  | .untilBreakpoint, k => 0 < k

/-- The emulation that the commands lead to. -/
inductive Commanded (e₀ : Emulation N n) : List Action → Emulation N n → Prop
  | start : Commanded e₀ [] e₀
  | command {actions : List Action} {e e' : Emulation N n} {action : Action} {k : Nat} :
    Commanded e₀ actions e → action.Cycles k → e.debugLoop k = .ok e' →
      Commanded e₀ (actions ++ [action]) e'

theorem debugLoop_finished (h : e.allCoresFinished = true) (steps : Nat) :
    e.debugLoop steps = .ok e := by
  cases steps with
  | zero => rfl
  | succ steps =>
    rw [Emulation.debugLoop_succ, if_pos h]

theorem debugLoop_add {j : Nat} (h : e.debugLoop j = .ok e') (k : Nat) :
    e.debugLoop (j + k) = e'.debugLoop k := by
  induction j generalizing e with
  | zero =>
    cases h
    rw [Nat.zero_add]
  | succ j ih =>
    rw [Nat.succ_add, Emulation.debugLoop_succ]
    rw [Emulation.debugLoop_succ] at h
    by_cases hfinished : e.allCoresFinished = true
    · rw [if_pos hfinished] at h ⊢
      cases h
      exact (debugLoop_finished hfinished k).symm
    · rw [if_neg hfinished] at h ⊢
      obtain ⟨s, hs, hrest⟩ := bind_eq_ok h
      rw [hs]
      exact ih hrest

/-- The last command of a session. -/
theorem Commanded.last {actions : List Action} {action : Action}
    (h : Commanded e₀ (actions ++ [action]) e) :
    ∃ e₁ k, Commanded e₀ actions e₁ ∧ action.Cycles k ∧ e₁.debugLoop k = .ok e := by
  generalize hall : actions ++ [action] = all at h
  cases h with
  | start => simp at hall
  | command h hk hrun =>
    obtain ⟨rfl, heq⟩ := List.append_inj' hall rfl
    cases heq
    exact ⟨_, _, h, hk, hrun⟩

/-- All in all it is a run of so many cycles. -/
theorem Commanded.debugLoop {actions : List Action} (h : Commanded e₀ actions e) :
    ∃ k, e₀.debugLoop k = .ok e := by
  induction h with
  | start => exact ⟨0, rfl⟩
  | @command actions e e' action k _ _ hrun ih =>
    obtain ⟨j, hj⟩ := ih
    exact ⟨j + k, (debugLoop_add hj k).trans hrun⟩

/-! ## Through the loops -/

/-- Only the outermost loop has the cores run. -/
def OnlyOutermost (order : List Word → Word → List Word) (c : Config N n) : Prop :=
  ∀ action c', c.next order = some (.read action, c') → action ≠ .nothing → c.depth = 1

instance : DecidablePred (OnlyOutermost (N := N) (n := n) order) := fun c =>
  match h : c.next order with
  | some (.read action, c') => decidable_of_iff (action ≠ .nothing → c.depth = 1)
    ⟨fun hdepth _ _ hnext => by
      rw [h] at hnext
      cases hnext
      exact hdepth, fun hok => hok action c' h⟩
  | some (.silent, _) | some (.executed .., _) | none => isTrue fun _ _ hnext => by
    rw [h] at hnext
    cases hnext

/-- The commands that had the cores run. -/
def commandsOf (es : List (Event N)) : List Action :=
  es.filterMap fun event => match event with
    | .read .nothing => none
    | .read action => some action
    | _ => none

/-- What the frames above a caller still have the cores do, from one emulation to another. -/
def Remains (e e' : Emulation N n) : List (Frame N) → Prop
  | .commandLoop :: stack => Remains e e' stack
  | .handled :: stack => Remains e e' stack
  | .debugHook :: stack => Remains e e' stack
  | .debugRun steps :: _ => e.debugLoop steps = .ok e'
  | .cycle steps cores :: _ => ∃ s, cores.foldlM Simulator.executeCoreStep e.toSimulator = .ok s ∧
    (e.endDebugCycle s).debugLoop steps = .ok e'
  | .step i :: .cycle steps cores :: _ => ∃ t s, e.toSimulator.step i = .ok t ∧
    cores.foldlM Simulator.executeCoreStep (t.checkInfiniteLoop i) = .ok s ∧
      (e.endDebugCycle s).debugLoop steps = .ok e'
  | _ => False

/-- What a command is called from. -/
inductive CalledFor : List (Frame N) → Action → Prop
  | steps (steps : Word) : CalledFor [.handled] (.debugRun steps)
  | untilBreakpoint : CalledFor [.cmdContinue, .handled] .untilBreakpoint

/-- The stacks in a call of `debug_run`. -/
inductive Above (caller : List (Frame N)) : List (Frame N) → Prop
  | debugRun (steps : Nat) : Above caller (.debugRun steps :: caller)
  | cycle (steps : Nat) (cores : List (Fin N)) : Above caller (.cycle steps cores :: caller)
  | step (i : Fin N) (steps : Nat) (cores : List (Fin N)) :
    Above caller (.step i :: .cycle steps cores :: caller)
  | debugHook (i : Fin N) (steps : Nat) (cores : List (Fin N)) :
    Above caller (.debugHook :: .step i :: .cycle steps cores :: caller)
  | inner {f : Frame N} (hf : f.isLoop = true) (i : Fin N) (steps : Nat) (cores : List (Fin N)) :
    Above caller (f :: .debugHook :: .step i :: .cycle steps cores :: caller)

/-- The emulation on the way of a session: between commands, or where what remains leads to
the end of the last one. -/
inductive Follows (e₀ : Emulation N n) : List Action → Emulation N n → List (Frame N) → Prop
  | ended {actions : List Action} {e : Emulation N n} (h : Commanded e₀ actions e) :
    Follows e₀ actions e []
  | loop {actions : List Action} {e : Emulation N n} {f : Frame N} (hf : f.isLoop = true)
      (h : Commanded e₀ actions e) : Follows e₀ actions e [f]
  | cmdContinue {actions : List Action} {e : Emulation N n}
      (h : Commanded e₀ (actions ++ [.untilBreakpoint]) e) :
    Follows e₀ (actions ++ [.untilBreakpoint]) e [.cmdContinue, .handled]
  | running {actions : List Action} {action : Action} {k : Nat} {e e₁ : Emulation N n}
      {caller stack : List (Frame N)} (h : Commanded e₀ actions e₁) (hk : action.Cycles k)
      (hcaller : CalledFor caller action) (hstack : Above caller stack)
      (hremains : ∀ e', Remains e e' stack → e₁.debugLoop k = .ok e') :
    Follows e₀ (actions ++ [action]) e stack

theorem CalledFor.caller {action : Action} (h : CalledFor stack action) : Caller stack := by
  cases h with
  | steps => exact .steps
  | untilBreakpoint => exact .untilBreakpoint

theorem remains_loop {f : Frame N} (hf : f.isLoop = true) (stack : List (Frame N)) :
    Remains e e' (f :: stack) ↔ Remains e e' stack := by
  cases f with
  | commandLoop | handled => rw [Remains]
  | _ => cases hf

/-- `debug_run` ends with the steps or the cores, or has a cycle before it. -/
theorem next_debugRun_cases {event : Event N} {steps : Nat}
    (hst : c.stack = .debugRun steps :: stack) (h : c.next order = some (event, c')) :
    event = .silent ∧
      (c' = { c with stack := stack } ∧ c.emulation.debugLoop steps = .ok c.emulation ∨
      ∃ left, steps = left + 1 ∧ c.emulation.allCoresFinished = false ∧
        c' = { c with stack := .cycle left (List.finRange N) :: stack }) := by
  simp only [Config.next, hst, Option.some.injEq] at h
  cases h
  refine ⟨rfl, ?_⟩
  unfold Config.debugRun
  cases steps with
  | zero => exact .inl ⟨rfl, rfl⟩
  | succ left =>
    dsimp only
    split
    · next hfinished => exact .inl ⟨rfl, debugLoop_finished hfinished _⟩
    · next hgoes => exact .inr ⟨left, rfl, Bool.eq_false_of_not_eq_true hgoes, rfl⟩

/-- A finished call goes back to where it was called from. -/
theorem Follows.back {actions : List Action} {action : Action} {k : Nat} {e₁ : Emulation N n}
    {caller : List (Frame N)} (h : Commanded e₀ actions e₁) (hk : action.Cycles k)
    (hcaller : CalledFor caller action) (hrun : e₁.debugLoop k = .ok e) :
    Follows e₀ (actions ++ [action]) e caller := by
  have hdone : Commanded e₀ (actions ++ [action]) e := .command h hk hrun
  cases hcaller with
  | steps => exact .loop rfl hdone
  | untilBreakpoint => exact .cmdContinue hdone

/-- Where the cores run, no command is read, or one that does not have them run. -/
theorem Follows.next_running {actions : List Action} {action : Action} {k : Nat}
    {e₁ : Emulation N n} {caller : List (Frame N)} {event : Event N} (h : Commanded e₀ actions e₁)
    (hk : action.Cycles k) (hcaller : CalledFor caller action) (hstack : Above caller c.stack)
    (hremains : ∀ e', Remains c.emulation e' c.stack → e₁.debugLoop k = .ok e')
    (hok : OnlyOutermost order c) (hnext : c.next order = some (event, c')) :
    commandsOf [event] = [] ∧ Follows e₀ (actions ++ [action]) c'.emulation c'.stack := by
  have hrunning : ∀ {stack : List (Frame N)} {e : Emulation N n}, Above caller stack →
      (∀ e', Remains e e' stack → Remains c.emulation e' c.stack) →
        Follows e₀ (actions ++ [action]) e stack := fun hstack' hrem =>
    .running h hk hcaller hstack' fun e' he' => hremains e' (hrem e' he')
  generalize hst : c.stack = st at hstack hremains hrunning
  cases hstack with
  | debugRun steps =>
    obtain ⟨rfl, ⟨rfl, hrun⟩ | ⟨left, rfl, hgoes, rfl⟩⟩ := next_debugRun_cases hst hnext
    · exact ⟨rfl, .back h hk hcaller (hremains _ hrun)⟩
    · refine ⟨rfl, hrunning (.cycle left _) fun e' hrem => ?_⟩
      obtain ⟨s, hs, hrest⟩ := hrem
      show c.emulation.debugLoop (left + 1) = .ok e'
      rw [Emulation.debugLoop_succ, hgoes, Simulator.coresStep, hs]
      exact hrest
  | cycle steps cores =>
    cases cores with
    | nil =>
      obtain ⟨rfl, rfl⟩ := next_cycleEnd hst hnext
      exact ⟨rfl, hrunning (.debugRun steps) fun e' hrem => ⟨_, rfl, hrem⟩⟩
    | cons i cores =>
      obtain ⟨rfl, ⟨hskip, rfl⟩ | ⟨henters, d, frames, hframes, rfl⟩⟩ := next_turn hst hnext
      · refine ⟨rfl, hrunning (.cycle steps cores) fun e' hrem => ?_⟩
        obtain ⟨s, hs, hrest⟩ := hrem
        refine ⟨s, ?_, hrest⟩
        rw [List.foldlM_cons, Simulator.executeCoreStep_skips hskip]
        exact hs
      · -- with or without the loop at a breakpoint, the step is to come
        have hstep : ∀ e', Remains
            { c.emulation with toSimulator := c.emulation.toSimulator.marked i } e'
              (.step i :: .cycle steps cores :: caller) →
            Remains c.emulation e' (.cycle steps (i :: cores) :: caller) := by
          rintro e' ⟨t, s, ht, hs, hrest⟩
          refine ⟨s, ?_, hrest⟩
          rw [List.foldlM_cons, Simulator.executeCoreStep_enters henters, ht]
          exact hs
        rcases hframes with ⟨rfl, _⟩ | ⟨rfl, _⟩
        · exact ⟨rfl, hrunning (.step i steps cores) hstep⟩
        · exact ⟨rfl, hrunning (.inner rfl i steps cores) hstep⟩
  | step i steps cores =>
    obtain ⟨t, ht, rfl, rfl⟩ := next_step hst hnext
    refine ⟨?_, hrunning (.cycle steps cores) fun e' hrem => ?_⟩
    · unfold commandsOf Config.executes
      split <;> rfl
    · obtain ⟨s, hs, hrest⟩ := hrem
      exact ⟨t, s, ht, hs, hrest⟩
  | debugHook i steps cores =>
    obtain ⟨rfl, rfl⟩ := next_debugHook hst hnext
    exact ⟨rfl, hrunning (.step i steps cores) fun _ hrem => hrem⟩
  | inner hf i steps cores =>
    have hinner : ∀ {g : Frame N}, g.isLoop = true → ∀ e',
        Remains c.emulation e' (g :: .debugHook :: .step i :: .cycle steps cores :: caller) →
          Remains c.emulation e' (_ :: .debugHook :: .step i :: .cycle steps cores :: caller) :=
      fun hg e' hrem => (remains_loop hf _).mpr ((remains_loop hg _).mp hrem)
    rcases next_loop hf hst hnext with
      ⟨rfl, rfl, _⟩ | ⟨rfl, _, g, input, hg, _, rfl⟩ | ⟨act, d, input, rfl, _, _, _, rfl⟩
    · exact ⟨rfl, hrunning (.debugHook i steps cores) fun e' hrem => (remains_loop hf _).mpr hrem⟩
    · exact ⟨rfl, hrunning (.inner hg i steps cores) (hinner hg)⟩
    · by_cases ha : act = .nothing
      · subst ha
        exact ⟨rfl, hrunning (.inner rfl i steps cores) (hinner rfl)⟩
      · have hdepth := hok act _ hnext ha
        rw [Config.depth, hst, hcaller.caller.countP_inner hf] at hdepth
        cases hdepth

theorem Follows.next {actions : List Action} {event : Event N}
    (h : Follows e₀ actions c.emulation c.stack) (hok : OnlyOutermost order c)
    (hnext : c.next order = some (event, c')) :
    Follows e₀ (actions ++ commandsOf [event]) c'.emulation c'.stack := by
  have hsilent : event = .silent → Follows e₀ actions c'.emulation c'.stack →
      Follows e₀ (actions ++ commandsOf [event]) c'.emulation c'.stack := by
    rintro rfl hc'
    exact (List.append_nil actions).symm ▸ hc'
  generalize hst : c.stack = st at h
  generalize he : c.emulation = e at h
  cases h with
  | ended h =>
    rw [next_ended hst] at hnext
    cases hnext
  | loop hf h =>
    subst he
    rcases next_loop hf hst hnext with
      ⟨hevent, rfl, _⟩ | ⟨hevent, _, g, input, hg, _, rfl⟩ | ⟨action, d, input, rfl, _, _, _, rfl⟩
    · exact hsilent hevent (.ended h)
    · exact hsilent hevent (.loop hg h)
    · cases action with
      | nothing => exact (List.append_nil actions).symm ▸ .loop rfl h
      | debugRun steps => exact .running h rfl (.steps steps) (.debugRun _) fun _ hrun => hrun
      | untilBreakpoint =>
        exact .running h Nat.one_pos .untilBreakpoint (.debugRun 1) fun _ hrun => hrun
  | @cmdContinue actions e h =>
    subst he
    obtain ⟨hevent, rfl | ⟨_, rfl⟩⟩ := next_cmdContinue hst hnext
    · exact hsilent hevent (.loop rfl h)
    · -- one cycle more
      obtain ⟨e₁, k, h, _, hrun⟩ := h.last
      refine hsilent hevent (.running h (Nat.succ_pos k) .untilBreakpoint (.debugRun 1) ?_)
      intro e' hrem
      exact (debugLoop_add hrun 1).trans hrem
  | running h hk hcaller hstack hremains =>
    subst he
    obtain ⟨hnone, hc'⟩ :=
      Follows.next_running h hk hcaller (hst ▸ hstack) (hst ▸ hremains) hok hnext
    rw [hnone, List.append_nil]
    exact hc'

theorem commandsOf_cons (event : Event N) (es : List (Event N)) :
    commandsOf (event :: es) = commandsOf [event] ++ commandsOf es :=
  List.filterMap_append (l := [event])

theorem Follows.runs {actions : List Action} {es : List (Event N)}
    (h : Follows e₀ actions c.emulation c.stack)
    (hrun : Runs (Config.next order) (OnlyOutermost order) c es c') :
    Follows e₀ (actions ++ commandsOf es) c'.emulation c'.stack := by
  induction hrun generalizing actions with
  | nil => exact (List.append_nil actions).symm ▸ h
  | @cons c event c₁ es c' hok hnext _ ih =>
    rw [commandsOf_cons, ← List.append_assoc]
    exact ih (h.next hok hnext)

/-- Between commands nothing remains to be done. -/
theorem Follows.prompt {actions : List Action} (h : Follows e₀ actions e stack)
    (hprompt : stack = [] ∨ ∃ f, stack = [f] ∧ f.isLoop = true) : Commanded e₀ actions e := by
  cases h with
  | ended h => exact h
  | loop _ h => exact h
  | cmdContinue h => simp at hprompt
  | running h hk hcaller hstack hremains =>
    have hlength : 2 ≤ stack.length := by
      cases hcaller <;> cases hstack <;> simp
    rcases hprompt with rfl | ⟨f, rfl, _⟩
    · exact absurd hlength (by simp)
    · exact absurd hlength (by simp)

/-- Along a run in which only the outermost loop has the cores run, the emulation goes where
the commands lead it without a debugger: it is there whenever the outermost loop reads. -/
theorem session_refines (order : List Word → Word → List Word) {c₀ : Config N n}
    {es : List (Event N)} (hstart : c₀.stack = [.commandLoop])
    (hrun : Runs (Config.next order) (OnlyOutermost order) c₀ es c)
    (hprompt : c.stack = [] ∨ ∃ f, c.stack = [f] ∧ f.isLoop = true) :
    Commanded c₀.emulation (commandsOf es) c.emulation := by
  have hfollows : Follows c₀.emulation [] c₀.emulation c₀.stack := hstart ▸ .loop rfl .start
  exact (hfollows.runs hrun).prompt hprompt

/-- The cores run for `step`, and `break` is given in the loop at the breakpoint. -/
def insideStep : Config 1 0x100000 := stopped ["step", "break 0x20"] [.commandLoop]

theorem session_refines_step : ∃ (es : List (Event 1)) (c : Config 1 0x100000),
    Runs (Config.next inFront) (OnlyOutermost inFront) insideStep es c ∧
      .read .nothing ∈ es ∧ c.debugger.breakpoints = [0x20, 0] ∧
      commandsOf es = [.debugRun 1] ∧ Commanded Emulation.idle (commandsOf es) c.emulation := by
  have hrun : Runs (Config.next inFront) (OnlyOutermost inFront) insideStep
      (advance (Config.next inFront) 11 insideStep).1
      (advance (Config.next inFront) 11 insideStep).2 := runs_advance (by decide +kernel)
  have hprompt :
      (advance (Config.next inFront) 11 insideStep).2.stack.map Frame.isLoop = [true] := by
    decide +kernel
  exact ⟨_, _, hrun, by decide +kernel, by decide +kernel, by decide +kernel,
    session_refines inFront rfl hrun (.inr (List.map_eq_singleton_iff.mp hprompt))⟩

end RiscvEmulator.Debug
