import RiscvEmulator.Debug.LoopNesting

/-! # The last command

With no command left, the loop that a step enters at a breakpoint is left at once, and the
cores run as without a debugger: a core that is ready executes, and no more often than its
cycles begin with it there. -/
namespace RiscvEmulator.Debug
open RiscvEmulator.Memory RiscvEmulator.System RiscvEmulator.Lib.Transitions
open RiscvEmulator.Lib.Fold

variable {N n : Nat} {order : List Word → Word → List Word} {c c' : Config N n}
  {e e' e'' : Emulation N n} {stack stack' stack'' : List (Frame N)}

/-- No command has been read. -/
def ReadFree (es : List (Event N)) : Prop := ∀ action, Event.read action ∉ es

theorem ReadFree.nil : ReadFree ([] : List (Event N)) := fun _ => List.not_mem_nil

theorem ReadFree.append {es es' : List (Event N)} (h : ReadFree es) (h' : ReadFree es') :
    ReadFree (es ++ es') := fun action hmem => by
  rcases List.mem_append.mp hmem with hmem | hmem
  · exact h action hmem
  · exact h' action hmem

theorem ReadFree.silent {es : List (Event N)} (h : ReadFree es) : ReadFree (.silent :: es) :=
  fun action => List.not_mem_cons_of_ne_of_not_mem nofun (h action)

/-! ## With no command left -/

/-- Whatever the debugger, the machine comes from one emulation and stack to the other. -/
def Leads (order : List Word → Word → List Word) (e : Emulation N n) (stack : List (Frame N))
    (e' : Emulation N n) (stack' : List (Frame N)) : Prop :=
  ∀ d input, NoCommand input → ∃ es d' input',
    Runs (Config.next order) Free ⟨e, d, input, stack⟩ es ⟨e', d', input', stack'⟩ ∧
      ReadFree es ∧ NoCommand input'

theorem Leads.refl (order : List Word → Word → List Word) (e : Emulation N n)
    (stack : List (Frame N)) : Leads order e stack e stack :=
  fun d input hquiet => ⟨[], d, input, .nil _, .nil, hquiet⟩

theorem Leads.trans (h : Leads order e stack e' stack') (h' : Leads order e' stack' e'' stack'') :
    Leads order e stack e'' stack'' := by
  intro d input hquiet
  obtain ⟨es, d', input', hrun, hfree, hquiet'⟩ := h d input hquiet
  obtain ⟨es', d'', input'', hrun', hfree', hquiet''⟩ := h' d' input' hquiet'
  exact ⟨es ++ es', d'', input'', hrun.trans hrun', hfree.append hfree', hquiet''⟩

/-- One transition that leaves the input alone. -/
theorem Leads.single (f : Debugger → Debugger) (event : Event N)
    (hevent : ∀ action, event ≠ .read action)
    (h : ∀ d input, Config.next order ⟨e, d, input, stack⟩ =
      some (event, ⟨e', f d, input, stack'⟩)) : Leads order e stack e' stack' :=
  fun d input hquiet => ⟨[event], f d, input, .single trivial (h d input),
    fun action hmem => hevent action (List.mem_singleton.mp hmem).symm, hquiet⟩

/-- The loop is left, with the input or before. -/
theorem leads_commandLoop (order : List Word → Word → List Word) (e : Emulation N n)
    (stack : List (Frame N)) : Leads order e (.commandLoop :: stack) e stack := by
  intro d input hquiet
  have hleave : ∀ input, NoCommand input →
      Config.next order ⟨e, d, input, .commandLoop :: stack⟩ =
        some (.silent, ⟨e, d, input, stack⟩) →
      ∃ es d' input', Runs (Config.next order) Free ⟨e, d, input, .commandLoop :: stack⟩ es
        ⟨e, d', input', stack⟩ ∧ ReadFree es ∧ NoCommand input' :=
    fun input hquiet hnext => ⟨_, d, input, .single trivial hnext, ReadFree.nil.silent, hquiet⟩
  induction input with
  | nil =>
    rcases commandLoop_cases order ⟨e, d, [], .commandLoop :: stack⟩ stack with
      ⟨_, hr⟩ | ⟨_, _, hin, _⟩
    · exact hleave [] hquiet (congrArg some hr)
    · cases hin
  | cons line input ih =>
    have hquiet' : NoCommand input := fun l hl => hquiet l (List.mem_cons_of_mem _ hl)
    obtain ⟨es, d', input', hrun, hfree, hafter⟩ := ih hquiet'
    rcases commandLoop_cases order ⟨e, d, line :: input, .commandLoop :: stack⟩ stack with
      ⟨_, hr⟩ | ⟨_, _, hin, ⟨_, hr⟩ | ⟨_, hr⟩ | ⟨hw, _⟩⟩
    · exact hleave _ hquiet (congrArg some hr)
    · cases hin
      exact ⟨_, d', input', .cons trivial (congrArg some hr) hrun, hfree.silent, hafter⟩
    · cases hin
      -- a line without a word: the flags say whether the loop goes on
      by_cases hflags : d.continueExecution || d.stepMode
      · refine ⟨_, d, input, .cons trivial (congrArg some hr) (.single trivial
          (e := .silent) ?_), ReadFree.nil.silent.silent, hquiet'⟩
        simp only [Config.next, Config.handled, hflags, if_true]
      · refine ⟨_, d', input', .cons trivial (congrArg some hr) (.cons trivial
          (e := .silent) ?_ hrun), hfree.silent.silent, hafter⟩
        simp only [Config.next, Config.handled, hflags]
        rfl
    · cases hin
      exact absurd (hquiet line List.mem_cons_self) hw

/-- At a breakpoint or not, the core comes to its step. -/
theorem leads_step {i : Fin N} (henters : e.entersStep i = true) (steps : Nat)
    (cores : List (Fin N)) :
    Leads order e (.cycle steps (i :: cores) :: stack)
      { e with toSimulator := e.toSimulator.marked i }
      (.step i :: .cycle steps cores :: stack) := by
  intro d input hquiet
  have hnext : Config.next order ⟨e, d, input, .cycle steps (i :: cores) :: stack⟩ =
      some (.silent, Config.turn ⟨e, d, input, .cycle steps (i :: cores) :: stack⟩ i
        (.cycle steps cores :: stack)) := rfl
  obtain ⟨_, ⟨hnot, _⟩ | ⟨_, d', frames, hframes, hturn⟩⟩ := next_turn rfl hnext
  · rw [hnot] at henters
    cases henters
  · rw [hturn] at hnext
    rcases hframes with ⟨rfl, _⟩ | ⟨rfl, _⟩
    · exact ⟨_, d', input, .single trivial hnext, ReadFree.nil.silent, hquiet⟩
    · -- the loop that the breakpoint enters, and its end
      have hhook : Leads order { e with toSimulator := e.toSimulator.marked i }
          (.debugHook :: .step i :: .cycle steps cores :: stack)
          { e with toSimulator := e.toSimulator.marked i }
          (.step i :: .cycle steps cores :: stack) :=
        .single Debugger.clearStepMode .silent nofun fun _ _ => rfl
      obtain ⟨es, d'', input', hrun, hfree, hquiet'⟩ :=
        (leads_commandLoop order _ _).trans hhook d' input hquiet
      exact ⟨_, d'', input', .cons trivial hnext hrun, hfree.silent, hquiet'⟩

theorem executes_ne_read (s : Simulator N n) (i : Fin N) (action : Action) :
    Config.executes s i ≠ .read action := by
  unfold Config.executes
  split <;> exact nofun

/-- A turn is that without a debugger. -/
theorem leads_turn {i : Fin N} {s : Simulator N n} (h : e.toSimulator.executeCoreStep i = .ok s)
    (steps : Nat) (cores : List (Fin N)) :
    Leads order e (.cycle steps (i :: cores) :: stack) { e with toSimulator := s }
      (.cycle steps cores :: stack) := by
  cases henters : e.toSimulator.entersStep i with
  | false =>
    rw [Simulator.executeCoreStep_skips henters] at h
    cases h
    refine .single id .silent nofun fun d input => ?_
    simp [Config.next, Config.cycle, Config.turn, henters]
  | true =>
    rw [Simulator.executeCoreStep_enters henters] at h
    cases hs : (e.toSimulator.marked i).step i with
    | error a =>
      rw [hs] at h
      cases h
    | ok t =>
      rw [hs] at h
      cases h
      refine (leads_step henters steps cores).trans
        (.single id _ (executes_ne_read (e.toSimulator.marked i) i) fun d input => ?_)
      simp [Config.next, Config.step, hs]

theorem leads_turns {l : List (Fin N)} {t : Simulator N n}
    (h : l.foldlM Simulator.executeCoreStep e.toSimulator = .ok t) (steps : Nat)
    (cores : List (Fin N)) :
    Leads order e (.cycle steps (l ++ cores) :: stack) { e with toSimulator := t }
      (.cycle steps cores :: stack) := by
  induction l generalizing e with
  | nil =>
    cases h
    exact .refl order e _
  | cons i l ih =>
    obtain ⟨u, hu, hrest⟩ := foldlM_cons_ok h
    exact (leads_turn hu steps (l ++ cores)).trans (ih (e := { e with toSimulator := u }) hrest)

theorem leads_cycle {s : Simulator N n} (h : e.coresStep = .ok s) (steps : Nat) :
    Leads order e (.cycle steps (List.finRange N) :: stack) (e.endDebugCycle s)
      (.debugRun steps :: stack) := by
  have hturns : Leads order e (.cycle steps (List.finRange N ++ []) :: stack)
      { e with toSimulator := s } (.cycle steps [] :: stack) := leads_turns h steps []
  rw [List.append_nil] at hturns
  exact hturns.trans (.single id .silent nofun fun _ _ => rfl)

/-- `debug_run` is that without a debugger. -/
theorem leads_debugRun {steps : Nat} (h : e.debugLoop steps = .ok e') (stack : List (Frame N)) :
    Leads order e (.debugRun steps :: stack) e' stack := by
  induction steps generalizing e with
  | zero =>
    cases h
    exact .single id .silent nofun fun _ _ => rfl
  | succ steps ih =>
    rw [Emulation.debugLoop_succ] at h
    cases hfinished : e.allCoresFinished with
    | true =>
      rw [hfinished, if_pos rfl] at h
      cases h
      refine .single id .silent nofun fun d input => ?_
      simp [Config.next, Config.debugRun, hfinished]
    | false =>
      rw [hfinished] at h
      obtain ⟨s, hs, hrest⟩ := bind_eq_ok h
      have hgoes : Leads order e (.debugRun (steps + 1) :: stack) e
          (.cycle steps (List.finRange N) :: stack) := by
        refine .single id .silent nofun fun d input => ?_
        simp [Config.next, Config.debugRun, hfinished]
      exact (hgoes.trans (leads_cycle hs steps)).trans (ih hrest)

/-! ## The core's own turn -/

/-- The turns of the other cores leave a core alone. -/
theorem turns_others {i : Fin N} {l : List (Fin N)} {s t : Simulator N n}
    (h : l.foldlM Simulator.executeCoreStep s = .ok t) (hi : i ∉ l) : t.cores i = s.cores i := by
  induction l generalizing s with
  | nil =>
    cases h
    rfl
  | cons j l ih =>
    obtain ⟨u, hu, hrest⟩ := foldlM_cons_ok h
    rw [List.mem_cons, not_or] at hi
    exact (ih hrest hi.2).trans ((Simulator.executeCoreStep_frame hu).others i hi.1)

theorem turnOf_core {i : Fin N} {t : Simulator N n} (h : e.TurnOf i t) :
    t.cores i = e.cores i := by
  obtain ⟨before, after, hl, hbefore⟩ := h
  refine turns_others hbefore fun hi => ?_
  have hnodup := List.nodup_finRange N
  rw [hl] at hnodup
  exact List.disjoint_of_nodup_append hnodup hi List.mem_cons_self

/-- In a cycle from here, the turn of core `i` begins in `t`, nothing keeps the core from
the instruction at its `pc`, and this one does not abort. -/
structure ReadyIn (e : Emulation N n) (i : Fin N) (t : Simulator N n) : Prop where
  turn : e.TurnOf i t
  enters : t.entersStep i = true
  fetches : ∃ s, (t.marked i).prepare i = .ok (true, s) ∧ (s.cores i).pc = (t.cores i).pc
  steps : ∃ s, (t.marked i).step i = .ok s

def Ready (e : Emulation N n) (i : Fin N) : Prop := ∃ t, ReadyIn e i t

/-- Such a core executes in the first cycle. -/
theorem Ready.executes {i : Fin N} (h : Ready e i) (d : Debugger) {input : List String}
    (hquiet : NoCommand input) (steps : Nat) (stack : List (Frame N)) :
    ∃ es c, Runs (Config.next order) Free ⟨e, d, input, .debugRun (steps + 1) :: stack⟩ es c ∧
      ReadFree es ∧ .executed i (e.cores i).pc ∈ es := by
  obtain ⟨t, hturn, henters, ⟨u, hprepare, hpc⟩, s, hs⟩ := h
  have hcore := turnOf_core hturn
  obtain ⟨before, after, hl, hbefore⟩ := hturn
  have hunfinished : e.allCoresFinished = false := by
    have hi := entersStep_unfinished henters
    rw [hcore] at hi
    refine Bool.eq_false_of_not_eq_true fun hall => ?_
    rw [List.all_eq_true.mp hall i (List.mem_finRange i)] at hi
    cases hi
  have hrun : Leads order e (.debugRun (steps + 1) :: stack) e
      (.cycle steps (before ++ i :: after) :: stack) := by
    refine .single id .silent nofun fun d input => ?_
    simp [Config.next, Config.debugRun, hunfinished, hl]
  have hcomes := (hrun.trans (leads_turns hbefore steps (i :: after))).trans
    (leads_step (e := { e with toSimulator := t }) henters steps after)
  obtain ⟨es, d', input', hruns, hfree, _⟩ := hcomes d input hquiet
  have hevent : Config.executes (t.marked i) i = .executed i (e.cores i).pc := by
    unfold Config.executes
    rw [hprepare, ← hcore, ← hpc]
  have hexecuted : Config.next order ⟨{ e with toSimulator := t.marked i }, d', input',
      .step i :: .cycle steps after :: stack⟩ = some (.executed i (e.cores i).pc,
        ⟨{ e with toSimulator := s.checkInfiniteLoop i }, d', input',
          .cycle steps after :: stack⟩) := by
    simp [Config.next, Config.step, hs, hevent]
  refine ⟨es ++ [.executed i (e.cores i).pc], _, hruns.trans (.single trivial hexecuted),
    hfree.append fun action hmem => ?_, by simp⟩
  simp at hmem

/-! ## How often a core comes to a place -/

/-- 1 if the core has not finished and is at `pc`. -/
def standing (s : Simulator N n) (i : Fin N) (pc : Word) : Nat :=
  if (s.cores i).hasFinished = false ∧ (s.cores i).pc = pc then 1 else 0

/-- At most `budget` of so many cycles begin with the core, unfinished, at `pc`. -/
def Visits (i : Fin N) (pc : Word) : Nat → Nat → Emulation N n → Prop
  | _, 0, _ => True
  | budget, steps + 1, e => ∃ left, left + standing e.toSimulator i pc ≤ budget ∧
      ∀ e', e.debugCycle = .ok e' → Visits i pc left steps e'

/-- The same in a cycle in which the turns of `cores` are still to come. -/
def CycleVisits (i : Fin N) (pc : Word) (budget steps : Nat) (e : Emulation N n)
    (cores : List (Fin N)) : Prop :=
  ∃ left, left + (if i ∈ cores then standing e.toSimulator i pc else 0) ≤ budget ∧
    ∀ s, cores.foldlM Simulator.executeCoreStep e.toSimulator = .ok s →
      Visits i pc left steps (e.endDebugCycle s)

/-- And in one in which core `j` is in its step. -/
def StepVisits (i : Fin N) (pc : Word) (budget steps : Nat) (e : Emulation N n) (j : Fin N)
    (cores : List (Fin N)) : Prop :=
  ∃ left, left + (if i ∈ j :: cores then standing e.toSimulator i pc else 0) ≤ budget ∧
    ∀ t s, e.toSimulator.step j = .ok t →
      cores.foldlM Simulator.executeCoreStep (t.checkInfiniteLoop j) = .ok s →
      Visits i pc left steps (e.endDebugCycle s)

theorem Visits.cycle {i : Fin N} {pc : Word} {budget steps : Nat}
    (h : Visits i pc budget (steps + 1) e) :
    CycleVisits i pc budget steps e (List.finRange N) := by
  obtain ⟨left, hle, hafter⟩ := h
  refine ⟨left, ?_, fun s hs => hafter _ ?_⟩
  · rw [if_pos (List.mem_finRange i)]
    exact hle
  · unfold Emulation.debugCycle Simulator.coresStep
    rw [hs]
    rfl

theorem CycleVisits.debugRun {i : Fin N} {pc : Word} {budget steps : Nat}
    (h : CycleVisits i pc budget steps e []) :
    ∃ left ≤ budget, Visits i pc left steps (e.endDebugCycle e.toSimulator) := by
  obtain ⟨left, hle, hafter⟩ := h
  exact ⟨left, Nat.le_of_add_right_le hle, hafter e.toSimulator rfl⟩

theorem CycleVisits.skips {i j : Fin N} {pc : Word} {budget steps : Nat} {cores : List (Fin N)}
    (h : CycleVisits i pc budget steps e (j :: cores)) (hskip : e.entersStep j = false) :
    CycleVisits i pc budget steps e cores := by
  obtain ⟨left, hle, hafter⟩ := h
  refine ⟨left, Nat.le_trans (Nat.add_le_add_left ?_ left) hle, fun s hs => hafter s ?_⟩
  · by_cases hi : i ∈ cores
    · rw [if_pos hi, if_pos (List.mem_cons_of_mem j hi)]
    · rw [if_neg hi]
      exact Nat.zero_le _
  · rw [List.foldlM_cons, Simulator.executeCoreStep_skips hskip]
    exact hs

theorem standing_marked (s : Simulator N n) (i j : Fin N) (pc : Word) :
    standing (s.marked j) i pc = standing s i pc := by
  obtain ⟨hpc, hfinished⟩ := marked_core_pc s j i
  unfold standing
  rw [hpc, hfinished]

theorem CycleVisits.enters {i j : Fin N} {pc : Word} {budget steps : Nat} {cores : List (Fin N)}
    (h : CycleVisits i pc budget steps e (j :: cores)) (henters : e.entersStep j = true) :
    StepVisits i pc budget steps { e with toSimulator := e.toSimulator.marked j } j cores := by
  obtain ⟨left, hle, hafter⟩ := h
  refine ⟨left, ?_, fun t s ht hs => hafter s ?_⟩
  · show left + (if _ then standing (e.toSimulator.marked j) i pc else 0) ≤ budget
    rw [standing_marked]
    exact hle
  · have hstep : (e.toSimulator.marked j).step j = .ok t := ht
    rw [List.foldlM_cons, Simulator.executeCoreStep_enters henters, hstep]
    exact hs

theorem executes_cases {s : Simulator N n} {i j : Fin N} {pc : Word}
    (h : Config.executes s j = .executed i pc) :
    j = i ∧ ∃ s', s.prepare i = .ok (true, s') ∧ (s'.cores i).pc = pc := by
  unfold Config.executes at h
  split at h
  · next s' hprepare =>
    cases h
    exact ⟨rfl, s', hprepare, rfl⟩
  · cases h

/-- The step takes what it executes from the budget. -/
theorem StepVisits.cycle {i j : Fin N} {pc : Word} {budget steps : Nat} {cores : List (Fin N)}
    {t : Simulator N n} (h : StepVisits i pc budget steps e j cores) (hj : j ∉ cores)
    (hunfinished : (e.cores j).hasFinished = false) (ht : e.toSimulator.step j = .ok t)
    (hentry : Config.executes e.toSimulator j = .executed i pc → (e.cores j).pc = pc) :
    ∃ left, CycleVisits i pc left steps { e with toSimulator := t.checkInfiniteLoop j } cores ∧
      left + (if Config.executes e.toSimulator j = .executed i pc then 1 else 0) ≤ budget := by
  obtain ⟨left, hle, hafter⟩ := h
  by_cases hi : j = i
  · subst hi
    rw [if_pos List.mem_cons_self] at hle
    refine ⟨left, ⟨left, ?_, fun s hs => hafter t s ht hs⟩, ?_⟩
    · rw [if_neg hj]
      exact Nat.le_refl left
    · split
      · next hexec =>
        rwa [standing, if_pos ⟨hunfinished, hentry hexec⟩] at hle
      · exact Nat.le_of_add_right_le hle
  · have hother : (t.checkInfiniteLoop j).cores i = e.cores i :=
      ((Simulator.step_frame ht).turnFrame.trans (t.checkInfiniteLoop_frame j)).others i
        (Ne.symm hi)
    refine ⟨budget, ⟨left, ?_, fun s hs => hafter t s ht hs⟩, ?_⟩
    · have hstanding : standing (t.checkInfiniteLoop j) i pc = standing e.toSimulator i pc := by
        unfold standing
        rw [hother]
      have hmem : i ∈ j :: cores ↔ i ∈ cores := List.mem_cons.trans (or_iff_right (Ne.symm hi))
      show left + (if i ∈ cores then standing (t.checkInfiniteLoop j) i pc else 0) ≤ budget
      rw [hstanding]
      simpa only [hmem] using hle
    · rw [if_neg fun hexec => hi (executes_cases hexec).1]
      exact Nat.le_refl budget

/-! ## Counting along a run -/

/-- What is left of the budget where the machine stands. -/
def Allows (i : Fin N) (pc : Word) (budget : Nat) (e : Emulation N n) : List (Frame N) → Prop
  | .commandLoop :: stack => Allows i pc budget e stack
  | .handled :: stack => Allows i pc budget e stack
  | .debugHook :: stack => Allows i pc budget e stack
  | .debugRun steps :: _ => Visits i pc budget steps e
  | .cycle steps cores :: _ => cores.Nodup ∧ CycleVisits i pc budget steps e cores
  | .step j :: .cycle steps cores :: _ =>
    (j :: cores).Nodup ∧ (e.cores j).hasFinished = false ∧
      StepVisits i pc budget steps e j cores
  | _ => True

theorem allows_loop {i : Fin N} {pc : Word} {budget : Nat} {f : Frame N} (hf : f.isLoop = true)
    (stack : List (Frame N)) :
    Allows i pc budget e (f :: stack) ↔ Allows i pc budget e stack := by
  cases f with
  | commandLoop | handled => rw [Allows]
  | _ => cases hf

theorem Caller.allows (h : Caller stack) (i : Fin N) (pc : Word) (budget : Nat)
    (e : Emulation N n) : Allows i pc budget e stack := by
  cases h <;> exact trivial

/-- With no command left, the breakpoint in place, and a budget for core `i` at it. -/
structure Watched (i : Fin N) (pc : Word) (budget : Nat) (c : Config N n) : Prop where
  shape : Shape c.stack
  quiet : NoCommand c.input
  breakpoint : pc ∈ c.debugger.breakpoints
  allows : Allows i pc budget c.emulation c.stack

/-- A step that is about to execute at a breakpoint has begun there: it is not an interrupt
that leads to it. -/
def NoEntry (c : Config N n) : Prop :=
  ∀ i stack s, c.stack = .step i :: stack → c.emulation.prepare i = .ok (true, s) →
    (s.cores i).pc ∈ c.debugger.breakpoints → (s.cores i).pc = (c.emulation.cores i).pc

/-- A command comes from the loop on top of the stack. -/
theorem next_read {action : Action} (h : c.next order = some (.read action, c')) :
    ∃ stack d input, c.stack = .commandLoop :: stack ∧ ¬NoCommand c.input ∧
      (action ≠ .nothing → d = c.debugger) ∧
      c' = ⟨c.emulation, d, input, action.frames ++ .handled :: stack⟩ := by
  cases hst : c.stack with
  | nil =>
    rw [next_ended hst] at h
    cases h
  | cons f stack =>
    by_cases hf : f.isLoop = true
    · rcases Debug.next_loop hf hst h with
        ⟨hevent, _⟩ | ⟨hevent, _⟩ | ⟨_, d, input, hevent, hf, hcommand, hd, rfl⟩
      · cases hevent
      · cases hevent
      · cases hevent
        exact ⟨stack, d, input, hf ▸ rfl, hcommand, hd, rfl⟩
    · cases f with
      | commandLoop | handled => exact absurd rfl hf
      | step i =>
        obtain ⟨_, _, hevent, _⟩ := next_step hst h
        exact absurd hevent.symm (executes_ne_read _ i action)
      | _ =>
        simp only [Config.next, hst] at h
        cases h

theorem Watched.next_loop {i : Fin N} {pc : Word} {budget : Nat} {event : Event N} {f : Frame N}
    (h : Watched i pc budget c) (hf : f.isLoop = true) (hst : c.stack = f :: stack)
    (hshape : Shape c'.stack) (hnext : c.next order = some (event, c')) :
    event = .silent ∧ Watched i pc budget c' := by
  have hallows := h.allows
  rw [hst, allows_loop hf] at hallows
  rcases Debug.next_loop hf hst hnext with
    ⟨hevent, rfl, _⟩ | ⟨hevent, _, g, input, hg, hiff, rfl⟩ | ⟨_, _, _, _, _, hcommand, _⟩
  · exact ⟨hevent, hshape, h.quiet, h.breakpoint, hallows⟩
  · exact ⟨hevent, hshape, hiff.mp h.quiet, h.breakpoint, (allows_loop hg stack).mpr hallows⟩
  · exact absurd h.quiet hcommand

theorem standing_of_not_hit {i : Fin N} {pc : Word} (hhit : c.breakpointHit = false)
    (hpc : pc ∈ c.debugger.breakpoints) : standing c.emulation.toSimulator i pc = 0 := by
  refine if_neg fun ⟨_, hstands⟩ => ?_
  have hnot := List.any_eq_false.mp hhit i (List.mem_finRange i)
  rw [hstands, Debugger.shouldBreak, List.contains_iff_mem] at hnot
  exact hnot hpc

/-- A transition takes from the budget what it executes. -/
theorem Watched.next {i : Fin N} {pc : Word} {budget : Nat} {event : Event N}
    (h : Watched i pc budget c) (hentry : NoEntry c) (hnext : c.next order = some (event, c')) :
    ∃ left, Watched i pc left c' ∧ left + (if event = .executed i pc then 1 else 0) ≤ budget := by
  have hshape' : Shape c'.stack := by
    refine h.shape.next hnext fun action hread _ => ?_
    obtain ⟨_, _, _, _, hcommand, _⟩ := next_read (hread ▸ hnext)
    exact absurd h.quiet hcommand
  -- the transitions that do not execute leave the budget as it is, or lower it
  have hkeeps : event = .silent → ∀ left ≤ budget, Watched i pc left c' →
      ∃ left, Watched i pc left c' ∧
        left + (if event = .executed i pc then 1 else 0) ≤ budget := by
    rintro rfl left hle hc'
    exact ⟨left, hc', hle⟩
  obtain ⟨hshape, hquiet, hbreak, hallows⟩ := id h
  generalize hst : c.stack = st at hshape
  rw [hst] at hallows
  cases hshape with
  | ended =>
    rw [next_ended hst] at hnext
    cases hnext
  | loop hf =>
    obtain ⟨hevent, hc'⟩ := h.next_loop hf hst hshape' hnext
    exact hkeeps hevent budget (Nat.le_refl budget) hc'
  | inner hf =>
    obtain ⟨hevent, hc'⟩ := h.next_loop hf hst hshape' hnext
    exact hkeeps hevent budget (Nat.le_refl budget) hc'
  | cmdContinue =>
    obtain ⟨hevent, hr⟩ := next_cmdContinue hst hnext
    refine hkeeps hevent budget (Nat.le_refl budget) ?_
    obtain rfl | ⟨hhit, rfl⟩ := hr
    · exact ⟨hshape', hquiet, hbreak, trivial⟩
    · refine ⟨hshape', hquiet, hbreak, budget, ?_, fun _ _ => trivial⟩
      rw [standing_of_not_hit hhit hbreak]
      exact Nat.le_refl budget
  | debugRun hcaller steps =>
    obtain ⟨hevent, hr⟩ := next_debugRun hst hnext
    refine hkeeps hevent budget (Nat.le_refl budget) ?_
    obtain rfl | ⟨left, rfl, rfl⟩ := hr
    · exact ⟨hshape', hquiet, hbreak, hcaller.allows i pc budget _⟩
    · exact ⟨hshape', hquiet, hbreak, List.nodup_finRange N, Visits.cycle hallows⟩
  | @cycle caller hcaller steps cores =>
    obtain ⟨hnodup, hvisits⟩ := hallows
    cases cores with
    | nil =>
      obtain ⟨hevent, rfl⟩ := next_cycleEnd hst hnext
      obtain ⟨left, hle, hvisits⟩ := hvisits.debugRun
      exact hkeeps hevent left hle ⟨hshape', hquiet, hbreak, hvisits⟩
    | cons j cores =>
      obtain ⟨hevent, hr⟩ := next_turn hst hnext
      refine hkeeps hevent budget (Nat.le_refl budget) ?_
      obtain ⟨hskip, rfl⟩ | ⟨henters, d, frames, hframes, rfl⟩ := hr
      · exact ⟨hshape', hquiet, hbreak, hnodup.of_cons, hvisits.skips hskip⟩
      · have hstep : Allows i pc budget
            { c.emulation with toSimulator := c.emulation.toSimulator.marked j }
            (.step j :: .cycle steps cores :: caller) :=
          ⟨hnodup, (marked_core_pc _ j j).2.trans (entersStep_unfinished henters),
            hvisits.enters henters⟩
        rcases hframes with ⟨rfl, rfl, _⟩ | ⟨rfl, rfl⟩
        · exact ⟨hshape', hquiet, hbreak, hstep⟩
        · exact ⟨hshape', hquiet, hbreak, hstep⟩
  | debugHook hcaller j steps cores =>
    obtain ⟨hevent, rfl⟩ := next_debugHook hst hnext
    exact hkeeps hevent budget (Nat.le_refl budget) ⟨hshape', hquiet, hbreak, hallows⟩
  | step hcaller j steps cores =>
    obtain ⟨t, ht, rfl, rfl⟩ := next_step hst hnext
    obtain ⟨hnodup, hunfinished, hvisits⟩ := hallows
    have hbegun : Config.executes c.emulation.toSimulator j = .executed i pc →
        (c.emulation.cores j).pc = pc := by
      intro hexec
      obtain ⟨rfl, s, hprepare, hpc⟩ := executes_cases hexec
      exact (hentry j _ s hst hprepare (hpc ▸ hbreak)).symm.trans hpc
    obtain ⟨left, hcycle, hle⟩ :=
      hvisits.cycle (List.nodup_cons.mp hnodup).1 hunfinished ht hbegun
    exact ⟨left, ⟨hshape', hquiet, hbreak, hnodup.of_cons, hcycle⟩, hle⟩

end RiscvEmulator.Debug
