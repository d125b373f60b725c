import RiscvEmulator.Lib.Fold
import RiscvEmulator.System.CoreFrame
import RiscvEmulator.System.Run

/-! # Boot safety

Until a cycle ends with the release signal in memory, the turns of all cores but
core 0 end before their step; from then on they step, and no step ever waits to be
booted. -/
namespace RiscvEmulator.System
open Memory Cores Lib.Fold

namespace Simulator
variable {N n : Nat} {s s' t u : Simulator N n} {i j : Fin N}

/-! ## Turns -/

theorem TurnFrame.setCore {c : Core} (h : (s.cores i).hasBooted = true → c.hasBooted = true) :
    TurnFrame i s (s.setCore i c) := by
  refine ⟨fun j hj => setCore_cores_other s i c hj, rfl, fun _ _ => rfl, ?_⟩
  rw [setCore_cores_self]
  exact fun hb => ⟨h hb, rfl⟩

theorem checkInfiniteLoop_frame (s : Simulator N n) (i : Fin N) :
    TurnFrame i s (s.checkInfiniteLoop i) := by
  have hfetch : TurnFrame i s (s.fetch i (s.cores i).pc).2 := (s.fetchPc_frame i).turnFrame
  unfold checkInfiniteLoop
  simp only
  split
  · exact hfetch.trans (.setCore id)
  · exact hfetch

theorem executeCoreStep_skips (h : s.entersStep i = false) : s.executeCoreStep i = .ok s := by
  unfold executeCoreStep
  rw [h]
  rfl

/-- The state in which the step of a turn begins. -/
def marked (s : Simulator N n) (i : Fin N) : Simulator N n :=
  s.setCore i { s.cores i with hasBooted := true }

theorem executeCoreStep_enters (h : s.entersStep i = true) :
    s.executeCoreStep i = ((s.marked i).step i).map (·.checkInfiniteLoop i) := by
  unfold executeCoreStep
  rw [if_pos h]
  rfl

/-- A turn that does not abort. -/
theorem executeCoreStep_cases (h : s.executeCoreStep i = .ok s') :
    (s.entersStep i = false ∧ s' = s) ∨
      ∃ t, (s.marked i).step i = .ok t ∧ s' = t.checkInfiniteLoop i := by
  cases henter : s.entersStep i with
  | false =>
    rw [executeCoreStep_skips henter] at h
    exact .inl ⟨rfl, (Except.ok.inj h).symm⟩
  | true =>
    rw [executeCoreStep_enters henter] at h
    cases hstep : (s.marked i).step i with
    | error a =>
      rw [hstep] at h
      cases h
    | ok t =>
      rw [hstep] at h
      exact .inr ⟨t, rfl, (Except.ok.inj h).symm⟩

theorem executeCoreStep_frame (h : s.executeCoreStep i = .ok s') : TurnFrame i s s' := by
  rcases executeCoreStep_cases h with ⟨_, rfl⟩ | ⟨t, hstep, rfl⟩
  · exact .refl _ i
  · have hmark : TurnFrame i s (s.marked i) := .setCore fun _ => rfl
    exact (hmark.trans (step_frame hstep).turnFrame).trans (t.checkInfiniteLoop_frame i)

/-! ## No waiting -/

theorem rem_never_waits (a b : Word) : (rem a b).map some ≠ .error .waitForBoot := by
  unfold rem
  split
  · exact fun h => by cases h
  · split <;> exact fun h => by cases h

theorem aluOp_never_waits (funct3 : BitVec 3) (funct7 : BitVec 7) (rs2 : Cores.Reg) (a b : Word) :
    aluOp funct3 funct7 rs2 a b ≠ .error .waitForBoot := by
  intro h
  unfold aluOp at h
  simp only at h
  split at h
  -- the cases with a remainder
  case h_6 | h_7 =>
    repeat' split at h
    all_goals first
      | exact rem_never_waits a b h
      | cases h
  all_goals cases h

theorem boot_ok (h : (s.cores i).hasBooted = true) : s.boot i = .ok s := by
  unfold boot
  rw [if_pos h]

theorem prepare_booted (h : (s.cores i).hasBooted = true) : ∃ r, s.prepare i = .ok r := by
  have hb : ((s.handleInterrupt i).cores i).hasBooted = true :=
    ((s.handleInterrupt_frame i).booted h).1
  unfold prepare
  simp only
  split
  · rw [boot_ok hb]
    exact ⟨_, rfl⟩
  · exact ⟨_, rfl⟩

/-- Only the division of the switch aborts. -/
theorem execute_never_waits (s : Simulator N n) (i : Fin N) (instr : Word) :
    s.execute i instr ≠ .error .waitForBoot := by
  intro h
  unfold execute at h
  simp only at h
  split at h
  case h_2 =>
    have hop : aluOp (funct3Of instr) (funct7Of instr) (rs2Of instr)
        ((s.cores i).regs (rs1Of instr)) ((s.cores i).regs (rs2Of instr)) =
        .error .waitForBoot := by
      unfold Core.op at h
      generalize aluOp _ _ _ _ _ = r at h ⊢
      cases r with
      | ok v => cases h
      | error e => exact congrArg Except.error (Except.error.inj h)
    exact aluOp_never_waits _ _ _ _ _ hop
  all_goals cases h

theorem executeCoreStep_never_waits (s : Simulator N n) (i : Fin N) :
    s.executeCoreStep i ≠ .error .waitForBoot := by
  intro h
  cases henter : s.entersStep i with
  | false =>
    rw [executeCoreStep_skips henter] at h
    cases h
  | true =>
    rw [executeCoreStep_enters henter] at h
    have hbooted : ((s.marked i).cores i).hasBooted = true := by
      unfold marked
      rw [setCore_cores_self]
    obtain ⟨⟨executing, u⟩, hprep⟩ := prepare_booted hbooted
    cases executing with
    | false =>
      unfold step at h
      rw [hprep] at h
      cases h
    | true =>
      have hf : (s.marked i).Fetches i u (u.fetchPc i).1 := ⟨hprep, rfl⟩
      have hne := (u.fetchPc i).2.execute_never_waits i (u.fetchPc i).1
      rw [hf.step_eq] at h
      cases he : (u.fetchPc i).2.execute i (u.fetchPc i).1 with
      | ok e =>
        rw [he] at h
        cases h
      | error a =>
        rw [he] at h hne
        exact hne (congrArg Except.error (Except.error.inj h))

theorem coresStep_never_waits (s : Simulator N n) : s.coresStep ≠ .error .waitForBoot := by
  intro h
  obtain ⟨i, t, _, ht⟩ := foldlM_error h
  exact t.executeCoreStep_never_waits i ht

/-! ## Held and executable cores -/

/-- Core `i` has not been released. -/
structure Held (s : Simulator N n) (i : Fin N) : Prop where
  notBooted : (s.cores i).hasBooted = false
  notFinished : (s.cores i).hasFinished = false
  flag : s.coreBootedFlags i = false
  halted : s.multiCoreMonitor.coreStates i = .halt

/-- Nothing keeps core `i` from stepping, unless it has finished. -/
structure Executable (s : Simulator N n) (i : Fin N) : Prop where
  booted : (s.cores i).hasBooted = true
  flag : s.coreBootedFlags i = true
  released : s.multiCoreMonitor.shouldCoreExecute i = true

theorem Held.entersStep (h : s.Held i) (hi : i.val ≠ 0) : s.entersStep i = false := by
  have h0 : (i.val == 0) = false := beq_false_of_ne hi
  unfold Simulator.entersStep
  rw [h.notBooted, h.flag, h0]
  exact Bool.and_false _

/-- An executable core gets past every gate but that of WFI. -/
theorem Executable.prepare_eq (h : s.Executable i) :
    s.prepare i = .ok ((s.handleInterrupt i).leaveWait i) := by
  have hframe := s.handleInterrupt_frame i
  have hreleased : (s.handleInterrupt i).multiCoreMonitor.shouldCoreExecute i = true := by
    rw [hframe.monitor]
    exact h.released
  unfold prepare
  simp only
  rw [if_pos hreleased, boot_ok (hframe.booted h.booted).1]
  rfl

theorem Held.turn (h : s.Held i) (hi : i.val ≠ 0) (hturn : s.executeCoreStep j = .ok s') :
    s'.Held i := by
  by_cases hj : i = j
  · subst hj
    rw [executeCoreStep_skips (h.entersStep hi)] at hturn
    cases hturn
    exact h
  · have hframe := executeCoreStep_frame hturn
    have hcore := hframe.others i hj
    exact ⟨by rw [hcore, h.notBooted], by rw [hcore, h.notFinished],
      (hframe.flags i hj).trans h.flag, by rw [hframe.monitor, h.halted]⟩

theorem Executable.turn (h : s.Executable i) (hturn : s.executeCoreStep j = .ok s') :
    s'.Executable i := by
  have hframe := executeCoreStep_frame hturn
  have hreleased : s'.multiCoreMonitor.shouldCoreExecute i = true := by
    rw [hframe.monitor]
    exact h.released
  by_cases hj : i = j
  · subst hj
    obtain ⟨hb, hf⟩ := hframe.booted h.booted
    exact ⟨hb, hf.trans h.flag, hreleased⟩
  · exact ⟨by rw [hframe.others i hj, h.booted], (hframe.flags i hj).trans h.flag, hreleased⟩

/-- The release frees every core that is held. -/
theorem Held.released (h : s.Held i) (hi : i.val ≠ 0)
    (hcores : t.cores = s.releaseAllCores.cores)
    (hflags : t.coreBootedFlags = s.releaseAllCores.coreBootedFlags)
    (hmonitor : t.multiCoreMonitor = s.releaseCores.multiCoreMonitor) :
    t.Executable i ∧ (t.cores i).hasFinished = false := by
  have hcore : t.cores i = { s.cores i with hasBooted := true } := by
    rw [hcores]
    exact if_neg hi
  have hstate : t.multiCoreMonitor.coreStates i = .running := by
    rw [hmonitor]
    exact if_pos ⟨hi, h.halted⟩
  refine ⟨⟨by rw [hcore], ?_, ?_⟩, ?_⟩
  · rw [hflags]
    exact if_neg hi
  · unfold MultiCoreMonitor.shouldCoreExecute
    rw [hstate]
  · rw [hcore]
    exact h.notFinished

end Simulator

/-! ## Cycles -/

namespace Emulation
variable {N n : Nat} {e e' e₀ : Emulation N n}

/-- The turn of core `i` in the cycle that begins in `e`. -/
def TurnOf (e : Emulation N n) (i : Fin N) (t : Simulator N n) : Prop :=
  Turn Simulator.executeCoreStep (List.finRange N) e.toSimulator i t

/-- What a cycle makes of the state `s` in which the cores have stepped: nothing that
matters here, or the release. -/
structure Settled (e : Emulation N n) (s : Simulator N n) (e' : Emulation N n) : Prop where
  kept : e.releaseAllCoresCalled = true ∨ s.releaseSignal = false →
    e'.cores = s.cores ∧ e'.coreBootedFlags = s.coreBootedFlags ∧
      e'.multiCoreMonitor = s.multiCoreMonitor ∧
      e'.releaseAllCoresCalled = e.releaseAllCoresCalled ∧
      e'.releaseProcessed = e.releaseProcessed
  released : e.releaseAllCoresCalled = false → s.releaseSignal = true →
    e.releaseProcessed = false →
    e'.cores = s.releaseAllCores.cores ∧
      e'.coreBootedFlags = s.releaseAllCores.coreBootedFlags ∧
      e'.multiCoreMonitor = s.releaseCores.multiCoreMonitor ∧
      e'.releaseAllCoresCalled = true

theorem release_frees {s : Simulator N n} (currentCycle : Nat) (hcores : e.cores = s.cores)
    (hflags : e.coreBootedFlags = s.coreBootedFlags)
    (hmonitor : e.multiCoreMonitor = s.multiCoreMonitor)
    (hdetected : e.releaseSignalDetected = true) (hprocessed : e.releaseProcessed = false) :
    (e.release currentCycle).cores = s.releaseAllCores.cores ∧
      (e.release currentCycle).coreBootedFlags = s.releaseAllCores.coreBootedFlags ∧
      (e.release currentCycle).multiCoreMonitor = s.releaseCores.multiCoreMonitor ∧
      (e.release currentCycle).releaseAllCoresCalled = true := by
  unfold release handleReleaseSignal Simulator.releaseAllCores Simulator.releaseCores
  simp [hdetected, hprocessed, hcores, hflags, hmonitor]

theorem endRunCycle_settled (e : Emulation N n) (currentCycle : Nat) (s : Simulator N n) :
    Settled e s (e.endRunCycle currentCycle s) := by
  have hsignal : ({ e with toSimulator := s.updateTimer } : Emulation N n).releaseSignal =
      s.releaseSignal := rfl
  unfold endRunCycle checkReleaseSignal
  rw [hsignal]
  constructor
  · rintro (hcalled | hnone)
    · cases s.releaseSignal <;> simp [hcalled, Simulator.updateTimer]
    · simp [hnone, Simulator.updateTimer]
  · intro hcalled hmagic hprocessed
    simp only [hmagic, hcalled, if_true, Bool.not_false, Bool.and_true]
    exact release_frees currentCycle rfl rfl rfl rfl hprocessed

theorem endDebugCycle_settled (e : Emulation N n) (s : Simulator N n) :
    Settled e s (e.endDebugCycle s) := by
  unfold endDebugCycle checkReleaseSignal
  simp only
  constructor
  · rintro (hcalled | hnone)
    · simp [hcalled, Simulator.updateTimer]
    · cases e.releaseAllCoresCalled <;> simp [hnone, Simulator.updateTimer]
  · intro hcalled hmagic hprocessed
    simp only [hmagic, hcalled, if_true, Bool.not_false]
    exact release_frees 0 rfl rfl rfl rfl hprocessed

/-- A cycle of either loop; says whether the release signal is in memory at its end. -/
inductive Cycle (e : Emulation N n) : Bool → Emulation N n → Prop where
  | run {s : Simulator N n} (currentCycle : Nat) : e.coresStep = .ok s →
    Cycle e s.releaseSignal (e.endRunCycle currentCycle s)
  | debug {s : Simulator N n} : e.coresStep = .ok s →
    Cycle e s.releaseSignal (e.endDebugCycle s)

theorem Cycle.settled {signal : Bool} (h : Cycle e signal e') :
    ∃ s, e.coresStep = .ok s ∧ signal = s.releaseSignal ∧ Settled e s e' := by
  cases h with
  | run currentCycle hs => exact ⟨_, hs, rfl, endRunCycle_settled ..⟩
  | debug hs => exact ⟨_, hs, rfl, endDebugCycle_settled ..⟩

/-- What the simulator goes through in calls of `run` and `debug_run`, and whether a
cycle has ended with the release signal in memory. A call of `run` begins by setting
the count of cycles. -/
inductive Reached (e₀ : Emulation N n) : Bool → Emulation N n → Prop where
  | start : Reached e₀ false e₀
  | count {released : Bool} {e : Emulation N n} (cycles : Nat) : Reached e₀ released e →
    Reached e₀ released { e with globalCycleCount := cycles }
  | cycle {released signal : Bool} {e e' : Emulation N n} : Reached e₀ released e →
    Cycle e signal e' → Reached e₀ (released || signal) e'

/-- A call of `run` with a cycle to go. -/
theorem runLoop_succ (e : Emulation N n) (currentCycle cycles : Nat) :
    e.runLoop currentCycle (cycles + 1) = e.coresStep >>= fun s =>
      let e := e.endRunCycle currentCycle s
      if e.allCoresFinished then .ok e else e.runLoop (currentCycle + 1) cycles := by
  rw [runLoop, runCycle]
  cases e.coresStep <;> rfl

/-- A call of `debug_run` with a step to go. -/
theorem debugLoop_succ (e : Emulation N n) (steps : Nat) :
    e.debugLoop (steps + 1) = if e.allCoresFinished then .ok e
      else e.coresStep >>= fun s => (e.endDebugCycle s).debugLoop steps := by
  rw [debugLoop, debugCycle]
  cases e.coresStep <;> rfl

theorem runLoop_reached {released : Bool} {cycles : Nat} (h : Reached e₀ released e)
    {currentCycle : Nat} (hrun : e.runLoop currentCycle cycles = .ok e') :
    ∃ r, Reached e₀ r e' := by
  induction cycles generalizing released e currentCycle with
  | zero =>
    cases hrun
    exact ⟨released, h⟩
  | succ cycles ih =>
    rw [runLoop_succ] at hrun
    obtain ⟨s, hs, hrun⟩ := bind_eq_ok hrun
    have hnext := h.cycle (.run currentCycle hs)
    simp only at hrun
    split at hrun
    · cases hrun
      exact ⟨_, hnext⟩
    · exact ih hnext hrun

theorem debugLoop_reached {released : Bool} {steps : Nat} (h : Reached e₀ released e)
    (hrun : e.debugLoop steps = .ok e') : ∃ r, Reached e₀ r e' := by
  induction steps generalizing released e with
  | zero =>
    cases hrun
    exact ⟨released, h⟩
  | succ steps ih =>
    rw [debugLoop_succ] at hrun
    split at hrun
    · cases hrun
      exact ⟨released, h⟩
    · obtain ⟨s, hs, hrun⟩ := bind_eq_ok hrun
      exact ih (h.cycle (.debug hs)) hrun

theorem runLoop_never_waits {currentCycle cycles : Nat} :
    e.runLoop currentCycle cycles ≠ .error .waitForBoot := by
  intro h
  induction cycles generalizing e currentCycle with
  | zero => cases h
  | succ cycles ih =>
    rw [runLoop_succ] at h
    cases hs : e.coresStep with
    | error a =>
      rw [hs] at h
      exact e.coresStep_never_waits (hs.trans (congrArg Except.error (Except.error.inj h)))
    | ok s =>
      rw [hs] at h
      change (if _ then _ else _) = _ at h
      split at h
      · cases h
      · exact ih h

theorem debugLoop_never_waits {steps : Nat} : e.debugLoop steps ≠ .error .waitForBoot := by
  intro h
  induction steps generalizing e with
  | zero => cases h
  | succ steps ih =>
    rw [debugLoop_succ] at h
    split at h
    · cases h
    · cases hs : e.coresStep with
      | error a =>
        rw [hs] at h
        exact e.coresStep_never_waits (hs.trans (congrArg Except.error (Except.error.inj h)))
      | ok s =>
        rw [hs] at h
        exact ih h

/-! ## Boot safety -/

/-- A simulator just constructed, with any program loaded. -/
structure Fresh (e : Emulation N n) : Prop where
  notBooted : ∀ i, (e.cores i).hasBooted = false
  notFinished : ∀ i, (e.cores i).hasFinished = false
  flags : ∀ i, e.coreBootedFlags i = false
  monitor : e.multiCoreMonitor = MultiCoreMonitor.init N
  notCalled : e.releaseAllCoresCalled = false
  notProcessed : e.releaseProcessed = false

/-- What is known of the cores but core 0 before the release, and after it. -/
structure BootState (e : Emulation N n) (released : Bool) : Prop where
  before : released = false → e.releaseAllCoresCalled = false ∧ e.releaseProcessed = false ∧
    ∀ i : Fin N, i.val ≠ 0 → e.Held i
  after : released = true → e.releaseAllCoresCalled = true ∧
    ∀ i : Fin N, i.val ≠ 0 → e.Executable i

theorem Fresh.bootState (h : Fresh e) : BootState e false := by
  refine ⟨fun _ => ⟨h.notCalled, h.notProcessed, ?_⟩, nofun⟩
  intro i hi
  refine ⟨h.notBooted i, h.notFinished i, h.flags i, ?_⟩
  rw [h.monitor]
  exact if_neg hi

theorem coresStep_held {s s' : Simulator N n} {i : Fin N} (hi : i.val ≠ 0) (h : s.Held i)
    (hstep : s.coresStep = .ok s') : s'.Held i :=
  foldlM_invariant (P := fun s : Simulator N n => s.Held i)
    (fun _ _ _ hs hturn => hs.turn hi hturn) hstep h

theorem coresStep_executable {s s' : Simulator N n} {i : Fin N} (h : s.Executable i)
    (hstep : s.coresStep = .ok s') : s'.Executable i :=
  foldlM_invariant (P := fun s : Simulator N n => s.Executable i)
    (fun _ _ _ hs hturn => hs.turn hturn) hstep h

/-- The cycle that ends with the signal, if none did before. -/
theorem Cycle.release (h : Cycle e true e') (hboot : BootState e false) :
    e'.releaseAllCoresCalled = true ∧ ∀ i : Fin N, i.val ≠ 0 →
      e'.Executable i ∧ (e'.cores i).hasFinished = false := by
  obtain ⟨s, hs, hsignal, hsettled⟩ := h.settled
  obtain ⟨hcalled, hprocessed, hheld⟩ := hboot.before rfl
  obtain ⟨hcores, hflags, hmonitor, hcalled'⟩ :=
    hsettled.released hcalled hsignal.symm hprocessed
  refine ⟨hcalled', fun i hi => ?_⟩
  exact (coresStep_held hi (hheld i hi) hs).released hi hcores hflags hmonitor

theorem Cycle.bootState {released signal : Bool} (h : Cycle e signal e')
    (hboot : BootState e released) : BootState e' (released || signal) := by
  cases released with
  | true =>
    obtain ⟨hcalled, hexec⟩ := hboot.after rfl
    obtain ⟨s, hs, _, hsettled⟩ := h.settled
    obtain ⟨hcores, hflags, hmonitor, hcalled', _⟩ := hsettled.kept (.inl hcalled)
    refine ⟨nofun, fun _ => ⟨hcalled'.trans hcalled, fun i hi => ?_⟩⟩
    obtain ⟨hb, hf, hr⟩ := coresStep_executable (hexec i hi) hs
    exact ⟨by rw [hcores, hb], by rw [hflags, hf], by rw [hmonitor, hr]⟩
  | false =>
    cases signal with
    | true =>
      obtain ⟨hcalled, hfreed⟩ := h.release hboot
      exact ⟨nofun, fun _ => ⟨hcalled, fun i hi => (hfreed i hi).1⟩⟩
    | false =>
      obtain ⟨hcalled, hprocessed, hheld⟩ := hboot.before rfl
      obtain ⟨s, hs, hsignal, hsettled⟩ := h.settled
      obtain ⟨hcores, hflags, hmonitor, hcalled', hprocessed'⟩ :=
        hsettled.kept (.inr hsignal.symm)
      refine ⟨fun _ => ⟨hcalled'.trans hcalled, hprocessed'.trans hprocessed, fun i hi => ?_⟩,
        nofun⟩
      obtain ⟨hb, hfin, hf, hm⟩ := coresStep_held hi (hheld i hi) hs
      exact ⟨by rw [hcores, hb], by rw [hcores, hfin], by rw [hflags, hf], by rw [hmonitor, hm]⟩

theorem Reached.bootState {released : Bool} (hfresh : Fresh e₀) (h : Reached e₀ released e) :
    BootState e released := by
  induction h with
  | start => exact hfresh.bootState
  | count cycles _ ih => exact ⟨ih.before, ih.after⟩
  | cycle _ hcycle ih => exact hcycle.bootState ih

/-- Until the release the other cores come to no step. -/
theorem BootState.skips (h : BootState e false) {i : Fin N} {t : Simulator N n} (hi : i.val ≠ 0)
    (hturn : e.TurnOf i t) : t.entersStep i = false := by
  obtain ⟨_, _, hheld⟩ := h.before rfl
  exact (hturn.invariant (P := fun s : Simulator N n => s.Held i)
    (fun _ _ _ hs hturn => hs.turn hi hturn) (hheld i hi)).entersStep hi

/-- Where a run from a fresh simulator has come to, be it between two cycles of `run`
or of `debug_run`. Before the first cycle that ends with the release signal, the turn
of every core but core 0 ends before its step; that cycle leaves each of them
executable and unfinished, and executable they stay. No turn, and neither loop,
waits for the boot. -/
theorem boot_safety {released : Bool} (hfresh : Fresh e₀) (h : Reached e₀ released e) :
    (released = false → ∀ (i : Fin N) t, i.val ≠ 0 → e.TurnOf i t →
      t.entersStep i = false ∧ t.executeCoreStep i = .ok t) ∧
    (released = false → ∀ e', Cycle e true e' → ∀ i : Fin N, i.val ≠ 0 →
      e'.Executable i ∧ (e'.cores i).hasFinished = false) ∧
    (released = true → ∀ i : Fin N, i.val ≠ 0 →
      e.Executable i ∧ ∀ j t, e.TurnOf j t → t.Executable i) ∧
    (∀ i t, e.TurnOf i t → t.executeCoreStep i ≠ .error .waitForBoot) ∧
    (∀ cycles, e.run cycles ≠ .error .waitForBoot ∧
      ∀ e', e.run cycles = .ok e' → ∃ r, Reached e₀ r e') ∧
    ∀ steps, e.debugRun steps ≠ .error .waitForBoot ∧
      ∀ e', e.debugRun steps = .ok e' → ∃ r, Reached e₀ r e' := by
  have hboot := h.bootState hfresh
  refine ⟨?_, ?_, ?_, fun i t _ => t.executeCoreStep_never_waits i, ?_, ?_⟩
  · rintro rfl i t hi hturn
    have hskip := hboot.skips hi hturn
    exact ⟨hskip, Simulator.executeCoreStep_skips hskip⟩
  · rintro rfl e' hcycle
    exact (hcycle.release hboot).2
  · rintro rfl i hi
    obtain ⟨_, hexec⟩ := hboot.after rfl
    refine ⟨hexec i hi, fun j t hturn => ?_⟩
    exact hturn.invariant (P := fun s : Simulator N n => s.Executable i)
      (fun _ _ _ hs hturn => hs.turn hturn) (hexec i hi)
  · exact fun cycles => ⟨runLoop_never_waits, fun e' hrun => runLoop_reached (h.count 0) hrun⟩
  · exact fun steps => ⟨debugLoop_never_waits, fun e' hrun => debugLoop_reached h hrun⟩

/-- The constructor, with a program in memory and DDR. -/
def start (N n : Nat) (ddr : DDRMemory) (memory : ByteMemory n) : Emulation N n :=
  { Simulator.init N n ddr with
    memory := memory
    releaseSignalDetected := false
    releaseSignalCycle := 0
    releaseProcessed := false
    releaseAllCoresCalled := false
    globalCycleCount := 0 }

theorem start_fresh (N n : Nat) (ddr : DDRMemory) (memory : ByteMemory n) :
    Fresh (start N n ddr memory) := ⟨fun _ => rfl, fun _ => rfl, fun _ => rfl, rfl, rfl, rfl⟩

/-- One core, a memory of 1 MB, and a program in DDR. -/
def running (program : List Word) : Emulation 1 0x100000 :=
  start 1 0x100000 (ByteMemory.writeBlock ⟨fun _ => 0⟩ 0 program) ⟨fun _ => 0⟩

/-- Two cores, and a memory of 1 MB with the release signal. -/
def signalled : Emulation 2 0x100000 :=
  start 2 0x100000 ⟨fun _ => 0⟩ ⟨store32 (fun _ => 0) Simulator.releaseSignalAddr 0xDEADBEEF⟩

theorem signalled_release : ∃ e', Cycle signalled true e' ∧ e'.Executable 1 ∧
    (e'.cores 1).hasFinished = false := by
  have hsignal : signalled.coresStep.toOption.map (·.releaseSignal) = some true := by
    decide +kernel
  cases hs : signalled.coresStep with
  | error a =>
    rw [hs] at hsignal
    cases hsignal
  | ok s =>
    rw [hs] at hsignal
    have hmagic : s.releaseSignal = true := Option.some.inj hsignal
    have hcycle : Cycle signalled true (signalled.endRunCycle 0 s) := hmagic ▸ .run 0 hs
    exact ⟨_, hcycle, (boot_safety (start_fresh ..) .start).2.1 rfl _ hcycle 1 (by decide)⟩

end Emulation
end RiscvEmulator.System
