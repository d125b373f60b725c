import RiscvEmulator.System.BootSafety

/-! # The reports of the cores

`report_core_state` stores the state of a core in the array of the monitor. The store
goes to memory, and nothing reads it there: the states of the monitor are those of the
boot, whatever the cores report. -/
namespace RiscvEmulator.System
open Memory Cores

namespace Simulator
variable {N n : Nat} {s : Simulator N n} {i : Fin N}

def coreStateAddr (i : Fin N) : Word :=
  BitVec.ofNat 32 (MultiCoreMonitor.coreStatesAddr + 4 * i.val)

/-- In its turn core `i` executes `report_core_state` with `v`. -/
structure Reports (s : Simulator N n) (i : Fin N) (v : Word) : Prop where
  enters : s.entersStep i = true
  stores : ∃ s₁ instr, (s.marked i).Fetches i s₁ instr ∧ opcode instr = 0x23 ∧
    funct3Of instr = 0x2 ∧ (s₁.cores i).regs (rs1Of instr) + immS instr = coreStateAddr i ∧
    (s₁.cores i).regs (rs2Of instr) = v

end Simulator

namespace Emulation
open Simulator (core0)
variable {N n : Nat} {e e₀ e' : Emulation N n} {i : Fin N} {released signal : Bool} {v : Word}
  {t : Simulator N n}

/-! ## The states of the monitor -/

/-- The states at a point of the boot. -/
def bootStates (released : Bool) (i : Fin N) : CoreState :=
  if released = true ∨ i.val = 0 then .running else .halt

theorem coresStep_monitor {s s' : Simulator N n} (h : s.coresStep = .ok s') :
    s'.multiCoreMonitor = s.multiCoreMonitor :=
  Lib.Fold.foldlM_invariant
    (P := fun t : Simulator N n => t.multiCoreMonitor = s.multiCoreMonitor)
    (fun _ _ _ ht hturn => (Simulator.executeCoreStep_frame hturn).monitor.trans ht) h rfl

/-- Only the cycle of the release changes the states. -/
theorem Cycle.states (h : Cycle e signal e') (hboot : BootState e released)
    (hstates : e.multiCoreMonitor.coreStates = bootStates released) :
    e'.multiCoreMonitor.coreStates = bootStates (released || signal) := by
  obtain ⟨s, hs, hsignal, hsettled⟩ := h.settled
  have hmonitor := coresStep_monitor hs
  cases released with
  | true =>
    obtain ⟨_, _, hkept, _⟩ := hsettled.kept (.inl (hboot.after rfl).1)
    rw [hkept, hmonitor, hstates]
    rfl
  | false =>
    obtain ⟨hcalled, hprocessed, _⟩ := hboot.before rfl
    cases signal with
    | false =>
      obtain ⟨_, _, hkept, _⟩ := hsettled.kept (.inr hsignal.symm)
      rw [hkept, hmonitor, hstates]
      rfl
    | true =>
      obtain ⟨_, _, hreleased, _⟩ := hsettled.released hcalled hsignal.symm hprocessed
      rw [hreleased]
      unfold Simulator.releaseCores
      rw [hmonitor, hstates]
      funext i
      by_cases hi : i.val = 0 <;> simp [bootStates, hi]

theorem Reached.states (hfresh : Fresh e₀) (h : Reached e₀ released e) :
    e.multiCoreMonitor.coreStates = bootStates released := by
  induction h with
  | start =>
    rw [hfresh.monitor]
    funext i
    simp [MultiCoreMonitor.init, bootStates]
  | count cycles _ ih => exact ih
  | cycle hreached hcycle ih => exact hcycle.states (hreached.bootState hfresh) ih

/-! ## Reports -/

/-- At the end of the cycle the state of core `i` is the one that `v` stands for, and the
other cores have the states they had. -/
structure Reported (e e' : Emulation N n) (i : Fin N) (v : Word) : Prop where
  own : e'.multiCoreMonitor.coreStates i = .ofValue v
  others : ∀ j, j ≠ i → e'.multiCoreMonitor.coreStates j = e.multiCoreMonitor.coreStates j

/-- A report comes true in the cycle it is made in exactly if it says that the core runs,
and the cycle is not the one that releases other cores. -/
theorem report_iff (hfresh : Fresh e₀) (h : Reached e₀ released e) (hcycle : Cycle e signal e')
    (hof : e.TurnOf i t) (hreport : t.Reports i v) (hv : v = 1 ∨ v = 2 ∨ v = 3 ∨ v = 0xFF) :
    Reported e e' i v ↔ v = 2 ∧ (released = true ∨ signal = false ∨ N = 1) := by
  have hbefore := h.states hfresh
  have hafter := (h.cycle hcycle).states hfresh
  -- a core that steps has been released or is core 0
  have hruns : released = true ∨ i.val = 0 := by
    by_contra hheld
    rw [not_or] at hheld
    obtain ⟨hnot, hi⟩ := hheld
    obtain rfl := Bool.eq_false_of_not_eq_true hnot
    have henters := hreport.enters
    rw [(h.bootState hfresh).skips hi hof] at henters
    cases henters
  have hown : e'.multiCoreMonitor.coreStates i = .running := by
    rw [hafter]
    refine if_pos ?_
    rcases hruns with hreleased | hi
    · exact .inl (by rw [hreleased]; rfl)
    · exact .inr hi
  have hvalue : CoreState.running = .ofValue v ↔ v = 2 := by
    rcases hv with rfl | rfl | rfl | rfl <;> decide
  constructor
  · intro hreported
    refine ⟨hvalue.mp (hown.symm.trans hreported.own), ?_⟩
    by_contra hrelease
    rw [not_or, not_or] at hrelease
    obtain ⟨hnot, hsignal, hN⟩ := hrelease
    have hi : i.val = 0 := hruns.resolve_left hnot
    have hlt := i.isLt
    let j : Fin N := ⟨1, by omega⟩
    have hj : j ≠ i := fun hji => absurd (congrArg Fin.val hji) (by simp [j, hi])
    have hsame := hreported.others j hj
    rw [hafter, hbefore, Bool.eq_false_of_not_eq_true hnot, Bool.eq_true_of_not_eq_false hsignal]
      at hsame
    cases hsame
  · rintro ⟨hv2, hrelease⟩
    refine ⟨hown.trans (hvalue.mpr hv2), fun j hj => ?_⟩
    rw [hafter, hbefore]
    rcases hrelease with rfl | rfl | rfl
    · rfl
    · rw [Bool.or_false]
    · exact absurd (Subsingleton.elim j i) hj

/-- Core 0 reports `v`. -/
def reporting (v : Word) : Emulation 1 0x100000 :=
  running [0x00090137, (v <<< 20) ||| 0x00000093, 0x00112023]

/-- What there is to see of its third cycle: the store, and what the monitor makes of it. -/
def thirdCycle (v : Word) : Option (Bool × Bool × Word × Word × Word × CoreState) :=
  ((reporting v).run 2).toOption.bind fun e =>
    (e.runCycle 2).toOption.bind fun e' =>
      ((e.toSimulator.marked core0).prepare core0).toOption.map fun r =>
        (e.entersStep core0, r.1, (r.2.fetchPc core0).1, (r.2.cores core0).regs 2,
          (r.2.cores core0).regs 1, e'.multiCoreMonitor.coreStates core0)

theorem reporting_run (h : thirdCycle v = some (true, true, 0x00112023, 0x90000, v, .running)) :
    ∃ released signal e e', Reached (reporting v) released e ∧ Cycle e signal e' ∧
      e.TurnOf 0 e.toSimulator ∧ e.toSimulator.Reports 0 v ∧
      e'.multiCoreMonitor.coreStates 0 = .running := by
  obtain ⟨e, he, h⟩ := Option.bind_eq_some_iff.mp h
  obtain ⟨e', he', h⟩ := Option.bind_eq_some_iff.mp h
  obtain ⟨⟨executing, u⟩, hu, hfacts⟩ := Option.map_eq_some_iff.mp h
  simp only [Prod.mk.injEq] at hfacts
  obtain ⟨henters, rfl, hinstr, hx2, hx1, hstate⟩ := hfacts
  obtain ⟨released, hreached⟩ :=
    runLoop_reached (Reached.start.count 0) (Lib.Fold.eq_ok_of_toOption he)
  obtain ⟨signal, hcycle⟩ : ∃ signal, Cycle e signal e' := by
    have hrun := Lib.Fold.eq_ok_of_toOption he'
    unfold runCycle at hrun
    cases hs : e.coresStep with
    | error a =>
      rw [hs] at hrun
      cases hrun
    | ok s =>
      rw [hs] at hrun
      obtain rfl := Except.ok.inj hrun
      exact ⟨_, .run 2 hs⟩
  refine ⟨released, signal, e, e', hreached, hcycle, ⟨[], [], rfl, rfl⟩, ⟨henters, u, _,
    ⟨Lib.Fold.eq_ok_of_toOption hu, rfl⟩, ?_⟩, hstate⟩
  have hfetched : (u.fetchPc 0).1 = 0x00112023 := hinstr
  have haddr : (u.cores 0).regs (rs1Of 0x00112023) = 0x90000 := hx2
  rw [hfetched, haddr]
  exact ⟨by decide, by decide, by decide, hx1⟩

/-- The report of state 3. -/
theorem idle_not_reported : ∃ released signal e e', Reached (reporting 3) released e ∧
    Cycle e signal e' ∧ e.TurnOf 0 e.toSimulator ∧ e.toSimulator.Reports 0 3 ∧
      ¬Reported e e' 0 3 := by
  obtain ⟨released, signal, e, e', hreached, hcycle, hof, hreports, hstate⟩ :=
    reporting_run (v := 3) (by decide +kernel)
  refine ⟨released, signal, e, e', hreached, hcycle, hof, hreports, fun hreported => ?_⟩
  have hown := hreported.own
  rw [hstate] at hown
  cases hown

/-- The report of state 2. -/
theorem report_iff_running : ∃ released signal e e', Reached (reporting 2) released e ∧
    Cycle e signal e' ∧ e.TurnOf 0 e.toSimulator ∧ e.toSimulator.Reports 0 2 ∧
      (Reported e e' 0 2 ↔ (2 : Word) = 2 ∧ (released = true ∨ signal = false ∨ 1 = 1)) := by
  obtain ⟨released, signal, e, e', hreached, hcycle, hof, hreports, _⟩ :=
    reporting_run (v := 2) (by decide +kernel)
  exact ⟨released, signal, e, e', hreached, hcycle, hof, hreports,
    report_iff (start_fresh ..) hreached hcycle hof hreports (.inr (.inl rfl))⟩

end Emulation
end RiscvEmulator.System
