import RiscvEmulator.System.Continuation

/-! # The two modes

A cycle of `run` ticks the timer twice, before and after it looks for the release,
and a cycle of `debug_run` once. So the modes part with the first cycle. The cycle
of the release, which `debug_run` passes as 0, is left out: nothing reads it. -/
namespace RiscvEmulator.System
open Memory Cores Interrupt Lib.Fold

namespace Simulator
variable {N n : Nat} {s s' : Simulator N n}

/-- The cores' steps are not ticks. -/
theorem executeCoreStep_mtime {i : Fin N} (h : s.executeCoreStep i = .ok s') :
    s'.clint.mtime = s.clint.mtime := (executeCoreStep_moves h).aside.mtime

theorem coresStep_mtime (h : s.coresStep = .ok s') : s'.clint.mtime = s.clint.mtime :=
  foldlM_invariant (P := fun t : Simulator N n => t.clint.mtime = s.clint.mtime)
    (fun _ _ _ ht hturn => (executeCoreStep_mtime hturn).trans ht) h rfl

theorem allCoresFinished_coresStep (h : s.allCoresFinished = true) : s.coresStep = .ok s := by
  have hskip : ∀ i, s.executeCoreStep i = .ok s := by
    intro i
    refine executeCoreStep_skips ?_
    unfold entersStep
    rw [List.all_eq_true.mp h i (List.mem_finRange i)]
    rfl
  unfold coresStep
  generalize List.finRange N = l
  induction l with
  | nil => rfl
  | cons i l ih =>
    rw [List.foldlM_cons, hskip]
    exact ih

end Simulator

namespace Emulation
variable {N n : Nat} {e r d : Emulation N n}

/-! ## What the modes are to agree on -/

/-- The same registers, program counters, CSRs, memory, monitor and CLINT. -/
structure SameOutcome (r d : Emulation N n) : Prop where
  regs : ∀ i, (r.cores i).regs = (d.cores i).regs
  pcs : ∀ i, (r.cores i).pc = (d.cores i).pc
  csrs : ∀ i, (r.cores i).csrRegisters = (d.cores i).csrRegisters
  memory : ∀ b < n, r.memory.bytes b = d.memory.bytes b
  cached : r.hierarchy.shared = d.hierarchy.shared
  monitor : r.multiCoreMonitor = d.multiCoreMonitor
  clint : r.clint = d.clint

/-- The count of cycles is not a part of it. -/
theorem SameOutcome.zero (e : Emulation N n) : SameOutcome { e with globalCycleCount := 0 } e :=
  ⟨fun _ => rfl, fun _ => rfl, fun _ => rfl, fun _ _ => rfl, rfl, rfl, rfl⟩

/-- The two modes come to the same, be it a state or an abort. -/
def ModesAgree (e : Emulation N n) (cycles : Word) : Prop :=
  match e.run cycles, e.debugRun cycles with
  | .ok r, .ok d => SameOutcome r d
  | .error a, .error b => a = b
  | _, _ => False

/-! ## One cycle -/

theorem release_clint (e : Emulation N n) (currentCycle : Nat) :
    (e.release currentCycle).clint = e.clint := by
  unfold release handleReleaseSignal
  split <;> rfl

theorem endRunCycle_clint (e : Emulation N n) (currentCycle : Nat) (s : Simulator N n) :
    (e.endRunCycle currentCycle s).clint = (s.clint.updateTimer 1).updateTimer 1 := by
  unfold endRunCycle checkReleaseSignal
  simp only
  split <;> split
  · exact congrArg (CLINT.updateTimer · 1) (release_clint _ currentCycle)
  · rfl
  · exact congrArg (CLINT.updateTimer · 1) (release_clint _ currentCycle)
  · rfl

theorem endRunCycle_mtime (e : Emulation N n) (currentCycle : Nat) (s : Simulator N n) :
    (e.endRunCycle currentCycle s).clint.mtime = s.clint.mtime + 2 := by
  rw [endRunCycle_clint]
  exact BitVec.add_assoc s.clint.mtime 1 1

theorem endDebugCycle_clint (e : Emulation N n) (s : Simulator N n) :
    (e.endDebugCycle s).clint = s.clint.updateTimer 1 := by
  unfold endDebugCycle checkReleaseSignal
  simp only
  split
  · split <;> split
    · exact congrArg (CLINT.updateTimer · 1) (release_clint _ 0)
    · rfl
    · exact congrArg (CLINT.updateTimer · 1) (release_clint _ 0)
    · rfl
  · rfl

/-! ## Runs -/

/-- How far `run` has taken the timer. -/
theorem runLoop_mtime {currentCycle cycles : Nat} (h : e.runLoop currentCycle cycles = .ok r) :
    ∃ k ≤ cycles, r.clint.mtime = e.clint.mtime + BitVec.ofNat 64 (2 * k) ∧
      (cycles ≠ 0 → k ≠ 0) ∧ (r.allCoresFinished = false → k = cycles) := by
  induction cycles generalizing e currentCycle with
  | zero =>
    cases h
    exact ⟨0, Nat.le_refl 0, (BitVec.add_zero _).symm, fun h => absurd rfl h, fun _ => rfl⟩
  | succ cycles ih =>
    rw [runLoop_succ] at h
    obtain ⟨s, hs, h⟩ := Lib.Fold.bind_eq_ok h
    have htick := (e.endRunCycle_mtime currentCycle s).trans
      (congrArg (· + 2) (Simulator.coresStep_mtime hs))
    simp only at h
    split at h
    · next hfinished =>
      cases h
      refine ⟨1, by omega, htick, fun _ => by decide, fun hnot => ?_⟩
      rw [hfinished] at hnot
      cases hnot
    · obtain ⟨k, hk, htime, _, hall⟩ := ih h
      refine ⟨k + 1, by omega, ?_, fun _ => by omega, fun hnot => by rw [hall hnot]⟩
      rw [htime, htick, BitVec.add_assoc, Nat.mul_add, Nat.add_comm, BitVec.ofNat_add]
      rfl

/-- How far `debug_run` has. -/
theorem debugLoop_mtime {steps : Nat} (h : e.debugLoop steps = .ok d) :
    ∃ k ≤ steps, d.clint.mtime = e.clint.mtime + BitVec.ofNat 64 k := by
  induction steps generalizing e with
  | zero =>
    cases h
    exact ⟨0, Nat.le_refl 0, (BitVec.add_zero _).symm⟩
  | succ steps ih =>
    rw [debugLoop_succ] at h
    split at h
    · cases h
      exact ⟨0, Nat.zero_le _, (BitVec.add_zero _).symm⟩
    · obtain ⟨s, hs, h⟩ := Lib.Fold.bind_eq_ok h
      have htick := (congrArg CLINT.mtime (e.endDebugCycle_clint s)).trans
        (congrArg (· + 1) (Simulator.coresStep_mtime hs))
      obtain ⟨k, hk, htime⟩ := ih h
      refine ⟨k + 1, by omega, ?_⟩
      rw [htime, htick, BitVec.add_assoc, Nat.add_comm, BitVec.ofNat_add]
      rfl

/-- With a core still to go on after `run`, the timers are apart. -/
theorem SameOutcome.finished {cycles : Word} (hcycles : cycles ≠ 0) (hr : e.run cycles = .ok r)
    (hd : e.debugRun cycles = .ok d) (h : SameOutcome r d) : r.allCoresFinished = true := by
  obtain ⟨k, hk, htime, _, hall⟩ := runLoop_mtime hr
  obtain ⟨m, hm, htime'⟩ := debugLoop_mtime hd
  cases hfin : r.allCoresFinished with
  | true => rfl
  | false =>
    have hlt := cycles.isLt
    have hpos : cycles.toNat ≠ 0 := fun h0 => hcycles (BitVec.eq_of_toNat_eq h0)
    have hsum : e.clint.mtime + BitVec.ofNat 64 (2 * k) = e.clint.mtime + BitVec.ofNat 64 m := by
      rw [← htime', ← congrArg CLINT.mtime h.clint, htime]
    have hnat := congrArg BitVec.toNat ((BitVec.add_right_inj _).mp hsum)
    rw [BitVec.toNat_ofNat, BitVec.toNat_ofNat, hall hfin] at hnat
    omega

/-- A cycle that aborts does so in both modes. -/
theorem modesAgree_of_abort {a : Abort} (h : e.coresStep = .error a) (cycles : Word) :
    e.ModesAgree cycles := by
  have hnot : e.allCoresFinished = false := by
    by_contra hfin
    rw [Simulator.allCoresFinished_coresStep (Bool.eq_true_of_not_eq_false hfin)] at h
    cases h
  unfold ModesAgree run debugRun
  cases cycles.toNat with
  | zero => exact .zero e
  | succ k =>
    have hrun : ({ e with globalCycleCount := 0 } : Emulation N n).runLoop 0 (k + 1) =
        .error a := by
      rw [runLoop_succ,
        show ({ e with globalCycleCount := 0 } : Emulation N n).coresStep = .error a from h]
      rfl
    have hdebug : e.debugLoop (k + 1) = .error a := by
      rw [debugLoop_succ, hnot, h]
      rfl
    rw [hrun, hdebug]

/-- After one cycle the timer of `run` is ahead. -/
theorem not_modesAgree_one {s : Simulator N n} (h : e.coresStep = .ok s) : ¬e.ModesAgree 1 := by
  have hrun :
      e.run 1 = .ok (({ e with globalCycleCount := 0 } : Emulation N n).endRunCycle 0 s) := by
    show Emulation.runLoop _ 0 1 = _
    rw [runLoop_succ,
      show ({ e with globalCycleCount := 0 } : Emulation N n).coresStep = .ok s from h]
    show (if _ then _ else _) = _
    split <;> rfl
  have htick := (endRunCycle_mtime { e with globalCycleCount := 0 } 0 s).trans
    (congrArg (· + 2) (Simulator.coresStep_mtime h))
  intro hagree
  unfold ModesAgree at hagree
  rw [hrun] at hagree
  cases hd : e.debugRun 1 with
  | error a =>
    rw [hd] at hagree
    exact hagree
  | ok d =>
    rw [hd] at hagree
    obtain ⟨k, hk, htime⟩ := debugLoop_mtime hd
    have hsame := htick.symm.trans ((congrArg CLINT.mtime hagree.clint).trans htime)
    have hnat := congrArg BitVec.toNat ((BitVec.add_right_inj _).mp hsame)
    have hle : k ≤ 1 := hk
    rw [BitVec.toNat_ofNat, show (2 : BitVec 64).toNat = 2 from rfl] at hnat
    omega

/-- The modes agree on every number of cycles up to `cycles` only if that is 0, or
the first of them aborts. And for no other number do they if `run` leaves a core to
go on. -/
theorem modes_agree_iff (e : Emulation N n) (cycles : Word) :
    ((∀ m ≤ cycles, e.ModesAgree m) ↔ cycles = 0 ∨ ∃ a, e.coresStep = .error a) ∧
      ∀ r d, cycles ≠ 0 → e.run cycles = .ok r → e.debugRun cycles = .ok d → SameOutcome r d →
        r.allCoresFinished = true := by
  refine ⟨⟨?_, ?_⟩, fun r d hcycles hr hd h => h.finished hcycles hr hd⟩
  · intro h
    cases hs : e.coresStep with
    | error a => exact .inr ⟨a, rfl⟩
    | ok s =>
      left
      by_contra hcycles
      refine not_modesAgree_one hs (h 1 ?_)
      rw [BitVec.le_def]
      have hpos : cycles.toNat ≠ 0 := fun h0 => hcycles (BitVec.eq_of_toNat_eq h0)
      show 1 ≤ cycles.toNat
      omega
  · rintro (rfl | ⟨a, ha⟩)
    · intro m hm
      obtain rfl : m = 0 := BitVec.eq_of_toNat_eq (Nat.le_zero.mp hm)
      exact .zero e
    · exact fun m _ => modesAgree_of_abort ha m

/-- One core over zeros. -/
def idle : Emulation 1 0x100000 := start 1 0x100000 ⟨fun _ => 0⟩ ⟨fun _ => 0⟩

theorem timer_ticks_twice : ¬idle.ModesAgree 1 := by
  have hok : idle.coresStep.toOption.isSome := by decide +kernel
  cases hs : idle.coresStep with
  | error a =>
    rw [hs] at hok
    cases hok
  | ok s => exact not_modesAgree_one hs

end Emulation
end RiscvEmulator.System
