import RiscvEmulator.System.Continuation

/-! # Register 0

Many cases of the switch store into `rd` without looking whether it is `x0`, and rely on
what follows the switch to clear it. The exits that skip this store into no register. -/
namespace RiscvEmulator.Cores
open Memory

/-- The debugger's `set_reg`, with any number for a register. -/
def Debugger.setReg (c : Core) (regNum value : Word) : Core :=
  if regNum < 32 ∧ regNum ≠ 0 then c.setReg (regNum.setWidth 5) value else c

theorem Debugger.setReg_zero (c : Core) (regNum value : Word) :
    (Debugger.setReg c regNum value).regs 0 = c.regs 0 := by
  unfold Debugger.setReg
  split
  · next h =>
    have hne : regNum.setWidth 5 ≠ (0 : Reg) := by
      intro h0
      have hnat : regNum.toNat % 2 ^ 5 = 0 := by
        simpa using congrArg BitVec.toNat h0
      have hlt : regNum.toNat < 32 := h.1
      exact h.2 (BitVec.eq_of_toNat_eq ((Nat.mod_eq_of_lt hlt).symm.trans hnat))
    exact Function.update_of_ne hne.symm ..
  · rfl

end RiscvEmulator.Cores

namespace RiscvEmulator.System
open Memory Cores Interrupt

namespace Simulator
variable {N n : Nat} {s s₁ s' t u : Simulator N n} {i : Fin N} {instr : Word}

/-! ## The exits -/

theorem SystemLeaves.done {old : Word} {e : Exit (Simulator N n)}
    (h : SystemLeaves i instr old s e) : ∃ t, e = .done t := by
  cases h <;> exact ⟨_, rfl⟩

theorem Leaves.fault_regs {direct skips : Prop} {e : Exit (Simulator N n)}
    (h : Leaves i direct skips s e) (he : e = .fault t) :
    (t.cores i).regs = (s.cores i).regs := by
  cases h with
  | finish h rd v => cases he
  | next h => cases he
  | fault h ex =>
    cases he
    rw [setCore_cores_self, ← h.fixed.cores]
    rfl
  | skip h hs => cases he

/-- Where the switch is left by `return`, no register has changed. -/
theorem execute_fault_regs (h : s.execute i instr = .ok (.fault t)) :
    (t.cores i).regs = (s.cores i).regs := by
  unfold execute at h
  simp only at h
  split at h
  case h_2 =>
    generalize (s.cores i).op instr = r at h
    cases r <;> cases h
  case h_5 =>
    have hload : Leaves i False False s (s.load i instr) := s.load_leaves i instr
    exact hload.fault_regs (Except.ok.inj h)
  case h_6 => exact (s.store_leaves i instr).fault_regs (Except.ok.inj h)
  case h_7 =>
    have hamo : Leaves i False (s.AmoSkips i instr) s (s.amo i instr) := s.amo_leaves i instr
    exact hamo.fault_regs (Except.ok.inj h)
  case h_11 =>
    obtain ⟨u, hdone⟩ := (s.system_leaves i instr).done
    rw [hdone] at h
    cases h
  all_goals cases h

/-! ## The step -/

/-- `x0` of core `i` is 0. -/
def ZeroIsZero (i : Fin N) (s : Simulator N n) : Prop := (s.cores i).regs 0 = 0

theorem retire_done_zero (t : Simulator N n) (i : Fin N) : ZeroIsZero i (retire i (.done t)) := by
  obtain ⟨_, v, hcore⟩ := retire_done t i (t.cores i)
  rw [setCore_self] at hcore
  unfold ZeroIsZero
  rw [hcore]
  exact Function.update_self (0 : Cores.Reg) (0 : Word) (t.cores i).regs

theorem ZeroIsZero.step (hs : ZeroIsZero i s) (h : s.step i = .ok s') : ZeroIsZero i s' := by
  rcases step_cases h with hp | ⟨s₁, instr, e, hf, he, rfl⟩
  · exact (congrFun (SameButGate.prepare hp).regs 0).trans hs
  · cases e with
    | done t => exact retire_done_zero t i
    | fault t =>
      have hregs := (execute_fault_regs he).trans hf.regs
      exact (congrFun hregs 0).trans hs

theorem ZeroIsZero.turn (hs : ZeroIsZero i s) (h : s.executeCoreStep i = .ok s') :
    ZeroIsZero i s' := by
  rcases executeCoreStep_cases h with ⟨_, rfl⟩ | ⟨t, hstep, rfl⟩
  · exact hs
  · have hmark : ZeroIsZero i (s.marked i) := by
      unfold ZeroIsZero marked
      rwa [setCore_cores_self]
    have ht := hmark.step hstep
    have hfetch : (t.fetch i (t.cores i).pc).2.cores = t.cores := (t.fetch_fixed i _).cores
    unfold ZeroIsZero checkInfiniteLoop
    simp only
    split
    · rw [setCore_cores_self, hfetch]
      exact ht
    · rw [hfetch]
      exact ht

/-! ## Runs -/

/-- Everything that happens to a simulator: steps and turns of any core, what ends a cycle,
resets, and the debugger's writes. -/
inductive Happens (s : Simulator N n) : Simulator N n → Prop
  | step {t : Simulator N n} (j : Fin N) (h : s.step j = .ok t) : Happens s t
  | turn {t : Simulator N n} (j : Fin N) (h : s.executeCoreStep j = .ok t) : Happens s t
  | ends {t : Simulator N n} (h : EndMove s t) : Happens s t
  | setReg (j : Fin N) (regNum value : Word) :
    Happens s (s.setCore j (Debugger.setReg (s.cores j) regNum value))
  | reset (j : Fin N) (memorySize : Option Nat) :
    Happens s (s.setCore j ((s.cores j).reset j.val memorySize))

theorem reset_zero (c : Core) (coreId : Nat) (memorySize : Option Nat) :
    (c.reset coreId memorySize).regs 0 = 0 := rfl

theorem ZeroIsZero.setCore {c : Core} (hs : ZeroIsZero i s) (j : Fin N)
    (hc : j = i → c.regs 0 = 0) : ZeroIsZero i (s.setCore j c) := by
  unfold ZeroIsZero
  by_cases hj : i = j
  · subst hj
    rw [setCore_cores_self]
    exact hc rfl
  · rw [setCore_cores_other s j c hj]
    exact hs

theorem Happens.zero (h : Happens s t) (hs : ZeroIsZero i s) : ZeroIsZero i t := by
  cases h with
  | step j h =>
    by_cases hj : i = j
    · subst hj
      exact hs.step h
    · exact (congrArg (fun c => Core.regs c 0) ((step_frame h).others i hj)).trans hs
  | turn j h =>
    by_cases hj : i = j
    · subst hj
      exact hs.turn h
    · exact (congrArg (fun c => Core.regs c 0) ((executeCoreStep_frame h).others i hj)).trans hs
  | ends h =>
    obtain ⟨booted, hcore⟩ := (h.meanwhile (i := i)).leftAlone.core
    unfold ZeroIsZero
    rw [hcore]
    exact hs
  | setReg j regNum value =>
    refine hs.setCore j ?_
    rintro rfl
    exact (Debugger.setReg_zero ..).trans hs
  | reset j memorySize => exact hs.setCore j fun _ => rfl

theorem happens_zero (h : Relation.ReflTransGen Happens s t) (hs : ZeroIsZero i s) :
    ZeroIsZero i t := by
  induction h with
  | refl => exact hs
  | tail _ hmove ih => exact hmove.zero ih

/-- After any run from a reset of core `i`, its `x0` is 0, and so is what the next instruction
finds there, before and after it reads a CSR. -/
theorem zero_register {c : Core} {coreId : Nat} {memorySize : Option Nat}
    (hreset : s.cores i = c.reset coreId memorySize) (h : Relation.ReflTransGen Happens s t) :
    (t.cores i).regs 0 = 0 ∧ ∀ t₁ instr, t.Fetches i t₁ instr →
      ((t₁.fetchPc i).2.cores i).regs 0 = 0 ∧
        ∀ csrAddr, (((t₁.fetchPc i).2.readCsr i csrAddr).2.cores i).regs 0 = 0 := by
  have hs : ZeroIsZero i s := by
    unfold ZeroIsZero
    rw [hreset]
    exact reset_zero ..
  have ht := happens_zero h hs
  refine ⟨ht, fun t₁ instr hf => ?_⟩
  have hzero : ((t₁.fetchPc i).2.cores i).regs 0 = 0 := (congrFun hf.regs 0).trans ht
  refine ⟨hzero, fun csrAddr => ?_⟩
  obtain ⟨time, hread⟩ := (t₁.fetchPc i).2.readCsr_state i csrAddr
  rw [hread, setCore_cores_self]
  exact hzero

/-- The debugger writes 7 to `x0` of a core just built, and the timer ticks. -/
def written : Simulator 1 0x100000 :=
  let s := init 1 0x100000 ⟨fun _ => 0⟩
  (s.setCore core0 (Debugger.setReg (s.cores core0) 0 7)).updateTimer

theorem zero_register_written : (written.cores core0).regs 0 = 0 ∧
    ∀ t₁ instr, written.Fetches core0 t₁ instr →
      ((t₁.fetchPc core0).2.cores core0).regs 0 = 0 ∧
        ∀ csrAddr, (((t₁.fetchPc core0).2.readCsr core0 csrAddr).2.cores core0).regs 0 = 0 :=
  zero_register (s := init 1 0x100000 ⟨fun _ => 0⟩) (Core.reset_init 0 0).symm
    ((Relation.ReflTransGen.single (.setReg core0 0 7)).tail (.ends .tick))

end Simulator
end RiscvEmulator.System
