import RiscvEmulator.System.Continuation
import RiscvEmulator.System.TrapReturn

/-! # WFI

The gate of a waiting core does what it should: until an interrupt is pending its
steps leave registers, `pc` and memory alone. But no core ever waits, since the switch
does not know WFI by its encoding and steps over it. -/
namespace RiscvEmulator.System
open Memory Cores

/-- WFI. -/
def wfi : Word := 0x10500073

namespace Simulator
variable {N n : Nat} {s s₁ s' t u v w : Simulator N n} {i : Fin N}

/-- What `check_pending_interrupts` says of core `i`. -/
def Pending (s : Simulator N n) (i : Fin N) : Prop :=
  ((s.cores i).checkPendingInterrupts (s.pendingLines i)).1 = true

instance (s : Simulator N n) (i : Fin N) : Decidable (s.Pending i) :=
  inferInstanceAs (Decidable (_ = _))

/-! ## The gate -/

/-- From `u` to `w` core `i` has looked for interrupts, and may have been marked as
booted. -/
structure Looked (i : Fin N) (u w : Simulator N n) : Prop where
  core : ∃ booted, w.cores i =
    { (u.cores i).updateMipCsr (u.pendingLines i) with hasBooted := booted }
  lines : w.pendingLines i = u.pendingLines i
  memory : w.memory = u.memory
  hierarchy : w.hierarchy = u.hierarchy

theorem Looked.waits (h : Looked i u w) :
    (w.cores i).isWaitingForInterrupt = (u.cores i).isWaitingForInterrupt := by
  obtain ⟨booted, hcore⟩ := h.core
  rw [hcore]
  rfl

/-- Looking again finds the same. -/
theorem Looked.pending (h : Looked i u w) : w.Pending i ↔ u.Pending i := by
  obtain ⟨booted, hcore⟩ := h.core
  have hmip : ((u.cores i).updateMipCsr (u.pendingLines i)).updateMipCsr (u.pendingLines i) =
      (u.cores i).updateMipCsr (u.pendingLines i) := by
    simp [Core.updateMipCsr, Core.setCsr]
  have hcheck : (((u.cores i).updateMipCsr (u.pendingLines i)).checkPendingInterrupts
      (u.pendingLines i)).1 = ((u.cores i).checkPendingInterrupts (u.pendingLines i)).1 := by
    unfold Core.checkPendingInterrupts
    rw [hmip]
  unfold Pending
  rw [hcore, h.lines, ← hcheck]
  rfl

theorem Looked.again (h : Looked i u w) (hv : v = w.setCore i
    ((w.cores i).updateMipCsr (w.pendingLines i))) : Looked i u v := by
  obtain ⟨booted, hcore⟩ := h.core
  subst hv
  refine ⟨⟨booted, ?_⟩, h.lines, h.memory, h.hierarchy⟩
  rw [setCore_cores_self, h.lines, hcore]
  simp [Core.updateMipCsr, Core.setCsr]

theorem handleInterrupt_looked (h : ¬u.Pending i) : Looked i u (u.handleInterrupt i) := by
  have hnone : u.NoInterrupt i := by
    unfold NoInterrupt Core.interruptTaken
    exact if_neg h
  rw [handleInterrupt_eq_of_noInterrupt hnone]
  exact ⟨⟨(u.cores i).hasBooted, setCore_cores_self ..⟩, rfl, rfl, rfl⟩

theorem Looked.boot (h : Looked i u w) (hboot : w.boot i = .ok v) : Looked i u v := by
  rcases boot_cases hboot with ⟨_, rfl⟩ | ⟨_, rfl⟩
  · exact h
  · obtain ⟨booted, hcore⟩ := h.core
    refine ⟨⟨true, ?_⟩, h.lines, h.memory, h.hierarchy⟩
    refine (setCore_cores_self w i { w.cores i with hasBooted := true }).trans ?_
    rw [hcore]

theorem Looked.leaveWait (h : Looked i u w) (hwaits : (u.cores i).isWaitingForInterrupt = true)
    (hnone : ¬u.Pending i) : (w.leaveWait i).1 = false ∧ Looked i u (w.leaveWait i).2 := by
  have hw : (w.cores i).isWaitingForInterrupt = true := h.waits.trans hwaits
  have hcheck : ((w.cores i).checkPendingInterrupts (w.pendingLines i)).1 = false :=
    Bool.eq_false_of_not_eq_true (h.pending.not.mpr hnone)
  simp only [Simulator.leaveWait, hw, hcheck]
  exact ⟨rfl, h.again rfl⟩

/-- A step of a waiting core with nothing pending. -/
theorem waiting_step (hwaits : (u.cores i).isWaitingForInterrupt = true) (hnone : ¬u.Pending i)
    (hstep : u.step i = .ok v) : Looked i u v := by
  have hlooked := handleInterrupt_looked hnone
  have hprep : ∀ b w, u.prepare i = .ok (b, w) → b = false ∧ Looked i u w := by
    intro b w hp
    rcases prepare_cases hp with ⟨rfl, rfl⟩ | ⟨t, hb, hgate⟩
    · exact ⟨rfl, hlooked⟩
    · have hwait := (hlooked.boot hb).leaveWait hwaits hnone
      rw [hgate] at hwait
      exact hwait
  rcases step_cases hstep with hp | ⟨s₁, instr, e, hf, _, _⟩
  · exact (hprep _ _ hp).2
  · cases (hprep _ _ hf.prepared).1

/-- What a step leaves alone while its core waits. -/
structure Idled (i : Fin N) (u v : Simulator N n) : Prop where
  regs : (v.cores i).regs = (u.cores i).regs
  pc : (v.cores i).pc = (u.cores i).pc
  memory : v.memory = u.memory
  hierarchy : v.hierarchy = u.hierarchy

theorem Looked.idled (h : Looked i u v) : Idled i u v := by
  obtain ⟨booted, hcore⟩ := h.core
  exact ⟨by rw [hcore]; rfl, by rw [hcore]; rfl, h.memory, h.hierarchy⟩

/-- A core that waits goes on waiting as long as nothing is pending, and all its steps
are idle. -/
theorem waiting_idles (hwaits : (t.cores i).isWaitingForInterrupt = true)
    (h : Continues i (fun u => ¬u.Pending i) t u) :
    (u.cores i).isWaitingForInterrupt = true ∧
      ∀ v, ¬u.Pending i → u.step i = .ok v → Idled i u v := by
  have hstill : (u.cores i).isWaitingForInterrupt = true :=
    h.invariant (fun _ _ hu hrest => hrest.waits.trans hu)
      (fun _ _ hu hnone hok => (waiting_step hu hnone hok).waits.trans hu) hwaits
  exact ⟨hstill, fun v hnone hok => (waiting_step hstill hnone hok).idled⟩

/-! ## No wait is begun -/

theorem next_waits (s : Simulator N n) (i : Fin N) :
    ((exitState (s.next i)).cores i).isWaitingForInterrupt =
      (s.cores i).isWaitingForInterrupt := by
  unfold next exitState
  rw [setCore_cores_self]
  rfl

theorem setReg_waits (c : Core) (rd : Cores.Reg) (v : Word) :
    (if rd ≠ 0 then c.setReg rd v else c).isWaitingForInterrupt = c.isWaitingForInterrupt := by
  split <;> rfl

theorem core_writeCsr_waits (c : Core) (a : BitVec 12) (v : Word) :
    (c.writeCsr a v).isWaitingForInterrupt = c.isWaitingForInterrupt := by
  unfold Core.writeCsr
  split <;> rfl

/-- The four CSRs a trap writes. -/
theorem core_writeCsrs_waits (c : Core) (a₀ a₁ a₂ a₃ : BitVec 12) (v₀ v₁ v₂ v₃ : Word) :
    ((((c.writeCsr a₀ v₀).writeCsr a₁ v₁).writeCsr a₂ v₂).writeCsr a₃ v₃).isWaitingForInterrupt =
      c.isWaitingForInterrupt := by
  rw [core_writeCsr_waits, core_writeCsr_waits, core_writeCsr_waits, core_writeCsr_waits]

theorem takeException_waits (c : Core) (cause : ExceptionCause) :
    (c.takeException cause).isWaitingForInterrupt = c.isWaitingForInterrupt := by
  unfold Core.takeException
  simp only
  split
  · exact core_writeCsrs_waits ..
  · exact core_writeCsrs_waits ..

theorem writeCsr_waits (s : Simulator N n) (i : Fin N) (a : BitVec 12) (v : Word) :
    ((s.writeCsr i a v).cores i).isWaitingForInterrupt = (s.cores i).isWaitingForInterrupt := by
  rw [writeCsr_cores]
  exact core_writeCsr_waits ..

theorem SystemLeaves.waits {instr old : Word} {e : Exit (Simulator N n)}
    (h : SystemLeaves i instr old s e) :
    ((exitState e).cores i).isWaitingForInterrupt = (s.cores i).isWaitingForInterrupt := by
  cases h with
  | mret =>
    unfold Simulator.mret exitState
    rw [setCore_cores_self]
    rfl
  | ecall =>
    unfold exitState
    rw [setCore_cores_self, takeException_waits]
  | skip => rw [next_waits, setCore_cores_self, setReg_waits]
  | update =>
    unfold csrUpdate
    simp only
    rw [next_waits, writeCsr_waits, setCore_cores_self, setReg_waits]
  | unknown => exact next_waits ..

theorem system_waits (s : Simulator N n) (i : Fin N) (instr : Word) :
    ((exitState (s.system i instr)).cores i).isWaitingForInterrupt =
      (s.cores i).isWaitingForInterrupt := by
  obtain ⟨time, htime⟩ := s.readCsr_state i (instr.extractLsb' 20 12)
  rw [(s.system_leaves i instr).waits, htime, setCore_cores_self]
  rfl

theorem execute_waits {instr : Word} {e : Exit (Simulator N n)} (h : s.execute i instr = .ok e) :
    ((exitState e).cores i).isWaitingForInterrupt = (s.cores i).isWaitingForInterrupt := by
  by_cases hsystem : opcode instr = 0x73
  · rw [execute_system hsystem] at h
    obtain rfl := Except.ok.inj h
    exact s.system_waits i instr
  · obtain ⟨u, c, hu, ht, hc⟩ := execute_ran hsystem h
    obtain ⟨regs, pc, rfl⟩ := hc
    rw [ht, setCore_cores_self]

theorem retire_waits (e : Exit (Simulator N n)) :
    ((retire i e).cores i).isWaitingForInterrupt =
      ((exitState e).cores i).isWaitingForInterrupt := by
  obtain ⟨regs, v, hcore⟩ := retire_core e
  rw [hcore]

theorem handleInterrupt_waits (s : Simulator N n) (i : Fin N) :
    ((s.handleInterrupt i).cores i).isWaitingForInterrupt =
      (s.cores i).isWaitingForInterrupt := by
  obtain ⟨pc, csrs, hc⟩ := Core.handleInterrupt_sameButTrap (s.cores i) (s.pendingLines i)
  unfold Simulator.handleInterrupt
  rw [setCore_cores_self, hc]

theorem boot_waits (h : s.boot i = .ok s') :
    (s'.cores i).isWaitingForInterrupt = (s.cores i).isWaitingForInterrupt := by
  rcases boot_cases h with ⟨_, rfl⟩ | ⟨_, rfl⟩
  · rfl
  · simp [Simulator.setCore]

theorem leaveWait_of_awake (h : (s.cores i).isWaitingForInterrupt = false) :
    s.leaveWait i = (true, s) := by
  simp [leaveWait, h]

/-- A core goes past the gate exactly if it is then awake. -/
theorem leaveWait_awake (s : Simulator N n) (i : Fin N) :
    (s.leaveWait i).1 = !((s.leaveWait i).2.cores i).isWaitingForInterrupt := by
  rcases s.leaveWait_cases i with ⟨hw, h⟩ | ⟨_, _, h⟩ | ⟨_, _, h⟩
  · rw [h, hw]
    rfl
  · rw [h, setCore_cores_self]
    rfl
  · rw [h, handleInterrupt_waits, setCore_cores_self]
    rfl

/-- What comes before the fetch begins no wait, and a core that fetches is awake. -/
theorem prepare_awake {b : Bool} (h : s.prepare i = .ok (b, s')) :
    ((s.cores i).isWaitingForInterrupt = false → (s'.cores i).isWaitingForInterrupt = false) ∧
      (b = true → (s'.cores i).isWaitingForInterrupt = false) := by
  have hint := s.handleInterrupt_waits i
  rcases prepare_cases h with ⟨rfl, rfl⟩ | ⟨t, hb, hgate⟩
  · exact ⟨fun hs => hint.trans hs, nofun⟩
  · have hawake := t.leaveWait_awake i
    rw [hgate] at hawake
    have hflag : (t.cores i).isWaitingForInterrupt = (s.cores i).isWaitingForInterrupt :=
      (boot_waits hb).trans hint
    refine ⟨fun hs => ?_, fun hgoes => ?_⟩
    · rw [leaveWait_of_awake (hflag.trans hs)] at hgate
      obtain rfl : t = s' := congrArg Prod.snd hgate
      exact hflag.trans hs
    · rw [hgoes] at hawake
      exact Bool.not_eq_true' _ ▸ hawake.symm

theorem Fetches.awake {instr : Word} (h : s.Fetches i s₁ instr) :
    (s₁.cores i).isWaitingForInterrupt = false := (prepare_awake h.prepared).2 rfl

theorem Fetches.executed_waits {instr : Word} {e : Exit (Simulator N n)}
    (h : s.Fetches i s₁ instr) (he : (s₁.fetchPc i).2.execute i instr = .ok e) :
    ((retire i e).cores i).isWaitingForInterrupt = false := by
  rw [retire_waits, execute_waits he, fetchPc_cores]
  exact h.awake

/-- No step begins a wait. -/
theorem step_awake (hawake : (s.cores i).isWaitingForInterrupt = false)
    (h : s.step i = .ok s') : (s'.cores i).isWaitingForInterrupt = false := by
  rcases step_cases h with hp | ⟨s₁, instr, e, hf, he, rfl⟩
  · exact (prepare_awake hp).1 hawake
  · exact hf.executed_waits he

theorem Continues.awake {steps : Simulator N n → Prop} (h : Continues i steps t u)
    (hawake : (t.cores i).isWaitingForInterrupt = false) :
    (u.cores i).isWaitingForInterrupt = false :=
  h.invariant (fun _ _ hu hrest => hrest.waits.trans hu) (fun _ _ hu _ hok => step_awake hu hok)
    hawake

/-! ## WFI -/

/-- A handler that core `c` can be sent to. -/
def InHandler (c : Core) (pc : Word) : Prop :=
  ∃ cause, pc = Core.trapTarget (c.csrRegisters 0x305) cause ∨
    pc = Core.trapTarget (c.csrRegisters 0x105) cause

/-- The wait that a WFI at `pc` is to begin: as long as nothing is pending the steps
change no register, no `pc` and no memory, and the first step that finds something
pending ends it and goes on after the WFI or in a handler. -/
structure Waits (i : Fin N) (pc : Word) (t : Simulator N n) : Prop where
  waiting : (t.cores i).isWaitingForInterrupt = true
  idles : ∀ u v, Continues i (fun u => ¬u.Pending i) t u → ¬u.Pending i → u.step i = .ok v →
    Idled i u v
  wakes : ∀ u b v, Continues i (fun u => ¬u.Pending i) t u → u.Pending i →
    u.prepare i = .ok (b, v) → (v.cores i).isWaitingForInterrupt = false ∧
      ((v.cores i).pc = pc + 4 ∨ InHandler (u.cores i) (v.cores i).pc)

theorem execute_wfi (s : Simulator N n) (i : Fin N) : s.execute i wfi = .ok (s.next i) := by
  rw [execute_systemOther s i (by decide) (by decide) (by decide)]
  unfold systemOther
  simp only
  rw [if_neg (by decide), if_neg (by decide), if_neg (by decide), if_neg (by decide),
    if_neg (by decide), setCore_self]

/-- WFI is stepped over. -/
theorem wfi_step (h : s.Fetches i s₁ wfi) : ∃ t, s.step i = .ok t ∧
    (t.cores i).pc = (s₁.cores i).pc + 4 ∧
    (∀ rd, rd ≠ 0 → (t.cores i).regs rd = (s₁.cores i).regs rd) ∧
    (t.cores i).isWaitingForInterrupt = false := by
  have hfetch := s₁.fetchPc_cores i
  have hstep := h.step_eq
  rw [execute_wfi] at hstep
  obtain ⟨_, v, hcore⟩ :=
    retire_done (s₁.fetchPc i).2 i (((s₁.fetchPc i).2.cores i).writeback 0 none)
  refine ⟨_, hstep, ?_, ?_, h.executed_waits (execute_wfi ..)⟩
  · exact (congrArg Core.pc hcore).trans (congrArg (fun cores => (cores i).pc + 4) hfetch)
  · intro rd hrd
    refine (congrFun (congrArg Core.regs hcore) rd).trans ?_
    rw [hfetch]
    exact Function.update_of_ne hrd ..

/-- A WFI that is fetched, be an interrupt pending or not, is stepped over, and in
nothing that may follow does the core wait. -/
theorem wfi_never_waits (h : s.Fetches i s₁ wfi) : ∃ t, s.step i = .ok t ∧
    (t.cores i).pc = (s₁.cores i).pc + 4 ∧
    (∀ rd, rd ≠ 0 → (t.cores i).regs rd = (s₁.cores i).regs rd) ∧
    (∀ u, Continues i (fun _ => True) t u → (u.cores i).isWaitingForInterrupt = false) ∧
    ¬Waits i (s₁.cores i).pc t := by
  obtain ⟨t, hstep, hpc, hregs, hawake⟩ := wfi_step h
  refine ⟨t, hstep, hpc, hregs, fun u hu => hu.awake hawake, fun hwaits => ?_⟩
  have hwaiting := hwaits.waiting
  rw [hawake] at hwaiting
  cases hwaiting

/-- One core, a memory of 1 MB, and a WFI at address 0. -/
def wfiProgram : Simulator 1 0x100000 := loaded 1 0x100000 [wfi] fun _ _ => 0

theorem wfi_never_waits_program : ∃ s₁, wfiProgram.Fetches 0 s₁ wfi ∧
    ∃ t, wfiProgram.step 0 = .ok t ∧ (t.cores 0).pc = (s₁.cores 0).pc + 4 ∧
      (∀ rd, rd ≠ 0 → (t.cores 0).regs rd = (s₁.cores 0).regs rd) ∧
      (∀ u, Continues 0 (fun _ => True) t u → (u.cores 0).isWaitingForInterrupt = false) ∧
      ¬Waits 0 (s₁.cores 0).pc t := by
  obtain ⟨s₁, h⟩ := loaded_fetches 1 0x100000 (fun _ _ => 0) 0 wfi
  exact ⟨s₁, h, wfi_never_waits h⟩

/-- With nothing pending the program goes on after its WFI. -/
theorem wfi_program_goes_on : ¬wfiProgram.Pending 0 ∧ ∃ s₁ t, wfiProgram.Fetches 0 s₁ wfi ∧
    wfiProgram.step 0 = .ok t ∧ ¬Waits 0 (s₁.cores 0).pc t := by
  obtain ⟨s₁, h⟩ := loaded_fetches 1 0x100000 (fun _ _ => 0) 0 wfi
  obtain ⟨t, hstep, _, _, hawake⟩ := wfi_step h
  refine ⟨by decide +kernel, s₁, t, h, hstep, fun hwaits => ?_⟩
  have hwaiting := hwaits.waiting
  rw [hawake] at hwaiting
  cases hwaiting

end Simulator
end RiscvEmulator.System
