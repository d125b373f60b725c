import RiscvEmulator.System.CsrStep

/-! # What a step leaves alone of the cores

No access touches a core, the monitor or the boot flags. An instruction changes
the core that executes it: its registers and `pc`, and with SYSTEM also CSRs and
the privilege level, but not whether it has booted or finished. -/
namespace RiscvEmulator.System
open Memory Cores Device

/-! ## Cores -/

/-- What no instruction changes. -/
structure SameLife (c c' : Core) : Prop where
  hasBooted : c'.hasBooted = c.hasBooted
  hasFinished : c'.hasFinished = c.hasFinished
  initialPc : c'.initialPc = c.initialPc

theorem SameLife.refl (c : Core) : SameLife c c := ⟨rfl, rfl, rfl⟩

theorem SameLife.trans {c c' c'' : Core} (h : SameLife c c') (h' : SameLife c' c'') :
    SameLife c c'' :=
  ⟨h'.hasBooted.trans h.hasBooted, h'.hasFinished.trans h.hasFinished,
    h'.initialPc.trans h.initialPc⟩

theorem OnlyRegs.sameLife {c c' : Core} (h : OnlyRegs c c') : SameLife c c' := by
  obtain ⟨regs, pc, rfl⟩ := h
  exact ⟨rfl, rfl, rfl⟩

/-- Interrupts and exceptions change `pc`, CSRs and the privilege level. -/
theorem sameButTrap_sameLife {c c' : Core} (h : Core.SameButTrap c c') :
    SameLife c c' ∧ c'.privilegeLevel = c.privilegeLevel := by
  obtain ⟨pc, csrs, rfl⟩ := h
  exact ⟨⟨rfl, rfl, rfl⟩, rfl⟩

theorem writeCsr_sameLife (c : Core) (a : BitVec 12) (v : Word) : SameLife c (c.writeCsr a v) := by
  unfold Core.writeCsr
  split
  all_goals exact ⟨rfl, rfl, rfl⟩

/-- The four CSRs a trap writes. -/
theorem writeCsrs_sameLife (c : Core) (a₀ a₁ a₂ a₃ : BitVec 12) (v₀ v₁ v₂ v₃ : Word) :
    SameLife c ((((c.writeCsr a₀ v₀).writeCsr a₁ v₁).writeCsr a₂ v₂).writeCsr a₃ v₃) :=
  (((writeCsr_sameLife c a₀ v₀).trans (writeCsr_sameLife _ a₁ v₁)).trans
    (writeCsr_sameLife _ a₂ v₂)).trans (writeCsr_sameLife _ a₃ v₃)

theorem SameLife.enter {c c' : Core} (h : SameLife c c') (pc : Word) (level : PrivilegeLevel) :
    SameLife c { c'.setPc pc with privilegeLevel := level } :=
  ⟨h.hasBooted, h.hasFinished, h.initialPc⟩

theorem takeException_sameLife (c : Core) (cause : ExceptionCause) :
    SameLife c (c.takeException cause) := by
  unfold Core.takeException
  simp only
  split
  · exact (writeCsrs_sameLife ..).enter ..
  · exact (writeCsrs_sameLife ..).enter ..

namespace Simulator
variable {N n : Nat} {s s₁ s' t u : Simulator N n} {i : Fin N} {direct : Prop}

/-! ## Accesses -/

/-- The cores, the monitor and the boot flags are as they were. -/
structure Fixed (s t : Simulator N n) : Prop where
  cores : t.cores = s.cores
  monitor : t.multiCoreMonitor = s.multiCoreMonitor
  flags : t.coreBootedFlags = s.coreBootedFlags

theorem Fixed.refl (s : Simulator N n) : Fixed s s := ⟨rfl, rfl, rfl⟩

theorem Fixed.trans (h : Fixed s t) (h' : Fixed t u) : Fixed s u :=
  ⟨h'.cores.trans h.cores, h'.monitor.trans h.monitor, h'.flags.trans h.flags⟩

theorem Accesses.fixed (h : Accesses i direct s t) : Fixed s t := by
  induction h with
  | refl => exact .refl s
  | tail _ hmove ih =>
    refine ih.trans ?_
    cases hmove <;> exact ⟨rfl, rfl, rfl⟩

theorem fetch_fixed (s : Simulator N n) (i : Fin N) (addr : Word) :
    Fixed s (s.fetch i addr).2 := by
  have h : Accesses i False s (s.fetch i addr).2 := s.fetch_moves i addr
  exact h.fixed

theorem fetchPc_cores (s : Simulator N n) (i : Fin N) : (s.fetchPc i).2.cores = s.cores :=
  (s.fetch_fixed i (s.cores i).pc).cores

/-! ## Instructions -/

/-- From `s` to `t` core `i` has been changed in the way of `P`, and no other core. -/
def Ran (i : Fin N) (P : Core → Core → Prop) (s t : Simulator N n) : Prop :=
  ∃ u c, Fixed s u ∧ t = u.setCore i c ∧ P (s.cores i) c

section
variable (h : Fixed s t)
include h

theorem Fixed.setCore {P : Core → Core → Prop} {c : Core} (hc : P (t.cores i) c) :
    Ran i P s (t.setCore i c) := ⟨t, c, h, rfl, h.cores ▸ hc⟩

theorem Fixed.next : Ran i OnlyRegs s (exitState (t.next i)) := h.setCore (.writeback ..)

end

/-- Every instruction but those of SYSTEM. -/
theorem execute_ran {instr : Word} {e : Exit (Simulator N n)} (hsystem : opcode instr ≠ 0x73)
    (h : s.execute i instr = .ok e) : Ran i OnlyRegs s (exitState e) := by
  obtain ⟨u, c, hu, ht, hc⟩ := execute_moved hsystem h
  exact ⟨u, c, hu.fixed, ht, hu.fixed.cores ▸ hc⟩

/-! ## SYSTEM -/

/-- MRET, in either of the two ways the switch knows it, and ECALL. -/
def SwitchesLevel (instr : Word) : Prop :=
  opcode instr = 0x73 ∧ funct3Of instr = 0x0 ∧
    (instr = 0x30200073 ∨ (funct7Of instr).toNat = 0x18 ∧ rs1Of instr = 2 ∧ rdOf instr = 0 ∨
      rdOf instr = 0 ∧ rs1Of instr = 0 ∧ (funct7Of instr).toNat = 0 ∧ instr.extractLsb' 20 12 = 0)

instance (instr : Word) : Decidable (SwitchesLevel instr) := inferInstanceAs (Decidable (_ ∧ _))

/-- What SYSTEM does to the core. -/
structure SystemRan (instr : Word) (c c' : Core) : Prop where
  life : SameLife c c'
  level : ¬SwitchesLevel instr → c'.privilegeLevel = c.privilegeLevel

theorem Ran.of_core {P Q : Core → Core → Prop} (h : Ran i P s t) (hPQ : ∀ c, P (s.cores i) c →
    Q (s.cores i) c) : Ran i Q s t := by
  obtain ⟨u, c, hu, ht, hc⟩ := h
  exact ⟨u, c, hu, ht, hPQ c hc⟩

theorem writeCsr_ran (s : Simulator N n) (i : Fin N) (a : BitVec 12) (v : Word) :
    Ran i (fun c c' => c' = c.writeCsr a v) s (s.writeCsr i a v) := by
  unfold writeCsr
  simp only
  split
  · exact ⟨s.updateMmuFromSatp i v, _, ⟨rfl, rfl, rfl⟩, rfl, rfl⟩
  · split
    · exact ⟨{ s with counters := {} }, _, ⟨rfl, rfl, rfl⟩, rfl, rfl⟩
    · exact (Fixed.refl s).setCore rfl

theorem Ran.trans {P Q R : Core → Core → Prop} (h : Ran i P s t) (h' : Ran i Q t u)
    (hR : ∀ c c', P (s.cores i) c → Q c c' → R (s.cores i) c') : Ran i R s u := by
  obtain ⟨s₁, c, hs, rfl, hc⟩ := h
  obtain ⟨t₁, c', ht, rfl, hc'⟩ := h'
  rw [setCore_cores_self] at hc'
  refine ⟨{ t₁ with cores := s₁.cores }, c', ⟨hs.cores, ht.monitor.trans hs.monitor,
    ht.flags.trans hs.flags⟩, ?_, hR c c' hc hc'⟩
  have hcores : t₁.cores = Function.update s₁.cores i c := ht.cores
  unfold setCore
  rw [hcores, Function.update_idem]

theorem csrUpdate_ran (s : Simulator N n) (i : Fin N) (instr : Word) (rd : Cores.Reg)
    (a : BitVec 12) (csrValue writeValue : Word) :
    Ran i (SystemRan instr) s (exitState (s.csrUpdate i rd a csrValue writeValue)) := by
  have hrd : Ran i (SystemRan instr) s
      (s.setCore i (if rd ≠ 0 then (s.cores i).setReg rd csrValue else s.cores i)) := by
    refine (Fixed.refl s).setCore ?_
    split <;> exact ⟨⟨rfl, rfl, rfl⟩, fun _ => rfl⟩
  have hnext := (Fixed.refl ((s.setCore i
    (if rd ≠ 0 then (s.cores i).setReg rd csrValue else s.cores i)).writeCsr i a writeValue)).next
      (i := i)
  have hwrite := hrd.trans (R := SystemRan instr) (writeCsr_ran _ i a writeValue) (by
    rintro c _ hc rfl
    exact ⟨hc.life.trans (writeCsr_sameLife c a writeValue), fun h =>
      (writeCsr_core c a writeValue).2.2.1.trans (hc.level h)⟩)
  refine hwrite.trans hnext ?_
  rintro c _ hc ⟨regs, pc, rfl⟩
  exact ⟨⟨hc.life.hasBooted, hc.life.hasFinished, hc.life.initialPc⟩, hc.level⟩

theorem SystemLeaves.ran {instr old : Word} {e : Exit (Simulator N n)}
    (h : SystemLeaves i instr old s e) (ho : opcode instr = 0x73) :
    Ran i (SystemRan instr) s (exitState e) := by
  have hnext : ∀ c, SystemRan instr (s.cores i) c →
      Ran i (SystemRan instr) s (exitState ((s.setCore i c).next i)) := by
    intro c hc
    refine ((Fixed.refl s).setCore hc).trans (Fixed.refl _).next ?_
    rintro c _ hc ⟨regs, pc, rfl⟩
    exact ⟨⟨hc.life.hasBooted, hc.life.hasFinished, hc.life.initialPc⟩, hc.level⟩
  cases h with
  | mret h3 hmret =>
    refine (Fixed.refl s).setCore ⟨⟨rfl, rfl, rfl⟩, fun h => absurd ⟨ho, h3, ?_⟩ h⟩
    exact or_assoc.mp (.inl hmret)
  | ecall h3 hecall =>
    refine (Fixed.refl s).setCore ⟨takeException_sameLife .., fun h => absurd ⟨ho, h3, ?_⟩ h⟩
    exact or_assoc.mp (.inr hecall)
  | skip =>
    refine hnext _ ?_
    split <;> exact ⟨⟨rfl, rfl, rfl⟩, fun _ => rfl⟩
  | update => exact csrUpdate_ran ..
  | unknown =>
    have hself := hnext (s.cores i) ⟨.refl _, fun _ => rfl⟩
    rwa [setCore_self] at hself

theorem system_ran (s : Simulator N n) (i : Fin N) {instr : Word} (ho : opcode instr = 0x73) :
    Ran i (SystemRan instr) s (exitState (s.system i instr)) := by
  have hread : Ran i (SystemRan instr) s (s.readCsr i (instr.extractLsb' 20 12)).2 := by
    obtain ⟨time, htime⟩ := s.readCsr_state i (instr.extractLsb' 20 12)
    rw [htime]
    exact (Fixed.refl s).setCore ⟨⟨rfl, rfl, rfl⟩, fun _ => rfl⟩
  refine hread.trans ((s.system_leaves i instr).ran ho) ?_
  intro c c' hc hc'
  exact ⟨hc.life.trans hc'.life, fun h => (hc'.level h).trans (hc.level h)⟩

/-- Every instruction. -/
theorem execute_systemRan {instr : Word} {e : Exit (Simulator N n)}
    (h : s.execute i instr = .ok e) : Ran i (SystemRan instr) s (exitState e) := by
  by_cases hsystem : opcode instr = 0x73
  · rw [execute_system hsystem] at h
    obtain rfl := Except.ok.inj h
    exact s.system_ran i hsystem
  · refine (execute_ran hsystem h).of_core ?_
    intro c hc
    refine ⟨hc.sameLife, fun _ => ?_⟩
    obtain ⟨regs, pc, rfl⟩ := hc
    rfl

/-! ## The step -/

/-- The other cores, their boot flags and the monitor are as they were; a core that
has booted stays booted and keeps its flag. -/
structure TurnFrame (i : Fin N) (s t : Simulator N n) : Prop where
  others : ∀ j, j ≠ i → t.cores j = s.cores j
  monitor : t.multiCoreMonitor = s.multiCoreMonitor
  flags : ∀ j, j ≠ i → t.coreBootedFlags j = s.coreBootedFlags j
  booted : (s.cores i).hasBooted = true →
    (t.cores i).hasBooted = true ∧ t.coreBootedFlags i = s.coreBootedFlags i

theorem TurnFrame.refl (s : Simulator N n) (i : Fin N) : TurnFrame i s s :=
  ⟨fun _ _ => rfl, rfl, fun _ _ => rfl, fun h => ⟨h, rfl⟩⟩

theorem TurnFrame.trans (h : TurnFrame i s t) (h' : TurnFrame i t u) : TurnFrame i s u := by
  refine ⟨fun j hj => (h'.others j hj).trans (h.others j hj), h'.monitor.trans h.monitor,
    fun j hj => (h'.flags j hj).trans (h.flags j hj), ?_⟩
  intro hbooted
  obtain ⟨hb, hf⟩ := h.booted hbooted
  obtain ⟨hb', hf'⟩ := h'.booted hb
  exact ⟨hb', hf'.trans hf⟩

/-- The other cores, their boot flags and the monitor are as they were; so is core
`i`'s own flag once it has booted, and whether it has finished. -/
structure StepFrame (i : Fin N) (s t : Simulator N n) : Prop where
  others : ∀ j, j ≠ i → t.cores j = s.cores j
  monitor : t.multiCoreMonitor = s.multiCoreMonitor
  flags : ∀ j, j ≠ i → t.coreBootedFlags j = s.coreBootedFlags j
  booted : (s.cores i).hasBooted = true →
    (t.cores i).hasBooted = true ∧ t.coreBootedFlags i = s.coreBootedFlags i
  finished : (t.cores i).hasFinished = (s.cores i).hasFinished

theorem StepFrame.turnFrame (h : StepFrame i s t) : TurnFrame i s t :=
  ⟨h.others, h.monitor, h.flags, h.booted⟩

theorem StepFrame.refl (s : Simulator N n) (i : Fin N) : StepFrame i s s :=
  ⟨fun _ _ => rfl, rfl, fun _ _ => rfl, fun h => ⟨h, rfl⟩, rfl⟩

theorem StepFrame.trans (h : StepFrame i s t) (h' : StepFrame i t u) : StepFrame i s u := by
  obtain ⟨hothers, hmonitor, hflags, hbooted⟩ := h.turnFrame.trans h'.turnFrame
  exact ⟨hothers, hmonitor, hflags, hbooted, h'.finished.trans h.finished⟩

theorem Ran.stepFrame {P : Core → Core → Prop} (h : Ran i P s t)
    (hP : ∀ c, P (s.cores i) c → SameLife (s.cores i) c) : StepFrame i s t := by
  obtain ⟨v, c, hv, rfl, hc⟩ := h
  have hlife := hP c hc
  refine ⟨?_, hv.monitor, fun j _ => congrFun hv.flags j, ?_, ?_⟩
  · intro j hj
    rw [setCore_cores_other _ _ _ hj, hv.cores]
  · intro hbooted
    rw [setCore_cores_self]
    exact ⟨hlife.hasBooted.trans hbooted, congrFun hv.flags i⟩
  · rw [setCore_cores_self]
    exact hlife.hasFinished

theorem StepFrame.setCore {c : Core} (h : SameLife (s.cores i) c) :
    StepFrame i s (s.setCore i c) :=
  ((Fixed.refl s).setCore (P := SameLife) h).stepFrame fun _ h => h

theorem handleInterrupt_frame (s : Simulator N n) (i : Fin N) :
    StepFrame i s (s.handleInterrupt i) :=
  .setCore (sameButTrap_sameLife (Core.handleInterrupt_sameButTrap _ _)).1

theorem boot_frame (h : s.boot i = .ok s') : StepFrame i s s' := by
  rcases boot_cases h with ⟨_, rfl⟩ | ⟨hbooted, rfl⟩
  · exact .refl _ i
  · refine ⟨fun j hj => setCore_cores_other s i _ hj, rfl, ?_, fun h => ?_, ?_⟩
    · intro j hj
      exact Function.update_of_ne hj ..
    · rw [hbooted] at h
      cases h
    · simp [Simulator.setCore]

theorem leaveWait_frame (s : Simulator N n) (i : Fin N) : StepFrame i s (s.leaveWait i).2 := by
  have hlook : ∀ waits, SameLife (s.cores i)
      { (s.cores i).updateMipCsr (s.pendingLines i) with isWaitingForInterrupt := waits } :=
    fun _ => ⟨rfl, rfl, rfl⟩
  rcases s.leaveWait_cases i with ⟨_, h⟩ | ⟨_, _, h⟩ | ⟨_, _, h⟩
  · rw [h]
    exact .refl s i
  · rw [h]
    exact .setCore (hlook true)
  · rw [h]
    exact (StepFrame.setCore (hlook false)).trans (handleInterrupt_frame _ i)

theorem prepare_frame {b : Bool} (h : s.prepare i = .ok (b, s')) : StepFrame i s s' := by
  rcases prepare_cases h with ⟨_, rfl⟩ | ⟨t, hb, hgate⟩
  · exact s.handleInterrupt_frame i
  · have hwait := t.leaveWait_frame i
    rw [hgate] at hwait
    exact ((s.handleInterrupt_frame i).trans (boot_frame hb)).trans hwait

theorem fetchPc_frame (s : Simulator N n) (i : Fin N) : StepFrame i s (s.fetchPc i).2 := by
  have h := s.fetch_fixed i (s.cores i).pc
  have hcores : (s.fetchPc i).2.cores = s.cores := h.cores
  refine ⟨fun j _ => congrFun hcores j, h.monitor, fun j _ => congrFun h.flags j, ?_, ?_⟩
  · intro hbooted
    rw [hcores]
    exact ⟨hbooted, congrFun h.flags i⟩
  · rw [hcores]

theorem retire_frame (e : Exit (Simulator N n)) : StepFrame i (exitState e) (retire i e) := by
  cases e with
  | fault t => exact .refl t i
  | done t =>
    obtain ⟨v, hv⟩ := (t.cores i).updatePerformanceCounter_core t.counters
    have hset : StepFrame i t (t.setCore i
        (((t.cores i).updatePerformanceCounter t.counters).1.setReg 0 0)) :=
      .setCore (by rw [hv]; exact ⟨rfl, rfl, rfl⟩)
    exact ⟨hset.others, hset.monitor, hset.flags, hset.booted, hset.finished⟩

/-- A step that does not abort fetches, or ends with what comes before. -/
theorem step_cases (h : s.step i = .ok s') : s.prepare i = .ok (false, s') ∨
    ∃ s₁ instr e, s.Fetches i s₁ instr ∧ (s₁.fetchPc i).2.execute i instr = .ok e ∧
      s' = retire i e := by
  cases hp : s.prepare i with
  | error a =>
    rw [step, hp] at h
    cases h
  | ok r =>
    obtain ⟨executing, s₁⟩ := r
    cases executing with
    | false =>
      rw [step, hp] at h
      rw [show s₁ = s' from Except.ok.inj h]
      exact .inl rfl
    | true =>
      have hf : s.Fetches i s₁ (s₁.fetchPc i).1 := ⟨hp, rfl⟩
      obtain ⟨e, he, hs'⟩ := hf.step_ok h
      exact .inr ⟨s₁, _, e, hf, he, hs'⟩

theorem step_frame (h : s.step i = .ok s') : StepFrame i s s' := by
  rcases step_cases h with hp | ⟨s₁, instr, e, hf, he, rfl⟩
  · exact prepare_frame hp
  · have hexec := (execute_systemRan he).stepFrame fun _ hc => hc.life
    exact (((prepare_frame hf.prepared).trans (s₁.fetchPc_frame i)).trans hexec).trans
      (retire_frame e)

/-! ## The privilege level -/

theorem GateMove.level (h : GateMove i s t) :
    (t.cores i).privilegeLevel = (s.cores i).privilegeLevel := by
  cases h with
  | interrupt =>
    unfold Simulator.handleInterrupt
    rw [setCore_cores_self]
    exact (sameButTrap_sameLife (Core.handleInterrupt_sameButTrap _ _)).2
  | boot flags => simp [Simulator.setCore]
  | look waits => simp [Core.updateMipCsr, Core.setCsr]

theorem prepare_level {b : Bool} (h : s.prepare i = .ok (b, s')) :
    (s'.cores i).privilegeLevel = (s.cores i).privilegeLevel := by
  have hmoves := prepare_moves h
  clear h
  induction hmoves with
  | refl => rfl
  | tail _ hmove ih => exact hmove.level.trans ih

/-- What follows the switch is for `x0` and the performance counter. -/
theorem retire_core (e : Exit (Simulator N n)) : ∃ regs v, (retire i e).cores i =
    { (exitState e).cores i with regs := regs, performanceCounter := v } := by
  cases e with
  | fault t => exact ⟨(t.cores i).regs, (t.cores i).performanceCounter, rfl⟩
  | done t =>
    obtain ⟨v, hv⟩ := (t.cores i).updatePerformanceCounter_core t.counters
    refine ⟨Function.update (t.cores i).regs 0 0, v, ?_⟩
    unfold retire exitState
    simp only [setCore_cores_self]
    rw [hv]
    rfl

theorem retire_level (e : Exit (Simulator N n)) :
    ((retire i e).cores i).privilegeLevel = ((exitState e).cores i).privilegeLevel := by
  obtain ⟨regs, v, hcore⟩ := retire_core e
  rw [hcore]

/-- Only ECALL and MRET change the privilege level. -/
theorem step_level (h : s.step i = .ok s')
    (hplain : ∀ s₁ instr, s.Fetches i s₁ instr → ¬SwitchesLevel instr) :
    (s'.cores i).privilegeLevel = (s.cores i).privilegeLevel := by
  rcases step_cases h with hp | ⟨s₁, instr, e, hf, he, rfl⟩
  · exact prepare_level hp
  · obtain ⟨u, c, _, ht, hc⟩ := execute_systemRan he
    rw [retire_level, ht, setCore_cores_self, hc.level (hplain s₁ instr hf), fetchPc_cores]
    exact prepare_level hf.prepared

end Simulator
end RiscvEmulator.System
