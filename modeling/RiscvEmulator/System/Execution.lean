import Mathlib.Logic.Relation
import RiscvEmulator.System.Step

/-! # How a step unfolds

What precedes the fetch only touches the stepped core's `pc`, CSRs and flags;
after it, the step is the switch on the fetched word. -/
namespace RiscvEmulator.System
open Memory Cores

namespace Simulator
variable {N n : Nat}

section
variable (s : Simulator N n) (i : Fin N) (c c' : Core)

@[simp] theorem setCore_cores_self : (s.setCore i c).cores i = c := by
  simp [setCore]

theorem setCore_cores_other {j : Fin N} (h : j ≠ i) : (s.setCore i c).cores j = s.cores j := by
  simp [setCore, h]

@[simp] theorem setCore_setCore : (s.setCore i c).setCore i c' = s.setCore i c' := by
  simp [setCore]

@[simp] theorem setCore_self : s.setCore i (s.cores i) = s := by
  simp [setCore]

end

/-- A core that executes: the monitor lets it, it has booted, and it does not
wait for an interrupt. -/
structure Running (s : Simulator N n) (i : Fin N) : Prop where
  released : s.multiCoreMonitor.shouldCoreExecute i = true
  booted : (s.cores i).hasBooted = true
  awake : (s.cores i).isWaitingForInterrupt = false

/-- No interrupt is taken at the beginning of the step. -/
def NoInterrupt (s : Simulator N n) (i : Fin N) : Prop :=
  (s.cores i).interruptTaken (s.pendingLines i) = none

/-- Core 0. -/
def core0 {N : Nat} : Fin (N + 1) := ⟨0, N.succ_pos⟩

/-- A program at address 0, in memory and DDR, and all cores running. -/
def loaded (N n : Nat) (program : List Word) (regs : Fin N → Reg → Word) : Simulator N n :=
  let s := init N n (ByteMemory.writeBlock ⟨fun _ => 0⟩ 0 program)
  { s with
    cores i := { Core.init i.val 0 with regs := regs i, hasBooted := true }
    memory := s.memory.writeBlock 0 program
    coreBootedFlags _ := true
    multiCoreMonitor := { s.multiCoreMonitor with coreStates _ := .running } }

/-- The word core `i` finds at its `pc`, and what is left by looking. -/
def fetchPc (s : Simulator N n) (i : Fin N) : Word × Simulator N n := s.fetch i (s.cores i).pc

/-- The step of core `i` from `s` fetches `instr`, having come to `s₁` before. -/
structure Fetches (s : Simulator N n) (i : Fin N) (s₁ : Simulator N n) (instr : Word) : Prop where
  prepared : s.prepare i = .ok (true, s₁)
  fetched : (s₁.fetchPc i).1 = instr

variable {s s₁ s' : Simulator N n} {i : Fin N} {instr : Word}

theorem Fetches.step_eq (h : s.Fetches i s₁ instr) :
    s.step i = ((s₁.fetchPc i).2.execute i instr).map (retire i) := by
  unfold step
  rw [h.prepared, ← h.fetched]
  unfold fetchPc
  cases h' : (s₁.fetch i (s₁.cores i).pc).2.execute i (s₁.fetch i (s₁.cores i).pc).1 <;>
    simp [bind, Except.bind, h', Except.map, pure, Except.pure]

instance (s : Simulator N n) (i : Fin N) : Decidable (s.Running i) :=
  decidable_of_iff (s.multiCoreMonitor.shouldCoreExecute i = true ∧
      (s.cores i).hasBooted = true ∧ (s.cores i).isWaitingForInterrupt = false)
    ⟨fun h => ⟨h.1, h.2.1, h.2.2⟩, fun h => ⟨h.released, h.booted, h.awake⟩⟩

/-- A core that does not come to its fetch. -/
theorem step_idle (h : s.prepare i = .ok (false, s')) : s.step i = .ok s' := by
  unfold step
  rw [h]
  rfl

/-- The state after a step that does not abort. -/
def stepped (s : Simulator N n) (i : Fin N) : Simulator N n := (s.step i).toOption.getD s

theorem step_stepped (h : (s.step i).toOption.isSome) : s.step i = .ok (s.stepped i) := by
  unfold stepped
  generalize s.step i = r at h
  cases r with
  | ok t => rfl
  | error e => cases h

/-! ## Before the fetch -/

theorem Running.handleInterrupt (h : s.Running i) : (s.handleInterrupt i).Running i := by
  obtain ⟨pc, csrs, hc⟩ := Core.handleInterrupt_sameButTrap (s.cores i) (s.pendingLines i)
  refine ⟨h.released, ?_, ?_⟩ <;>
    simp only [Simulator.handleInterrupt, setCore_cores_self, hc]
  · exact h.booted
  · exact h.awake

theorem Running.prepare_eq (h : s.Running i) :
    s.prepare i = .ok (true, s.handleInterrupt i) := by
  have h' := h.handleInterrupt
  unfold prepare boot leaveWait
  simp only [h'.released, h'.booted, h'.awake, if_true, Except.map]
  rfl

theorem handleInterrupt_eq_of_noInterrupt (h : s.NoInterrupt i) :
    s.handleInterrupt i = s.setCore i ((s.cores i).updateMipCsr (s.pendingLines i)) := by
  unfold Simulator.handleInterrupt
  rw [Core.handleInterrupt_none h]

/-! ## The moves of the gate -/

/-- What core `i` can do before it fetches: take an interrupt, mark itself as booted,
and look whether to wait on. -/
inductive GateMove (i : Fin N) (s : Simulator N n) : Simulator N n → Prop where
  | interrupt : GateMove i s (s.handleInterrupt i)
  | boot (flags : Fin N → Bool) : GateMove i s
      { s.setCore i { s.cores i with hasBooted := true } with coreBootedFlags := flags }
  | look (waits : Bool) : GateMove i s (s.setCore i
      { (s.cores i).updateMipCsr (s.pendingLines i) with isWaitingForInterrupt := waits })

theorem boot_cases (h : s.boot i = .ok s') :
    ((s.cores i).hasBooted = true ∧ s' = s) ∨ ((s.cores i).hasBooted = false ∧
      s' = { s.setCore i { s.cores i with hasBooted := true } with
        coreBootedFlags := Function.update s.coreBootedFlags i true }) := by
  unfold boot at h
  split at h
  · next hbooted => exact .inl ⟨hbooted, (Except.ok.inj h).symm⟩
  · next hbooted =>
    split at h
    · cases h
    · exact .inr ⟨Bool.eq_false_of_not_eq_true hbooted, (Except.ok.inj h).symm⟩

theorem boot_moves (h : s.boot i = .ok s') : Relation.ReflTransGen (GateMove i) s s' := by
  rcases boot_cases h with ⟨_, rfl⟩ | ⟨_, rfl⟩
  · exact .refl
  · exact .single (.boot _)

/-- A core that waits looks whether something is pending, and goes on if there is. -/
theorem leaveWait_cases (s : Simulator N n) (i : Fin N) :
    ((s.cores i).isWaitingForInterrupt = false ∧ s.leaveWait i = (true, s)) ∨
    ((s.cores i).isWaitingForInterrupt = true ∧
      ((s.cores i).checkPendingInterrupts (s.pendingLines i)).1 = false ∧
      s.leaveWait i = (false, s.setCore i
        { (s.cores i).updateMipCsr (s.pendingLines i) with isWaitingForInterrupt := true })) ∨
    ((s.cores i).isWaitingForInterrupt = true ∧
      ((s.cores i).checkPendingInterrupts (s.pendingLines i)).1 = true ∧
      s.leaveWait i = (true, (s.setCore i { (s.cores i).updateMipCsr (s.pendingLines i) with
        isWaitingForInterrupt := false }).handleInterrupt i)) := by
  cases hw : (s.cores i).isWaitingForInterrupt with
  | false =>
    refine .inl ⟨rfl, ?_⟩
    simp only [leaveWait, hw]
    rfl
  | true =>
    cases hp : ((s.cores i).checkPendingInterrupts (s.pendingLines i)).1 with
    | false =>
      -- what is pending sits in `mip` alone, so the mark the core waits by is still set
      have hcore : { (s.cores i).updateMipCsr (s.pendingLines i) with
          isWaitingForInterrupt := true } =
            ((s.cores i).checkPendingInterrupts (s.pendingLines i)).2 := by
        rw [← hw]
        rfl
      refine .inr (.inl ⟨rfl, rfl, ?_⟩)
      rw [hcore]
      simp only [leaveWait, hw, hp]
      rfl
    | true =>
      refine .inr (.inr ⟨rfl, rfl, ?_⟩)
      simp only [leaveWait, hw, hp, if_true]
      rfl

theorem leaveWait_moves (s : Simulator N n) (i : Fin N) :
    Relation.ReflTransGen (GateMove i) s (s.leaveWait i).2 := by
  rcases s.leaveWait_cases i with ⟨_, h⟩ | ⟨_, _, h⟩ | ⟨_, _, h⟩
  · rw [h]
  · rw [h]
    exact .single (.look true)
  · rw [h]
    exact .tail (.single (.look false)) .interrupt

/-- The monitor holds the core back, or the core boots and comes to the wait. -/
theorem prepare_cases {b : Bool} (h : s.prepare i = .ok (b, s')) :
    (b = false ∧ s' = s.handleInterrupt i) ∨
      ∃ t, (s.handleInterrupt i).boot i = .ok t ∧ t.leaveWait i = (b, s') := by
  unfold prepare at h
  simp only at h
  split at h
  · cases hb : (s.handleInterrupt i).boot i with
    | error e =>
      rw [hb] at h
      cases h
    | ok t =>
      rw [hb] at h
      exact .inr ⟨t, rfl, Except.ok.inj h⟩
  · cases h
    exact .inl ⟨rfl, rfl⟩

theorem prepare_moves {b : Bool} (h : s.prepare i = .ok (b, s')) :
    Relation.ReflTransGen (GateMove i) s s' := by
  have hint : Relation.ReflTransGen (GateMove i) s (s.handleInterrupt i) := .single .interrupt
  rcases prepare_cases h with ⟨_, rfl⟩ | ⟨t, hb, hgate⟩
  · exact hint
  · have hwait := leaveWait_moves t i
    rw [hgate] at hwait
    exact (hint.trans (boot_moves hb)).trans hwait

/-- The states differ in core `i`, but not in its registers, and in boot flags. -/
def SameButGate (i : Fin N) (s s' : Simulator N n) : Prop :=
  ∃ c flags, c.regs = (s.cores i).regs ∧ s' = { s.setCore i c with coreBootedFlags := flags }

namespace SameButGate

theorem setCore {c : Core} (h : c.regs = (s.cores i).regs) :
    SameButGate i s (s.setCore i c) := ⟨c, s.coreBootedFlags, h, rfl⟩

theorem refl (s : Simulator N n) (i : Fin N) : SameButGate i s s :=
  ⟨s.cores i, s.coreBootedFlags, rfl, by rw [setCore_self]⟩

theorem regs (h : SameButGate i s s') : (s'.cores i).regs = (s.cores i).regs := by
  obtain ⟨c, flags, hc, rfl⟩ := h
  rw [← hc]
  exact congrArg Core.regs (setCore_cores_self s i c)

theorem trans (h : SameButGate i s s₁) (h' : SameButGate i s₁ s') : SameButGate i s s' := by
  have hregs := h.regs
  obtain ⟨c, flags, _, rfl⟩ := h
  obtain ⟨c', flags', hc', rfl⟩ := h'
  refine ⟨c', flags', hc'.trans hregs, ?_⟩
  simp [Simulator.setCore]

theorem move (h : GateMove i s s') : SameButGate i s s' := by
  cases h with
  | interrupt =>
    exact .setCore (Core.handleInterrupt_sameButTrap (s.cores i) (s.pendingLines i)).regs
  | boot flags => exact ⟨{ s.cores i with hasBooted := true }, flags, rfl, rfl⟩
  | look waits => exact .setCore rfl

theorem handleInterrupt (s : Simulator N n) (i : Fin N) : SameButGate i s (s.handleInterrupt i) :=
  .move .interrupt

theorem prepare {b : Bool} (h : s.prepare i = .ok (b, s')) : SameButGate i s s' := by
  have hmoves := prepare_moves h
  clear h
  induction hmoves with
  | refl => exact .refl s i
  | tail _ hmove ih => exact ih.trans (.move hmove)

end SameButGate

/-! ## After the switch -/

/-- Retiring counts the instruction and clears `x0`. -/
theorem retire_done (s : Simulator N n) (i : Fin N) (c : Core) :
    let s' := retire i (.done (s.setCore i c))
    s' = { s.setCore i (s'.cores i) with counters := s'.counters } ∧
      ∃ v, s'.cores i = { c with regs := Function.update c.regs 0 0, performanceCounter := v } := by
  intro s'
  obtain ⟨v, hv⟩ := c.updatePerformanceCounter_core s.counters
  have hcore : s'.cores i = (c.updatePerformanceCounter s.counters).1.setReg 0 0 := by
    simp only [s', retire, setCore_cores_self, setCore_setCore]
    rfl
  refine ⟨?_, v, ?_⟩
  · rw [hcore]
    simp only [s', retire, setCore_cores_self, setCore_setCore]
    rfl
  · rw [hcore, hv]
    rfl

/-! ## Without translation -/

/-- No core of `i`'s accesses is translated. -/
def Untranslated (s : Simulator N n) (i : Fin N) : Prop := (s.mmus i).pageTableBase = 0

instance (s : Simulator N n) (i : Fin N) : Decidable (s.Untranslated i) :=
  inferInstanceAs (Decidable (_ = _))

theorem SameButGate.untranslated (h : SameButGate i s s') (hs : s.Untranslated i) :
    s'.Untranslated i := by
  obtain ⟨c, flags, _, rfl⟩ := h
  exact hs

theorem Untranslated.translate_eq (h : s.Untranslated i) (addr : Word) (w instruction : Bool) :
    s.translate i addr w instruction = (.ok addr, s) := by
  unfold translate
  rw [MMU.translateAddress_off h]
  simp

theorem Untranslated.cacheTranslate_eq (h : s.Untranslated i) (addr : Word)
    (w instruction : Bool) : s.cacheTranslate i addr w instruction = (addr, s) := by
  unfold cacheTranslate
  rw [h.translate_eq]

theorem Untranslated.fetch_eq (h : s.Untranslated i) (addr : Word) :
    s.fetch i addr =
      ((s.hierarchy.fetch i addr).1, { s with hierarchy := (s.hierarchy.fetch i addr).2 }) := by
  unfold fetch
  rw [h.cacheTranslate_eq]

theorem Untranslated.dataRead_eq (h : s.Untranslated i) (addr : Word) :
    s.dataRead i addr =
      ((s.hierarchy.load i addr).1, { s with hierarchy := (s.hierarchy.load i addr).2 }) := by
  unfold dataRead
  rw [h.cacheTranslate_eq]

theorem Untranslated.dataWrite_eq (h : s.Untranslated i) (addr data : Word) :
    s.dataWrite i addr data =
      { s with hierarchy := s.hierarchy.store i addr addr data } := by
  unfold dataWrite
  rw [h.cacheTranslate_eq]

theorem Untranslated.dataAtomic_eq (h : s.Untranslated i) (addr : Word) (op : Atomic) :
    s.dataAtomic i addr op = ((s.hierarchy.atomic i addr op).1,
      { s with hierarchy := (s.hierarchy.atomic i addr op).2 }) := by
  unfold dataAtomic
  rw [h.cacheTranslate_eq]

theorem Untranslated.dataReadWord_eq (h : s.Untranslated i) (addr : Word) :
    s.dataReadWord i addr = ((s.hierarchy.readWord i addr).1,
      { s with hierarchy := (s.hierarchy.readWord i addr).2 }) := by
  unfold dataReadWord
  rw [h.cacheTranslate_eq]

theorem Untranslated.dataWriteWord_eq (h : s.Untranslated i) (addr data : Word) :
    s.dataWriteWord i addr data =
      { s with hierarchy := s.hierarchy.writeWord i addr data } := by
  unfold dataWriteWord
  rw [h.cacheTranslate_eq]

/-! ## The fetch -/

/-- The fetch does not look at the cores. -/
theorem fetch_setCore (s : Simulator N n) (i : Fin N) (c : Core) (addr : Word) :
    (s.setCore i c).fetch i addr = ((s.fetch i addr).1, (s.fetch i addr).2.setCore i c) := by
  have ht : (s.setCore i c).translate i addr false true =
      ((s.translate i addr false true).1, (s.translate i addr false true).2.setCore i c) := rfl
  unfold fetch cacheTranslate
  rw [ht]
  rcases s.translate i addr false true with ⟨result, s'⟩
  cases result <;> rfl

/-- The fetch reads one word through the instruction cache. -/
theorem fetch_frame (s : Simulator N n) (i : Fin N) (addr : Word) :
    (s.fetch i addr).2.cores = s.cores ∧ (s.fetch i addr).2.memory = s.memory ∧
      (s.fetch i addr).2.hierarchy.l1Dcaches = s.hierarchy.l1Dcaches := by
  unfold fetch cacheTranslate translate
  rcases (s.mmus i).translateAddress s.memory.readWord addr false true with ⟨result, mmu⟩
  cases result <;> exact ⟨rfl, rfl, rfl⟩

theorem fetchPc_setCore (s : Simulator N n) (i : Fin N) (c : Core) (hpc : c.pc = (s.cores i).pc) :
    (s.setCore i c).fetchPc i = ((s.fetchPc i).1, (s.fetchPc i).2.setCore i c) := by
  unfold fetchPc
  rw [fetch_setCore, setCore_cores_self, hpc]

/-! ## A loaded program -/

section
variable (N n : Nat) (program : List Word) (regs : Fin N → Reg → Word) (i : Fin N)

theorem loaded_running : (loaded N n program regs).Running i := ⟨rfl, rfl, rfl⟩

theorem loaded_untranslated : (loaded N n program regs).Untranslated i := rfl

theorem loaded_good : (loaded N n program regs).hierarchy.Good := Hierarchy.init_good _

theorem loaded_pendingLines : (loaded N n program regs).pendingLines i = ⟨false, false, false⟩ := by
  unfold pendingLines
  rw [PendingLines.mk.injEq]
  exact ⟨rfl, rfl, Interrupt.PLIC.init_hasPendingInterrupts ..⟩

theorem loaded_noInterrupt : (loaded N n program regs).NoInterrupt i := by
  unfold NoInterrupt
  rw [loaded_pendingLines]
  exact Core.interruptTaken_silent _

theorem loaded_fetchPc (instr : Word) : ((loaded N n [instr] regs).fetchPc i).1 = instr := by
  have hread : (ByteMemory.writeBlock ⟨fun _ => 0⟩ 0 [instr] : DDRMemory).readWord (byteAddr 0) =
      instr := by
    have h := ByteMemory.readWord_writeWord (n := ddrSize) ⟨fun _ => 0⟩ 0 0 instr (by decide)
    rwa [Function.update_self] at h
  have h := Hierarchy.fetch_value (Hierarchy.init_good (N := N)
    (ByteMemory.writeBlock ⟨fun _ => 0⟩ 0 [instr])) i 0
  rw [Hierarchy.init_instruction_view, hread] at h
  have hpc : ((loaded N n [instr] regs).cores i).pc = byteAddr 0 := rfl
  have hhier : (loaded N n [instr] regs).hierarchy =
      Hierarchy.init N (ByteMemory.writeBlock ⟨fun _ => 0⟩ 0 [instr]) := rfl
  unfold fetchPc
  rw [(loaded_untranslated N n [instr] regs i).fetch_eq, hpc, hhier]
  exact h

/-- With the core in another state, the step still finds the program's one instruction. -/
theorem loaded_setCore_fetches (instr : Word) {c : Core} (hpc : c.pc = 0)
    (hb : c.hasBooted = true) (ha : c.isWaitingForInterrupt = false) :
    ∃ s₁, ((loaded N n [instr] regs).setCore i c).Fetches i s₁ instr := by
  have hr : ((loaded N n [instr] regs).setCore i c).Running i := by
    refine ⟨rfl, ?_, ?_⟩
    · rw [setCore_cores_self, hb]
    · rw [setCore_cores_self, ha]
  have hlines : ((loaded N n [instr] regs).setCore i c).pendingLines i = ⟨false, false, false⟩ :=
    loaded_pendingLines N n [instr] regs i
  have hn : ((loaded N n [instr] regs).setCore i c).NoInterrupt i := by
    unfold NoInterrupt
    rw [hlines]
    exact Core.interruptTaken_silent _
  refine ⟨_, hr.prepare_eq, ?_⟩
  rw [handleInterrupt_eq_of_noInterrupt hn, setCore_setCore, setCore_cores_self,
    fetchPc_setCore _ i _ hpc]
  exact loaded_fetchPc N n regs i instr

/-- The step that finds the program finds its one instruction. -/
theorem loaded_fetches (instr : Word) : ∃ s₁, (loaded N n [instr] regs).Fetches i s₁ instr := by
  have h := loaded_setCore_fetches N n regs i instr
    (c := (loaded N n [instr] regs).cores i) rfl rfl rfl
  rwa [setCore_self] at h

end

end Simulator
end RiscvEmulator.System
