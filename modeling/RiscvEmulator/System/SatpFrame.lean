import RiscvEmulator.System.AccessFrame
import RiscvEmulator.System.SystemLeaves

/-! # Steps, `satp` and memory

The page table base of an MMU is set with `satp`, and only then: in every run it
is the one `satp` names. Only stores change the simulator's memory. -/
namespace RiscvEmulator.System
open Memory Cores

namespace Simulator
variable {N n : Nat} {s s₁ s' t u : Simulator N n} {i : Fin N}

/-! ## CSRs -/

/-- A CSR write keeps the other CSRs; a write of `sstatus` goes to `mstatus`. -/
theorem writeCsr_keeps (c : Core) {a b : BitVec 12} (v : Word) (hab : a ≠ b) (hb : b ≠ 0x300) :
    (c.writeCsr a v).csrRegisters b = c.csrRegisters b := by
  have hset : ∀ (a : BitVec 12) (w : Word), a ≠ b →
      (c.setCsr a w).csrRegisters b = c.csrRegisters b := fun a w hne =>
    Function.update_of_ne (Ne.symm hne) ..
  unfold Core.writeCsr
  split
  · exact hset _ _ hb.symm
  · exact hset _ _ hab
  · rfl
  · rfl
  all_goals first | rfl | exact hset _ _ hab

/-- What traps write. -/
def trapCsrs : List (BitVec 12) := [0x100, 0x300, 0x341, 0x342, 0x343, 0x141, 0x142, 0x143]

section
variable (c : Core) {b : BitVec 12} (hb : b ∉ trapCsrs)
include hb

theorem writeCsr_trap {a : BitVec 12} (ha : a ∈ trapCsrs) (v : Word) :
    (c.writeCsr a v).csrRegisters b = c.csrRegisters b := by
  refine writeCsr_keeps c v ?_ ?_
  · rintro rfl
    exact hb ha
  · rintro rfl
    exact hb (by decide)

theorem takeInterrupt_keeps (e : ExceptionType) :
    (c.takeInterrupt e).csrRegisters b = c.csrRegisters b := by
  unfold Core.takeInterrupt
  simp only [Core.setPc]
  rw [writeCsr_trap _ hb (by decide), writeCsr_trap _ hb (by decide),
    writeCsr_trap _ hb (by decide), writeCsr_trap _ hb (by decide)]

theorem takeSupervisorInterrupt_keeps (cause : Word) :
    (c.takeSupervisorInterrupt cause).csrRegisters b = c.csrRegisters b := by
  unfold Core.takeSupervisorInterrupt
  simp only [Core.setPc]
  rw [writeCsr_trap _ hb (by decide), writeCsr_trap _ hb (by decide),
    writeCsr_trap _ hb (by decide), writeCsr_trap _ hb (by decide)]

theorem takeException_keeps (cause : ExceptionCause) :
    (c.takeException cause).csrRegisters b = c.csrRegisters b := by
  unfold Core.takeException
  simp only [Core.setPc]
  split <;>
    rw [writeCsr_trap _ hb (by decide), writeCsr_trap _ hb (by decide),
      writeCsr_trap _ hb (by decide), writeCsr_trap _ hb (by decide)]

/-- An interrupt changes `mip` besides. -/
theorem handleInterrupt_keeps (p : PendingLines) :
    (c.handleInterrupt p).csrRegisters b = (c.updateMipCsr p).csrRegisters b := by
  rw [Core.handleInterrupt_eq]
  cases c.interruptTaken p with
  | none => rfl
  | some interrupt =>
    cases interrupt with
    | machine e => exact takeInterrupt_keeps _ hb e
    | supervisor cause => exact takeSupervisorInterrupt_keeps _ hb cause

end

theorem updateMipCsr_satp (c : Core) (p : PendingLines) :
    (c.updateMipCsr p).csrRegisters 0x180 = c.csrRegisters 0x180 := by
  simp [Core.updateMipCsr, Core.setCsr]

theorem handleInterrupt_satp (c : Core) (p : PendingLines) :
    (c.handleInterrupt p).csrRegisters 0x180 = c.csrRegisters 0x180 :=
  (handleInterrupt_keeps c (by decide) p).trans (updateMipCsr_satp c p)

theorem readCsr_satp (c : Core) (counters : GlobalCounters) (coreId : Nat) (a : BitVec 12) :
    (c.readCsr counters coreId a).2.csrRegisters 0x180 = c.csrRegisters 0x180 := by
  unfold Core.readCsr
  split
  all_goals rfl

/-! ## SYSTEM -/

/-- `satp` of core `i` and the page table bases are as they were, and so are the
other cores. -/
structure KeepsSatp (i : Fin N) (s t : Simulator N n) : Prop where
  satp : (t.cores i).csrRegisters 0x180 = (s.cores i).csrRegisters 0x180
  bases : ∀ j, (t.mmus j).pageTableBase = (s.mmus j).pageTableBase
  others : ∀ j, j ≠ i → t.cores j = s.cores j

theorem KeepsSatp.refl (s : Simulator N n) : KeepsSatp i s s := ⟨rfl, fun _ => rfl, fun _ _ => rfl⟩

theorem KeepsSatp.trans (h : KeepsSatp i s t) (h' : KeepsSatp i t u) : KeepsSatp i s u :=
  ⟨h'.satp.trans h.satp, fun j => (h'.bases j).trans (h.bases j),
    fun j hj => (h'.others j hj).trans (h.others j hj)⟩

theorem Accessed.keepsSatp (h : Accessed s t) : KeepsSatp i s t :=
  ⟨by rw [h.cores], h.bases, fun j _ => by rw [h.cores]⟩

theorem KeepsSatp.setCore {c : Core} (h : c.csrRegisters 0x180 = (s.cores i).csrRegisters 0x180) :
    KeepsSatp i s (s.setCore i c) :=
  ⟨by rw [setCore_cores_self, h], fun _ => rfl, fun _ hj => setCore_cores_other s i c hj⟩

/-- An instruction that writes `satp`. -/
def WritesSatp (instr : Word) : Prop :=
  opcode instr = 0x73 ∧ funct3Of instr ≠ 0x0 ∧ funct3Of instr ≠ 0x4 ∧
    instr.extractLsb' 20 12 = 0x180

instance (instr : Word) : Decidable (WritesSatp instr) :=
  inferInstanceAs (Decidable (_ ∧ _ ∧ _ ∧ _))

/-- The page table base `update_mmu_from_satp` sets. -/
def satpBase (satp : Word) : Word :=
  if (satp >>> 31) &&& 0x1 == 0 then 0 else (satp &&& 0x3FFFFF) <<< 12

/-- The MMU of core `i` has the table its `satp` names. -/
def InSync (s : Simulator N n) (i : Fin N) : Prop :=
  (s.mmus i).pageTableBase = satpBase ((s.cores i).csrRegisters 0x180)

instance (s : Simulator N n) (i : Fin N) : Decidable (s.InSync i) :=
  inferInstanceAs (Decidable (_ = _))

theorem KeepsSatp.inSync (h : KeepsSatp i s t) (hs : s.InSync i) : t.InSync i := by
  unfold InSync
  rw [h.satp, h.bases]
  exact hs

/-- What a step does to `satp` and memory: memory stays, and so does `satp` with
the table, or they are set together. -/
structure SystemFrame (i : Fin N) (writes : Prop) (s t : Simulator N n) : Prop where
  memory : t.memory = s.memory
  satp : ¬writes → KeepsSatp i s t
  sync : s.InSync i → t.InSync i

theorem SystemFrame.of_keeps {writes : Prop} (hm : t.memory = s.memory) (h : KeepsSatp i s t) :
    SystemFrame i writes s t := ⟨hm, fun _ => h, h.inSync⟩

theorem SystemFrame.setCore {writes : Prop} {c : Core}
    (h : c.csrRegisters 0x180 = (s.cores i).csrRegisters 0x180) :
    SystemFrame i writes s (s.setCore i c) := .of_keeps rfl (.setCore h)

/-- Setting the core again. -/
theorem SystemFrame.next {writes : Prop} (h : SystemFrame i writes s t) :
    SystemFrame i writes s (exitState (t.next i)) := by
  have hn : KeepsSatp i t (exitState (t.next i)) := .setCore rfl
  exact ⟨h.memory, fun hw => (h.satp hw).trans hn, fun hs => hn.inSync (h.sync hs)⟩

theorem mret_frame (s : Simulator N n) (i : Fin N) {writes : Prop} :
    SystemFrame i writes s (exitState (s.mret i)) := by
  unfold mret
  refine .setCore ?_
  simp only
  rw [writeCsr_trap _ (by decide) (by decide)]

theorem csrUpdate_frame (s : Simulator N n) (i : Fin N) (rd : Cores.Reg) (a : BitVec 12)
    (csrValue writeValue : Word) {writes : Prop} (hw : a = 0x180 → writes) :
    SystemFrame i writes s (exitState (s.csrUpdate i rd a csrValue writeValue)) := by
  unfold csrUpdate
  refine .next ?_
  unfold writeCsr
  simp only
  split
  · -- `satp` and the base are set together
    next ha =>
    refine ⟨rfl, fun h => absurd (hw ha) h, ?_⟩
    intro _
    subst ha
    unfold InSync updateMmuFromSatp satpBase
    simp only [Function.update_self]
    have hvalue : ∀ c : Core, (c.writeCsr 0x180 writeValue).csrRegisters 0x180 = writeValue := by
      intro c
      simp [Core.writeCsr, Core.setCsr]
    simp only [setCore_cores_self, setCore_setCore]
    rw [hvalue]
    rfl
  · next ha =>
    have hkeep : ∀ c : Core, c.csrRegisters = (s.cores i).csrRegisters →
        (c.writeCsr a writeValue).csrRegisters 0x180 = (s.cores i).csrRegisters 0x180 := by
      intro c hc
      rw [writeCsr_keeps _ _ ha (by decide), hc]
    have hframe : KeepsSatp i s (s.setCore i
        ((if rd ≠ 0 then (s.cores i).setReg rd csrValue else s.cores i).writeCsr a writeValue)) :=
      .setCore (hkeep _ (by split <;> rfl))
    rw [setCore_cores_self, setCore_setCore]
    split
    · exact .of_keeps rfl ⟨hframe.satp, hframe.bases, hframe.others⟩
    · exact .of_keeps rfl hframe

theorem SystemLeaves.frame {instr old : Word} {e : Exit (Simulator N n)}
    (h : SystemLeaves i instr old s e) (ho : opcode instr = 0x73) :
    SystemFrame i (WritesSatp instr) s (exitState e) := by
  cases h with
  | mret => exact mret_frame s i
  | ecall => exact .setCore (takeException_keeps _ (by decide) _)
  | skip =>
    refine .next (.setCore ?_)
    split <;> rfl
  | update h0 h4 => exact csrUpdate_frame s i _ _ _ _ fun ha => ⟨ho, h0, h4, ha⟩
  | unknown => exact .next (.of_keeps rfl (.refl s))

theorem system_frame (s : Simulator N n) (i : Fin N) {instr : Word} (ho : opcode instr = 0x73) :
    SystemFrame i (WritesSatp instr) s (exitState (s.system i instr)) := by
  have hread : KeepsSatp i s (s.readCsr i (instr.extractLsb' 20 12)).2 :=
    .setCore (readCsr_satp ..)
  have hframe := (s.system_leaves i instr).frame ho
  exact ⟨hframe.memory, fun hw => hread.trans (hframe.satp hw),
    fun hs => hframe.sync (hread.inSync hs)⟩

/-! ## The switch -/

theorem Performed.keepsSatp (h : Performed i s t) : KeepsSatp i s t := by
  obtain ⟨u, c, hu, rfl, hc⟩ := h
  exact hu.toAccessed.keepsSatp.trans (.setCore (by rw [hc, hu.cores]))

theorem Stored.keepsSatp (h : Stored i s t) : KeepsSatp i s t := by
  obtain ⟨u, c, hu, rfl, hc⟩ := h
  exact hu.keepsSatp.trans (.setCore (by rw [hc, hu.cores]))

theorem execute_system {instr : Word} (ho : opcode instr = 0x73) :
    s.execute i instr = .ok (s.system i instr) := by
  have ho' : opcode instr = 0x73#7 := ho
  unfold execute
  simp only [ho']

theorem execute_storeOp {instr : Word} (ho : opcode instr = 0x23) :
    s.execute i instr = .ok (s.store i instr) := by
  have ho' : opcode instr = 0x23#7 := ho
  unfold execute
  simp only [ho']

theorem execute_loadOp {instr : Word} (ho : opcode instr = 0x03) :
    s.execute i instr = .ok (s.load i instr) := by
  have ho' : opcode instr = 0x03#7 := ho
  unfold execute
  simp only [ho']

theorem execute_amoOp {instr : Word} (ho : opcode instr = 0x2F) :
    s.execute i instr = .ok (s.amo i instr) := by
  have ho' : opcode instr = 0x2F#7 := ho
  unfold execute
  simp only [ho']

theorem execute_satp {instr : Word} {e : Exit (Simulator N n)} (h : s.execute i instr = .ok e) :
    (¬WritesSatp instr → KeepsSatp i s (exitState e)) ∧
      (s.InSync i → (exitState e).InSync i) := by
  by_cases hsystem : opcode instr = 0x73
  · rw [execute_system hsystem] at h
    obtain rfl := Except.ok.inj h
    have hframe := s.system_frame i hsystem
    exact ⟨hframe.satp, hframe.sync⟩
  · have hkeep : KeepsSatp i s (exitState e) := by
      by_cases hstore : opcode instr = 0x23
      · rw [execute_storeOp hstore] at h
        obtain rfl := Except.ok.inj h
        exact (s.store_stored i instr).keepsSatp
      · exact (execute_performed hstore hsystem h).keepsSatp
    exact ⟨fun _ => hkeep, hkeep.inSync⟩

theorem execute_memory {instr : Word} {e : Exit (Simulator N n)} (hstore : opcode instr ≠ 0x23)
    (h : s.execute i instr = .ok e) : (exitState e).memory = s.memory := by
  by_cases hsystem : opcode instr = 0x73
  · rw [execute_system hsystem] at h
    obtain rfl := Except.ok.inj h
    exact (s.system_frame i hsystem).memory
  · obtain ⟨u, c, hu, ht, _⟩ := execute_performed hstore hsystem h
    rw [ht]
    exact hu.memory

/-! ## The step -/

theorem GateMove.keepsSatp (h : GateMove i s t) : KeepsSatp i s t ∧ t.memory = s.memory := by
  cases h with
  | interrupt => exact ⟨.setCore (handleInterrupt_satp _ _), rfl⟩
  | boot flags =>
    have hset : KeepsSatp i s (s.setCore i { s.cores i with hasBooted := true }) := .setCore rfl
    exact ⟨⟨hset.satp, hset.bases, hset.others⟩, rfl⟩
  | look waits => exact ⟨.setCore (updateMipCsr_satp (s.cores i) (s.pendingLines i)), rfl⟩

/-- Before the fetch. -/
theorem prepare_keepsSatp {b : Bool} (h : s.prepare i = .ok (b, s')) :
    KeepsSatp i s s' ∧ s'.memory = s.memory := by
  have hmoves := prepare_moves h
  clear h
  induction hmoves with
  | refl => exact ⟨.refl s, rfl⟩
  | tail _ hmove ih =>
    obtain ⟨hkeep, hm⟩ := hmove.keepsSatp
    exact ⟨ih.1.trans hkeep, hm.trans ih.2⟩

/-- After the switch. -/
theorem retire_keepsSatp (e : Exit (Simulator N n)) :
    KeepsSatp i (exitState e) (retire i e) ∧ (retire i e).memory = (exitState e).memory := by
  cases e with
  | fault t => exact ⟨.refl t, rfl⟩
  | done t =>
    obtain ⟨v, hv⟩ := (t.cores i).updatePerformanceCounter_core t.counters
    have hset : KeepsSatp i t (t.setCore i
        (((t.cores i).updatePerformanceCounter t.counters).1.setReg 0 0)) :=
      .setCore (by rw [hv]; rfl)
    exact ⟨⟨hset.satp, hset.bases, hset.others⟩, rfl⟩

/-- The state in which the fetched instruction executes. -/
theorem Fetches.keepsSatp {instr : Word} (h : s.Fetches i s₁ instr) :
    KeepsSatp i s (s₁.fetchPc i).2 ∧ (s₁.fetchPc i).2.memory = s.memory := by
  obtain ⟨hp, hm⟩ := prepare_keepsSatp h.prepared
  have hf := s₁.fetch_accessed i (s₁.cores i).pc
  exact ⟨hp.trans hf.toAccessed.keepsSatp, hf.memory.trans hm⟩

theorem Fetches.step_ok {instr : Word} (h : s.Fetches i s₁ instr) (hstep : s.step i = .ok s') :
    ∃ e, (s₁.fetchPc i).2.execute i instr = .ok e ∧ s' = retire i e := by
  rw [h.step_eq] at hstep
  cases he : (s₁.fetchPc i).2.execute i instr with
  | error a =>
    rw [he] at hstep
    cases hstep
  | ok e =>
    rw [he] at hstep
    exact ⟨e, rfl, (Except.ok.inj hstep).symm⟩

/-- Only an instruction that writes `satp` changes it. -/
theorem Fetches.step_keepsSatp {instr : Word} (h : s.Fetches i s₁ instr)
    (hstep : s.step i = .ok s') (hw : ¬WritesSatp instr) : KeepsSatp i s s' := by
  obtain ⟨e, he, rfl⟩ := h.step_ok hstep
  exact (h.keepsSatp.1.trans ((execute_satp he).1 hw)).trans (retire_keepsSatp e).1

theorem Fetches.step_inSync {instr : Word} (h : s.Fetches i s₁ instr)
    (hstep : s.step i = .ok s') (hs : s.InSync i) : s'.InSync i := by
  obtain ⟨e, he, rfl⟩ := h.step_ok hstep
  exact (retire_keepsSatp e).1.inSync ((execute_satp he).2 (h.keepsSatp.1.inSync hs))

/-- Only a store changes memory. -/
theorem Fetches.step_memory {instr : Word} (h : s.Fetches i s₁ instr)
    (hstep : s.step i = .ok s') (hstore : opcode instr ≠ 0x23) : s'.memory = s.memory := by
  obtain ⟨e, he, rfl⟩ := h.step_ok hstep
  exact ((retire_keepsSatp e).2.trans (execute_memory hstore he)).trans h.keepsSatp.2

/-! ## Runs of one core -/

/-- Core `i` steps from one state to another, executing the instructions. -/
inductive Executes (i : Fin N) : Simulator N n → List Word → Simulator N n → Prop
  | nil (s : Simulator N n) : Executes i s [] s
  | idle {s s' t : Simulator N n} {instrs : List Word} :
    s.prepare i = .ok (false, s') → Executes i s' instrs t → Executes i s instrs t
  | step {s s₁ s' t : Simulator N n} {instr : Word} {instrs : List Word} :
    s.Fetches i s₁ instr → s.step i = .ok s' → Executes i s' instrs t →
    Executes i s (instr :: instrs) t

/-- A step of a running core, put before a run. -/
theorem Executes.cons {instr : Word} {instrs : List Word} (hr : s.Running i)
    (hf : ((s.handleInterrupt i).fetchPc i).1 = instr) (hstep : (s.step i).toOption.isSome)
    (h : Executes i (s.stepped i) instrs t) : Executes i s (instr :: instrs) t :=
  .step ⟨hr.prepare_eq, hf⟩ (step_stepped hstep) h

theorem Executes.inSync {instrs : List Word} (h : Executes i s instrs t) (hs : s.InSync i) :
    t.InSync i := by
  induction h with
  | nil s => exact hs
  | idle hp _ ih => exact ih ((prepare_keepsSatp hp).1.inSync hs)
  | step hf hstep _ ih => exact ih (hf.step_inSync hstep hs)

theorem Executes.keepsSatp {instrs : List Word} (h : Executes i s instrs t)
    (hw : ∀ instr ∈ instrs, ¬WritesSatp instr) : KeepsSatp i s t := by
  induction h with
  | nil s => exact .refl s
  | idle hp _ ih => exact (prepare_keepsSatp hp).1.trans (ih hw)
  | step hf hstep _ ih =>
    exact (hf.step_keepsSatp hstep (hw _ List.mem_cons_self)).trans
      (ih fun instr h => hw instr (List.mem_cons_of_mem _ h))

end Simulator
end RiscvEmulator.System
