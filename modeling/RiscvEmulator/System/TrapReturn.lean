import RiscvEmulator.System.CoreFrame
import RiscvEmulator.System.InterruptDelivery

/-! # Traps and returns

A trap saves the privilege level and the interrupt enable bit in a status register,
and the return instruction of its mode brings them back. Exceptions leave a stale
MPIE behind; interrupts do not set the level, and SRET is not implemented. -/
namespace RiscvEmulator.System
open Memory Cores Interrupt

/-! ## The status -/

/-- The level that MPP of `mstatus` stands for. -/
def mppLevel (c : Core) : PrivilegeLevel := .ofBits ((c.csrRegisters 0x300).extractLsb' 11 2)

/-- The level that SPP of `mstatus` stands for. -/
def sppLevel (c : Core) : PrivilegeLevel := if c.mstatusBit 8 then .supervisor else .user

/-- `mstatus` after an exception taken in machine mode. -/
def machineEntry (mstatus : Word) (level : PrivilegeLevel) : Word :=
  (mstatus &&& ~~~0x1800#32 &&& ~~~0x8#32) ||| (((mstatus >>> 3) &&& 0x1) <<< 7) |||
    (level.toWord <<< 11)

/-- MPIE is not cleared before the old MIE is put in its place. -/
theorem machineEntry_mpie (mstatus : Word) (level : PrivilegeLevel) :
    (machineEntry mstatus level).getLsbD 7 = (mstatus.getLsbD 7 || mstatus.getLsbD 3) := by
  unfold machineEntry
  cases level <;> simp [PrivilegeLevel.toWord]

theorem machineEntry_mpp (mstatus : Word) (level : PrivilegeLevel) :
    PrivilegeLevel.ofBits ((machineEntry mstatus level).extractLsb' 11 2) = level := by
  have h : (machineEntry mstatus level).extractLsb' 11 2 = level.toWord.extractLsb' 0 2 := by
    unfold machineEntry
    ext k hk
    interval_cases k <;> simp
  rw [h]
  cases level <;> decide

theorem takeException_machine {c : Core} {cause : ExceptionCause} (h : delegates c cause = false) :
    let c' := c.takeException cause
    c'.csrRegisters 0x300 = machineEntry (c.csrRegisters 0x300) c.privilegeLevel ∧
      c'.csrRegisters 0x341 = c.pc ∧ c'.privilegeLevel = .machine := by
  intro c'
  have hc : c' = c.takeException cause := rfl
  unfold delegates at h
  unfold Core.takeException at hc
  simp only [h] at hc
  rw [hc]
  exact ⟨rfl, rfl, rfl⟩

/-- `mstatus` after MRET. -/
def mretStatus (mstatus : Word) : Word :=
  (((mstatus &&& ~~~0x8#32 ||| ((mstatus >>> 7) &&& 0x1) <<< 3) &&& ~~~0x80#32 ||| 0x80) &&&
    ~~~0x1800#32) ||| (0x3#32 <<< 11)

theorem mretStatus_mie (mstatus : Word) : (mretStatus mstatus).getLsbD 3 = mstatus.getLsbD 7 := by
  unfold mretStatus
  simp

/-- What a delegated exception writes to `sstatus`. -/
def supervisorEntry (c : Core) : Word :=
  (c.sstatus &&& ~~~0x100#32 &&& ~~~0x2#32) ||| (((c.sstatus >>> 1) &&& 0x1) <<< 5) |||
    (c.privilegeLevel.toWord <<< 8)

/-- `sepc`, `scause` and `stval` are written as they are. -/
theorem writeCsr_supervisorTrap (c : Core) (sepc scause stval : Word) :
    ((c.writeCsr 0x141 sepc).writeCsr 0x142 scause).writeCsr 0x143 stval =
      ((c.setCsr 0x141 sepc).setCsr 0x142 scause).setCsr 0x143 stval := by
  rw [writeCsr_plain _ _ (show Plain 0x141 by decide),
    writeCsr_plain _ _ (show Plain 0x142 by decide),
    writeCsr_plain _ _ (show Plain 0x143 by decide)]

theorem takeException_supervisor {c : Core} {cause : ExceptionCause}
    (h : delegates c cause = true) :
    let c' := c.takeException cause
    (∀ k, c'.mstatusBit k = (c.writeCsr 0x100 (supervisorEntry c)).mstatusBit k) ∧
      c'.csrRegisters 0x141 = c.pc ∧ c'.csrRegisters 0x142 = cause.word ∧
      c'.privilegeLevel = .supervisor := by
  intro c'
  have hc : c' = c.takeException cause := rfl
  unfold delegates at h
  unfold Core.takeException at hc
  simp only [h, if_true, writeCsr_supervisorTrap] at hc
  rw [hc]
  simp [Core.mstatusBit, Core.setCsr, Core.setPc, supervisorEntry]

/-- SIE is cleared. -/
theorem supervisorEntry_sie (c : Core) : (supervisorEntry c).getLsbD 1 = false := by
  unfold supervisorEntry
  cases c.privilegeLevel <;> simp [PrivilegeLevel.toWord]

/-- What is written as SPIE is the old SIE or what `sstatus` showed as SPIE. -/
theorem supervisorEntry_spie (c : Core) : (supervisorEntry c).getLsbD 5 =
    (c.mstatusBit 2 || c.mstatusBit 4 || c.mstatusBit 1) := by
  have hsie := Core.sstatus_bit_sie c
  have hspie := Core.sstatus_bit_spie c
  simp only [BitVec.getLsbD_eq_getElem, Nat.reduceLT] at hsie hspie
  unfold supervisorEntry
  cases c.privilegeLevel <;> simp [PrivilegeLevel.toWord, hsie, hspie]

/-! ## The three instructions -/

def ecall : Word := 0x00000073
def mretInstr : Word := 0x30200073
def sretInstr : Word := 0x10200073

namespace Simulator
variable {N n : Nat} {s s₁ s' t t₁ t' u : Simulator N n} {i : Fin N}

/-- SYSTEM with `funct3` 0 on a plain CSR number. -/
theorem execute_systemOther (s : Simulator N n) (i : Fin N) {instr : Word}
    (ho : opcode instr = 0x73) (h3 : funct3Of instr = 0x0)
    (hcsr : Plain (instr.extractLsb' 20 12)) :
    s.execute i instr = .ok (s.systemOther i instr) := by
  have h3' : funct3Of instr = 0x0#3 := h3
  rw [execute_system ho]
  unfold system
  simp only [readCsr_plain_state s i hcsr, h3']

theorem execute_ecall (s : Simulator N n) (i : Fin N) : s.execute i ecall =
    .ok (.done (s.setCore i
      ((s.cores i).takeException (ecallCause (s.cores i).privilegeLevel)))) := by
  rw [execute_systemOther s i (by decide) (by decide) (by decide)]
  unfold systemOther
  simp only
  rw [if_neg (by decide), if_neg (by decide), if_neg (by decide), if_pos (by decide)]

theorem execute_mret (s : Simulator N n) (i : Fin N) :
    s.execute i mretInstr = .ok (s.mret i) := by
  rw [execute_systemOther s i (by decide) (by decide) (by decide)]
  unfold systemOther
  simp only
  rw [if_pos (by decide)]

/-- SRET is an unknown instruction. -/
theorem execute_sret (s : Simulator N n) (i : Fin N) :
    s.execute i sretInstr = .ok (s.next i) := by
  rw [execute_systemOther s i (by decide) (by decide) (by decide)]
  unfold systemOther
  simp only
  rw [if_neg (by decide), if_neg (by decide), if_neg (by decide), if_neg (by decide),
    if_neg (by decide), setCore_self]

/-- The step in which the switch leaves core `i` as `c`. -/
theorem Fetches.done_step {instr : Word} (h : s.Fetches i s₁ instr) {c : Core}
    (hexec : (s₁.fetchPc i).2.execute i instr = .ok (.done ((s₁.fetchPc i).2.setCore i c))) :
    ∃ s', s.step i = .ok s' ∧ (s'.cores i).csrRegisters = c.csrRegisters ∧
      (s'.cores i).pc = c.pc ∧ (s'.cores i).privilegeLevel = c.privilegeLevel := by
  obtain ⟨_, v, hcore⟩ := retire_done (s₁.fetchPc i).2 i c
  refine ⟨retire i (.done ((s₁.fetchPc i).2.setCore i c)), ?_, ?_, ?_, ?_⟩
  · rw [h.step_eq, hexec]
    rfl
  all_goals rw [hcore]

theorem Fetches.mret_step (h : t.Fetches i t₁ mretInstr) :
    let c := (t₁.fetchPc i).2.cores i
    ∃ t', t.step i = .ok t' ∧ (t'.cores i).mstatusBit 3 = c.mstatusBit 7 ∧
      (t'.cores i).pc = c.csrRegisters 0x341 ∧
      (t'.cores i).csrRegisters 0x341 = c.csrRegisters 0x341 ∧
      (t'.cores i).privilegeLevel = mppLevel c := by
  intro c
  obtain ⟨t', hstep, hcsrs, hpc, hlevel⟩ := h.done_step (execute_mret _ i)
  have hstatus : (t'.cores i).csrRegisters 0x300 = mretStatus (c.csrRegisters 0x300) := by
    rw [hcsrs]
    rfl
  refine ⟨t', hstep, ?_, hpc, ?_, hlevel⟩
  · unfold Core.mstatusBit
    rw [hstatus, mretStatus_mie]
  · rw [hcsrs]
    rfl

theorem Fetches.sret_step (h : t.Fetches i t₁ sretInstr) :
    let c := (t₁.fetchPc i).2.cores i
    ∃ t', t.step i = .ok t' ∧ (t'.cores i).csrRegisters = c.csrRegisters ∧
      (t'.cores i).pc = c.pc + 4 ∧ (t'.cores i).privilegeLevel = c.privilegeLevel :=
  h.done_step (execute_sret _ i)

theorem Fetches.ecall_step (h : s.Fetches i s₁ ecall) :
    let c := (s₁.fetchPc i).2.cores i
    let c' := c.takeException (ecallCause c.privilegeLevel)
    ∃ s', s.step i = .ok s' ∧ (s'.cores i).csrRegisters = c'.csrRegisters ∧
      (s'.cores i).pc = c'.pc ∧ (s'.cores i).privilegeLevel = c'.privilegeLevel :=
  h.done_step (execute_ecall _ i)

/-! ## Handlers -/

/-- Core `i` has `pc`, the privilege level and the CSRs it had, but for `mip`. -/
structure KeepsTrap (c c' : Core) : Prop where
  pc : c'.pc = c.pc
  level : c'.privilegeLevel = c.privilegeLevel
  csrs : ∀ a, a ≠ 0x344 → c'.csrRegisters a = c.csrRegisters a

theorem KeepsTrap.trans {c c' c'' : Core} (h : KeepsTrap c c') (h' : KeepsTrap c' c'') :
    KeepsTrap c c'' :=
  ⟨h'.pc.trans h.pc, h'.level.trans h.level, fun a ha => (h'.csrs a ha).trans (h.csrs a ha)⟩

/-- Whether an interrupt is taken depends on the CSRs alone. -/
theorem interruptTaken_congr {c c' : Core} (p : PendingLines)
    (h : c'.csrRegisters = c.csrRegisters) : c'.interruptTaken p = c.interruptTaken p := by
  cases c
  cases c'
  simp only at h
  subst h
  rfl

theorem interruptTaken_updateMipCsr (c : Core) (p : PendingLines) :
    (c.updateMipCsr p).interruptTaken p = c.interruptTaken p := by
  have hmip : (c.updateMipCsr p).updateMipCsr p = c.updateMipCsr p := by
    simp [Core.updateMipCsr, Core.setCsr]
  unfold Core.interruptTaken Core.checkPendingInterrupts
  rw [hmip]

theorem updateMipCsr_keepsTrap (c : Core) (p : PendingLines) : KeepsTrap c (c.updateMipCsr p) :=
  ⟨rfl, rfl, fun _ ha => Function.update_of_ne ha ..⟩

/-- As long as none is to be taken, nothing before the fetch changes that. -/
theorem GateMove.quiet (h : GateMove i s t) (hno : s.NoInterrupt i) :
    t.NoInterrupt i ∧ KeepsTrap (s.cores i) (t.cores i) := by
  have hset : ∀ (v : Simulator N n) (c : Core), v.clint = s.clint → v.plic = s.plic →
      v.cores i = c → c.csrRegisters = (s.cores i).csrRegisters ∨
        c.csrRegisters = ((s.cores i).updateMipCsr (s.pendingLines i)).csrRegisters →
      v.NoInterrupt i := by
    intro v c hclint hplic hv hc
    have hlines : v.pendingLines i = s.pendingLines i := by
      unfold pendingLines
      rw [hclint, hplic]
    unfold NoInterrupt
    rw [hlines, hv]
    rcases hc with hc | hc
    · rw [interruptTaken_congr _ hc]
      exact hno
    · rw [interruptTaken_congr _ hc, interruptTaken_updateMipCsr]
      exact hno
  cases h with
  | interrupt =>
    rw [handleInterrupt_eq_of_noInterrupt hno]
    refine ⟨hset _ _ rfl rfl (setCore_cores_self ..) (.inr rfl), ?_⟩
    rw [setCore_cores_self]
    exact updateMipCsr_keepsTrap ..
  | boot flags =>
    have hcore : ({ s.setCore i { s.cores i with hasBooted := true } with
        coreBootedFlags := flags } : Simulator N n).cores i =
        { s.cores i with hasBooted := true } := setCore_cores_self ..
    refine ⟨hset _ _ rfl rfl hcore (.inl rfl), ?_⟩
    rw [hcore]
    exact ⟨rfl, rfl, fun _ _ => rfl⟩
  | look waits =>
    refine ⟨hset _ _ rfl rfl (setCore_cores_self ..) (.inr rfl), ?_⟩
    rw [setCore_cores_self]
    exact ⟨rfl, rfl, (updateMipCsr_keepsTrap ..).csrs⟩

/-- The core that executes an instruction without having taken an interrupt. -/
theorem Fetches.keepsTrap {instr : Word} (h : t.Fetches i t₁ instr) (hno : t.NoInterrupt i) :
    KeepsTrap (t.cores i) ((t₁.fetchPc i).2.cores i) := by
  have hfetch : (t₁.fetchPc i).2.cores = t₁.cores := (t₁.fetch_fixed i (t₁.cores i).pc).cores
  have hmoves := prepare_moves h.prepared
  rw [hfetch]
  clear h hfetch
  have hquiet : t₁.NoInterrupt i ∧ KeepsTrap (t.cores i) (t₁.cores i) := by
    induction hmoves with
    | refl => exact ⟨hno, rfl, rfl, fun _ _ => rfl⟩
    | tail _ hmove ih =>
      obtain ⟨hno', hkeep⟩ := hmove.quiet ih.1
      exact ⟨hno', ih.2.trans hkeep⟩
  exact hquiet.2

/-- A step of core `i` in a handler: it takes no interrupt, raises no exception and
does not return, and the CSRs are as they were, but for `mip`, which follows the
lines, and `time`. -/
structure HandlerStep (i : Fin N) (s s' : Simulator N n) : Prop where
  step : s.step i = .ok s'
  noInterrupt : s.NoInterrupt i
  noTrap : ∀ s₁ instr, s.Fetches i s₁ instr → ¬SwitchesLevel instr
  csrs : ∀ a, a ≠ 0x344 → a ≠ 0xC01 →
    (s'.cores i).csrRegisters a = (s.cores i).csrRegisters a

/-- What happens while core `i` is in a handler: a step of it, or anything that
leaves it alone, such as steps of other cores and the timer. -/
inductive HandlerMove (i : Fin N) (s : Simulator N n) : Simulator N n → Prop where
  | step {s' : Simulator N n} : HandlerStep i s s' → HandlerMove i s s'
  | elsewhere {s' : Simulator N n} : s'.cores i = s.cores i → HandlerMove i s s'

/-- A handler leaves the level and the CSRs of the trap as they were. -/
theorem handler_keeps (h : Relation.ReflTransGen (HandlerMove i) s t) :
    (t.cores i).privilegeLevel = (s.cores i).privilegeLevel ∧
      ∀ a, a ≠ 0x344 → a ≠ 0xC01 →
        (t.cores i).csrRegisters a = (s.cores i).csrRegisters a := by
  induction h with
  | refl => exact ⟨rfl, fun _ _ _ => rfl⟩
  | tail _ hmove ih =>
    cases hmove with
    | step hstep =>
      exact ⟨(step_level hstep.step hstep.noTrap).trans ih.1,
        fun a ha hb => (hstep.csrs a ha hb).trans (ih.2 a ha hb)⟩
    | elsewhere hsame => rwa [hsame]

/-! ## ECALL to machine mode -/

/-- Core `c'` has returned from a trap that `c` raised in machine mode. -/
structure MachineRestored (c c' : Core) : Prop where
  level : c'.privilegeLevel = c.privilegeLevel
  mie : c'.mstatusBit 3 = c.mstatusBit 3
  pc : c'.pc = c'.csrRegisters 0x341
  mepc : c'.csrRegisters 0x341 = c.pc

/-- From an ECALL that is not delegated to the MRET of its handler: all is as before
exactly if MPIE was not set without MIE. -/
theorem ecall_mret_iff (hecall : s.Fetches i s₁ ecall) (hstep : s.step i = .ok s')
    (hmachine : let c := (s₁.fetchPc i).2.cores i
      delegates c (ecallCause c.privilegeLevel) = false)
    (hhandler : Relation.ReflTransGen (HandlerMove i) s' t) (hno : t.NoInterrupt i)
    (hmret : t.Fetches i t₁ mretInstr) :
    let c := (s₁.fetchPc i).2.cores i
    (∃ t', t.step i = .ok t' ∧ MachineRestored c (t'.cores i)) ↔
      (c.mstatusBit 7 = true → c.mstatusBit 3 = true) := by
  intro c
  obtain ⟨s'', hstep', hcsrs, _, hlevel⟩ := hecall.ecall_step
  obtain rfl : s' = s'' := Except.ok.inj (hstep.symm.trans hstep')
  obtain ⟨hstatus, hmepc, _⟩ := takeException_machine hmachine
  obtain ⟨_, hkept⟩ := handler_keeps hhandler
  have hquiet := hmret.keepsTrap hno
  obtain ⟨t', hret, hmie, hpc, hmepc', hmpp⟩ := hmret.mret_step
  -- what MRET finds is what ECALL has left
  have hfound : ∀ a, a ≠ 0x344 → a ≠ 0xC01 → ((t₁.fetchPc i).2.cores i).csrRegisters a =
      (c.takeException (ecallCause c.privilegeLevel)).csrRegisters a := by
    intro a ha hb
    rw [hquiet.csrs a ha, hkept a ha hb, hcsrs]
  have hstatus' : ((t₁.fetchPc i).2.cores i).csrRegisters 0x300 =
      machineEntry (c.csrRegisters 0x300) c.privilegeLevel :=
    (hfound 0x300 (by decide) (by decide)).trans hstatus
  have hback : ((t₁.fetchPc i).2.cores i).csrRegisters 0x341 = c.pc :=
    (hfound 0x341 (by decide) (by decide)).trans hmepc
  have hnewMie : (t'.cores i).mstatusBit 3 = (c.mstatusBit 7 || c.mstatusBit 3) := by
    rw [hmie, Core.mstatusBit, hstatus', machineEntry_mpie]
    rfl
  have hnewLevel : (t'.cores i).privilegeLevel = c.privilegeLevel := by
    rw [hmpp, mppLevel, hstatus', machineEntry_mpp]
  have hrestored : MachineRestored c (t'.cores i) ↔
      (c.mstatusBit 7 || c.mstatusBit 3) = c.mstatusBit 3 := by
    constructor
    · intro h
      rw [← hnewMie, h.mie]
    · intro h
      exact ⟨hnewLevel, hnewMie.trans h, hpc.trans hmepc'.symm, hmepc'.trans hback⟩
  have hbits : (c.mstatusBit 7 || c.mstatusBit 3) = c.mstatusBit 3 ↔
      (c.mstatusBit 7 = true → c.mstatusBit 3 = true) := by
    cases c.mstatusBit 7 <;> cases c.mstatusBit 3 <;> decide
  rw [← hbits, ← hrestored]
  constructor
  · rintro ⟨t'', hret', h⟩
    obtain rfl : t' = t'' := Except.ok.inj (hret.symm.trans hret')
    exact h
  · intro h
    exact ⟨t', hret, h⟩

/-- One core about to execute an ECALL with this level and `mstatus`; the return
instruction is at 4, where both trap vectors point. -/
def aboutEcall (ret : Word) (level : PrivilegeLevel) (mstatus medeleg : Word) :
    Simulator 1 0x100000 :=
  let s := loaded 1 0x100000 [ecall, ret] fun _ _ => 0
  s.setCore core0 { (((((s.cores core0).setCsr 0x300 mstatus).setCsr 0x302 medeleg).setCsr 0x305
    4).setCsr 0x105 4) with privilegeLevel := level }

theorem fetches_of_running {instr : Word} (hr : s.Running i)
    (hf : ((s.handleInterrupt i).fetchPc i).1 = instr) :
    s.Fetches i (s.handleInterrupt i) instr := ⟨hr.prepare_eq, hf⟩

/-- User mode, MPIE set and MIE clear. -/
theorem ecall_mret_user : let s := aboutEcall mretInstr .user 0x80 0
    let c := ((s.handleInterrupt 0).fetchPc 0).2.cores 0
    (∃ t', (s.stepped 0).step 0 = .ok t' ∧ MachineRestored c (t'.cores 0)) ↔
      (c.mstatusBit 7 = true → c.mstatusBit 3 = true) :=
  ecall_mret_iff (s := aboutEcall mretInstr .user 0x80 0)
    (fetches_of_running (by decide +kernel) (by decide +kernel))
    (step_stepped (by decide +kernel)) (by decide +kernel) .refl
    (by unfold NoInterrupt; decide +kernel)
    (fetches_of_running (by decide +kernel) (by decide +kernel))

/-- MRET sets MIE, which was clear before the ECALL. -/
theorem mret_enables_interrupts : ¬ ∀ (s s₁ s' t t₁ : Simulator 1 0x100000) (i : Fin 1),
    s.Fetches i s₁ ecall → s.step i = .ok s' →
    delegates ((s₁.fetchPc i).2.cores i)
      (ecallCause ((s₁.fetchPc i).2.cores i).privilegeLevel) = false →
    Relation.ReflTransGen (HandlerMove i) s' t → t.NoInterrupt i → t.Fetches i t₁ mretInstr →
    ∃ t', t.step i = .ok t' ∧ MachineRestored ((s₁.fetchPc i).2.cores i) (t'.cores i) := by
  intro h
  obtain ⟨t', hret, hrestored⟩ := h (aboutEcall mretInstr .user 0x80 0) _ _ _ _ 0
    (fetches_of_running (by decide +kernel) (by decide +kernel))
    (step_stepped (by decide +kernel)) (by decide +kernel) .refl
    (by unfold NoInterrupt; decide +kernel)
    (fetches_of_running (by decide +kernel) (by decide +kernel))
  have hset : (((aboutEcall mretInstr .user 0x80 0).stepped 0).step 0).toOption.map
      (fun t => (t.cores 0).mstatusBit 3) = some true := by
    decide +kernel
  have hclear : ((((aboutEcall mretInstr .user 0x80 0).handleInterrupt 0).fetchPc 0).2.cores
      0).mstatusBit 3 = false := by
    decide +kernel
  rw [hret] at hset
  have hmie : (t'.cores 0).mstatusBit 3 = true := Option.some.inj hset
  rw [hrestored.mie, hclear] at hmie
  cases hmie

/-! ## ECALL to supervisor mode -/

/-- Core `c'` has entered supervisor mode for an ECALL of `c`. -/
structure EntersSupervisor (c c' : Core) : Prop where
  level : c'.privilegeLevel = .supervisor
  sepc : c'.csrRegisters 0x141 = c.pc
  scause : c'.csrRegisters 0x142 = if c.privilegeLevel = .user then 8 else 9
  spp : sppLevel c' = c.privilegeLevel
  spie : c'.mstatusBit 5 = c.mstatusBit 1
  sie : c'.mstatusBit 1 = false

/-- Core `c'` has returned from a trap that `c` raised in supervisor mode. -/
structure SupervisorRestored (c c' : Core) : Prop where
  level : c'.privilegeLevel = c.privilegeLevel
  sie : c'.mstatusBit 1 = c.mstatusBit 1
  pc : c'.pc = c'.csrRegisters 0x141
  sepc : c'.csrRegisters 0x141 = c.pc

/-- The one case in which nothing shows: an ECALL of supervisor mode, with SPP set
already, SIE and the bits read as SPIE clear, and the SRET just before the ECALL. -/
structure SretHarmless (c : Core) (sretPc : Word) : Prop where
  level : c.privilegeLevel = .supervisor
  spp : c.mstatusBit 8 = true
  sie : c.mstatusBit 1 = false
  spie : (c.mstatusBit 2 || c.mstatusBit 4) = false
  pc : sretPc + 4 = c.pc

/-- The status after a delegated exception. -/
theorem takeException_status {c : Core} {cause : ExceptionCause} (h : delegates c cause = true) :
    let c' := c.takeException cause
    c'.mstatusBit 1 = false ∧
      c'.mstatusBit 5 = (c.mstatusBit 2 || c.mstatusBit 4 || c.mstatusBit 1) ∧
      c'.mstatusBit 8 = c.mstatusBit 8 := by
  obtain ⟨hstatus, _⟩ := takeException_supervisor h
  refine ⟨?_, ?_, ?_⟩
  · rw [hstatus, Core.writeCsr_sstatus, if_pos (by decide), supervisorEntry_sie]
  · rw [hstatus, Core.writeCsr_sstatus, if_pos (by decide), supervisorEntry_spie]
  · rw [hstatus, Core.writeCsr_sstatus, if_neg (by decide)]

/-- From an ECALL that is delegated to the SRET of its handler. -/
theorem ecall_sret_iff (hecall : s.Fetches i s₁ ecall) (hstep : s.step i = .ok s')
    (hsupervisor : let c := (s₁.fetchPc i).2.cores i
      delegates c (ecallCause c.privilegeLevel) = true)
    (hhandler : Relation.ReflTransGen (HandlerMove i) s' t) (hno : t.NoInterrupt i)
    (hsret : t.Fetches i t₁ sretInstr) :
    let c := (s₁.fetchPc i).2.cores i
    (EntersSupervisor c (s'.cores i) ∧
      ∃ t', t.step i = .ok t' ∧ SupervisorRestored c (t'.cores i)) ↔
        SretHarmless c (t.cores i).pc := by
  intro c
  obtain ⟨s'', hstep', hcsrs, _, hlevel⟩ := hecall.ecall_step
  obtain rfl : s' = s'' := Except.ok.inj (hstep.symm.trans hstep')
  obtain ⟨_, hsepc, hscause, hsuper⟩ := takeException_supervisor hsupervisor
  obtain ⟨hsie, hspie, hspp⟩ := takeException_status hsupervisor
  obtain ⟨hkeptLevel, hkept⟩ := handler_keeps hhandler
  have hquiet := hsret.keepsTrap hno
  obtain ⟨t', hret, htcsrs, htpc, htlevel⟩ := hsret.sret_step
  have hbit : ∀ k, (s'.cores i).mstatusBit k =
      (c.takeException (ecallCause c.privilegeLevel)).mstatusBit k := by
    intro k
    unfold Core.mstatusBit
    rw [hcsrs]
  have hfound : ∀ a, a ≠ 0x344 → a ≠ 0xC01 → (t'.cores i).csrRegisters a =
      (c.takeException (ecallCause c.privilegeLevel)).csrRegisters a := by
    intro a ha hb
    rw [htcsrs, hquiet.csrs a ha, hkept a ha hb, hcsrs]
  have hendSie : (t'.cores i).mstatusBit 1 = false := by
    rw [Core.mstatusBit, hfound 0x300 (by decide) (by decide)]
    exact hsie
  have hendSepc : (t'.cores i).csrRegisters 0x141 = c.pc :=
    (hfound 0x141 (by decide) (by decide)).trans hsepc
  have hendLevel : (t'.cores i).privilegeLevel = .supervisor := by
    rw [htlevel, hquiet.level, hkeptLevel, hlevel]
    exact hsuper
  have hendPc : (t'.cores i).pc = (t.cores i).pc + 4 := by
    rw [htpc, hquiet.pc]
  constructor
  · rintro ⟨henters, t'', hret', hrestored⟩
    obtain rfl : t' = t'' := Except.ok.inj (hret.symm.trans hret')
    have hS : c.privilegeLevel = .supervisor := hrestored.level.symm.trans hendLevel
    have hclear : c.mstatusBit 1 = false := hrestored.sie.symm.trans hendSie
    have hstored := henters.spp
    have hprevious := henters.spie
    rw [hS, sppLevel, hbit, hspp] at hstored
    rw [hbit, hspie, hclear, Bool.or_false] at hprevious
    refine ⟨hS, ?_, hclear, hprevious, ?_⟩
    · cases h8 : c.mstatusBit 8 with
      | true => rfl
      | false =>
        rw [h8] at hstored
        cases hstored
    · rw [← hendPc, hrestored.pc, hendSepc]
  · intro h
    refine ⟨⟨?_, ?_, ?_, ?_, ?_, ?_⟩, t', hret, ?_, ?_, ?_, hendSepc⟩
    · exact hlevel.trans hsuper
    · rw [hcsrs]
      exact hsepc
    · have hcause : (ecallCause c.privilegeLevel).word = 9 := by rw [h.level]; rfl
      rw [hcsrs, if_neg (by rw [h.level]; decide)]
      exact hscause.trans hcause
    · rw [sppLevel, hbit, hspp, h.spp, h.level]
      rfl
    · rw [hbit, hspie, h.spie, Bool.false_or]
    · rw [hbit]
      exact hsie
    · rw [hendLevel, h.level]
    · rw [hendSie, h.sie]
    · rw [hendPc, h.pc, hendSepc]

/-- User mode, everything clear, the ECALL delegated. -/
theorem ecall_sret_user : let s := aboutEcall sretInstr .user 0 0x100
    let c := ((s.handleInterrupt 0).fetchPc 0).2.cores 0
    (EntersSupervisor c ((s.stepped 0).cores 0) ∧
      ∃ t', (s.stepped 0).step 0 = .ok t' ∧ SupervisorRestored c (t'.cores 0)) ↔
        SretHarmless c ((s.stepped 0).cores 0).pc :=
  ecall_sret_iff (s := aboutEcall sretInstr .user 0 0x100)
    (fetches_of_running (by decide +kernel) (by decide +kernel))
    (step_stepped (by decide +kernel)) (by decide +kernel) .refl
    (by unfold NoInterrupt; decide +kernel)
    (fetches_of_running (by decide +kernel) (by decide +kernel))

/-- SRET goes on in supervisor mode at the next address. -/
theorem sret_does_not_return : ¬ ∀ (s s₁ s' t t₁ : Simulator 1 0x100000) (i : Fin 1),
    s.Fetches i s₁ ecall → s.step i = .ok s' →
    delegates ((s₁.fetchPc i).2.cores i)
      (ecallCause ((s₁.fetchPc i).2.cores i).privilegeLevel) = true →
    Relation.ReflTransGen (HandlerMove i) s' t → t.NoInterrupt i → t.Fetches i t₁ sretInstr →
    EntersSupervisor ((s₁.fetchPc i).2.cores i) (s'.cores i) ∧
      ∃ t', t.step i = .ok t' ∧ SupervisorRestored ((s₁.fetchPc i).2.cores i) (t'.cores i) := by
  intro h
  obtain ⟨_, t', hret, hrestored⟩ := h (aboutEcall sretInstr .user 0 0x100) _ _ _ _ 0
    (fetches_of_running (by decide +kernel) (by decide +kernel))
    (step_stepped (by decide +kernel)) (by decide +kernel) .refl
    (by unfold NoInterrupt; decide +kernel)
    (fetches_of_running (by decide +kernel) (by decide +kernel))
  have hstays : (((aboutEcall sretInstr .user 0 0x100).stepped 0).step 0).toOption.map
      (fun t => (t.cores 0).privilegeLevel) = some .supervisor := by
    decide +kernel
  have huser : ((((aboutEcall sretInstr .user 0 0x100).handleInterrupt 0).fetchPc 0).2.cores
      0).privilegeLevel = .user := by
    decide +kernel
  rw [hret] at hstays
  have hlevel : (t'.cores 0).privilegeLevel = .supervisor := Option.some.inj hstays
  rw [hrestored.level, huser] at hlevel
  cases hlevel

end Simulator

/-! ## Interrupts -/

/-- The mode in which the handler of an interrupt is to run. -/
def handlerLevel : Cores.Interrupt → PrivilegeLevel
  | .machine _ => .machine
  | .supervisor _ => .supervisor

/-- The level saved for its return. -/
def savedLevel (interrupt : Cores.Interrupt) (c : Core) : PrivilegeLevel :=
  match interrupt with
  | .machine _ => mppLevel c
  | .supervisor _ => sppLevel c

def returnInstr : Cores.Interrupt → Word
  | .machine _ => mretInstr
  | .supervisor _ => sretInstr

/-- From `c` to `c'` an interrupt has been taken as it should be: the handler runs
in its mode, the old level is saved and will be brought back by the return, and a
supervisor's interrupt has not been taken in machine mode. -/
structure EntersHandler (c : Core) (interrupt : Cores.Interrupt) (c' : Core) : Prop where
  level : c'.privilegeLevel = handlerLevel interrupt
  saved : savedLevel interrupt c' = c.privilegeLevel
  returns : ∀ {N n : Nat} (t t₁ : Simulator N n) (i : Fin N),
    t.Fetches i t₁ (returnInstr interrupt) →
    ((t₁.fetchPc i).2.cores i).csrRegisters 0x300 = c'.csrRegisters 0x300 →
    ((t₁.fetchPc i).2.cores i).privilegeLevel = c'.privilegeLevel →
    ∃ t', t.step i = .ok t' ∧ (t'.cores i).privilegeLevel = c.privilegeLevel
  allowed : handlerLevel interrupt = .supervisor → c.privilegeLevel ≠ .machine

/-- Where nothing shows of the level being left as it is. -/
def EntryHarmless (c : Core) : Cores.Interrupt → Prop
  | .machine _ => c.privilegeLevel = .machine
  | .supervisor _ => c.privilegeLevel = .supervisor ∧ c.mstatusBit 8 = true

/-- MPP is set to machine mode, whatever the level. -/
theorem takeInterrupt_mpp (c : Core) (e : ExceptionType) :
    mppLevel (c.takeInterrupt e) = .machine := by
  have h : ((c.takeInterrupt e).csrRegisters 0x300).extractLsb' 11 2 = 3 := by
    have hstatus : (c.takeInterrupt e).csrRegisters 0x300 =
        (c.csrRegisters 0x300 &&& ~~~0x8#32) ||| (((c.csrRegisters 0x300 >>> 3) &&& 0x1) <<< 7) |||
          (0x3#32 <<< 11) := rfl
    rw [hstatus]
    ext k hk
    interval_cases k <;> simp
  unfold mppLevel
  rw [h]
  rfl

/-- SPP is out of reach of a write of `sstatus`. -/
theorem takeSupervisorInterrupt_spp (c : Core) (cause : Word) :
    sppLevel (c.takeSupervisorInterrupt cause) = sppLevel c := by
  have h : (c.takeSupervisorInterrupt cause).mstatusBit 8 = c.mstatusBit 8 := by
    have hwrite : ∀ v, (c.writeCsr 0x100 v).mstatusBit 8 = c.mstatusBit 8 := by
      intro v
      rw [Core.writeCsr_sstatus, if_neg (by decide)]
    unfold Core.takeSupervisorInterrupt
    have hkept : ∀ (c : Core) (sepc scause stval pc : Word),
        ((((c.setCsr 0x141 sepc).setCsr 0x142 scause).setCsr 0x143 stval).setPc pc).mstatusBit 8 =
          c.mstatusBit 8 := fun _ _ _ _ _ => rfl
    simp only [writeCsr_supervisorTrap]
    exact (hkept ..).trans (hwrite _)
  unfold sppLevel
  rw [h]

theorem sppLevel_supervisor (c : Core) : sppLevel c = .supervisor ↔ c.mstatusBit 8 = true := by
  unfold sppLevel
  split
  · next h => exact iff_of_true rfl h
  · next h => exact iff_of_false (by decide) h

/-- For every interrupt that is taken. -/
theorem interrupt_entry_iff {c : Core} {p : PendingLines} {interrupt : Cores.Interrupt}
    (h : c.interruptTaken p = some interrupt) :
    EntersHandler c interrupt (c.handleInterrupt p) ↔ EntryHarmless c interrupt := by
  have hlevel : (c.handleInterrupt p).privilegeLevel = c.privilegeLevel :=
    (sameButTrap_sameLife (Core.handleInterrupt_sameButTrap c p)).2
  have htaken := handleInterrupt_taken h
  constructor
  · intro henters
    have hmode := hlevel.symm.trans henters.level
    have hsaved := henters.saved
    cases interrupt with
    | machine e => exact hmode
    | supervisor cause =>
      refine ⟨hmode, ?_⟩
      rw [htaken] at hsaved
      have hspp : sppLevel (c.updateMipCsr p) = .supervisor :=
        (takeSupervisorInterrupt_spp _ cause).symm.trans (hsaved.trans hmode)
      exact (sppLevel_supervisor _).mp hspp
  · intro hharmless
    cases interrupt with
    | machine e =>
      have hmachine : c.privilegeLevel = .machine := hharmless
      have hmpp : mppLevel (c.handleInterrupt p) = .machine := by
        rw [htaken]
        exact takeInterrupt_mpp _ e
      refine ⟨hlevel.trans hmachine, hmpp.trans hmachine.symm, ?_, fun h => by cases h⟩
      intro N n t t₁ i hret hstatus _
      obtain ⟨t', hstep, _, _, _, hback⟩ := Simulator.Fetches.mret_step hret
      refine ⟨t', hstep, ?_⟩
      rw [hback, mppLevel, hstatus, hmachine]
      exact hmpp
    | supervisor cause =>
      obtain ⟨hsupervisor, h8⟩ := hharmless
      refine ⟨hlevel.trans hsupervisor, ?_, ?_, fun _ => by rw [hsupervisor]; decide⟩
      · show sppLevel (c.handleInterrupt p) = _
        rw [htaken, hsupervisor]
        exact (takeSupervisorInterrupt_spp _ cause).trans ((sppLevel_supervisor _).mpr h8)
      · intro N n t t₁ i hret _ hkeep
        obtain ⟨t', hstep, _, _, hback⟩ := Simulator.Fetches.sret_step hret
        exact ⟨t', hstep, hback.trans (hkeep.trans hlevel)⟩

/-- A core in user mode with interrupts enabled. -/
def userCore : Core := { Core.init 0 0 with privilegeLevel := .user }.setCsr 0x300 0x8

theorem interrupt_entry_user : EntersHandler userCore (.machine .machineSoftwareInterrupt)
    (userCore.handleInterrupt ⟨true, false, false⟩) ↔
      EntryHarmless userCore (.machine .machineSoftwareInterrupt) :=
  interrupt_entry_iff (by decide)

/-- The handler of a software interrupt runs in user mode. -/
theorem handler_in_user_mode : ¬ ∀ (c : Core) (p : PendingLines) (interrupt : Cores.Interrupt),
    c.interruptTaken p = some interrupt → EntersHandler c interrupt (c.handleInterrupt p) := by
  intro h
  have hlevel := (h userCore ⟨true, false, false⟩ (.machine .machineSoftwareInterrupt)
    (by decide)).level
  exact absurd hlevel (by decide)

end RiscvEmulator.System
