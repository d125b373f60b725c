import RiscvEmulator.Interrupt.ClintRegisters
import RiscvEmulator.System.PageFault

/-! # The two ways to a device

Where RAM ends before the address, `Core::step` leads a load or store to the
devices itself. Where RAM reaches beyond it, the access goes through the MMU to the
accessors of the Simulator. The two agree on some accesses only. -/
namespace RiscvEmulator.System
open Memory Cores Interrupt Device Isa

/-- How a load cuts what a device shows. -/
def narrow (op : LoadOp) (v : Word) : Word :=
  match op with
  | .lb => (v.setWidth 8).signExtend 32
  | .lh => (v.setWidth 16).signExtend 32
  | .lw => v
  | .lbu => (v.setWidth 8).setWidth 32
  | .lhu => (v.setWidth 16).setWidth 32

/-- A load of RAM past the devices; 0 beyond its end. -/
def ramLoad {n : Nat} (op : LoadOp) (memory : ByteMemory n) (addr : Word) : Word :=
  match op with
  | .lb => (memory.readByte addr).signExtend 32
  | .lh => (memory.readHalfword addr).signExtend 32
  | .lw => memory.readWord addr
  | .lbu => (memory.readByte addr).setWidth 32
  | .lhu => (memory.readHalfword addr).setWidth 32

def ramStore {n : Nat} (op : StoreOp) (memory : ByteMemory n) (addr v : Word) : ByteMemory n :=
  match op with
  | .sb => memory.writeByte addr (v.setWidth 8)
  | .sh => memory.writeHalfword addr (v.setWidth 16)
  | .sw => memory.writeWord addr v

theorem ramLoad_beyond {n : Nat} (op : LoadOp) (memory : ByteMemory n) {addr : Word}
    (h : n ≤ addr.toNat) : ramLoad op memory addr = 0 := by
  have hb : memory.readByte addr = 0 := if_neg (by omega)
  have hh : memory.readHalfword addr = 0 := if_neg (by omega)
  have hw : memory.readWord addr = 0 := if_neg (by omega)
  cases op with
  | lb | lbu =>
    unfold ramLoad
    rw [hb]
    rfl
  | lh | lhu =>
    unfold ramLoad
    rw [hh]
    rfl
  | lw => exact hw

namespace Simulator
variable {N n m : Nat} {s : Simulator N n} {t : Simulator N m} {i : Fin N} {addr : Word}

/-! ## The windows -/

def inWindow (addr : Word) : Bool := inUart addr || inClint addr

theorem inUart_bounds (h : inUart addr = true) :
    0x10000000 ≤ addr.toNat ∧ addr.toNat < 0x10000020 := by
  have h1 : (0x10000000 : Word).toNat = 0x10000000 := rfl
  have h2 : (0x10000020 : Word).toNat = 0x10000020 := rfl
  unfold inUart at h
  simpa only [Bool.and_eq_true, decide_eq_true_eq, BitVec.le_def, BitVec.lt_def, h1, h2] using h

theorem inUart_cases (h : inUart addr = true) :
    ∃ k : Fin 32, addr = uartBase + BitVec.ofNat 32 k.val := by
  have hb := inUart_bounds h
  refine ⟨⟨addr.toNat - 0x10000000, by omega⟩, ?_⟩
  unfold uartBase
  bv_omega

theorem inClint_not_inUart (h : inClint addr = true) : inUart addr = false := by
  have hc := inClint_iff.mp h
  cases hu : inUart addr with
  | false => rfl
  | true =>
    have hb := inUart_bounds hu
    omega

/-- No window is cached. -/
theorem inWindow_uncached (h : inWindow addr = true) : hasDataCache addr = false := by
  cases hc : hasDataCache addr with
  | false => rfl
  | true =>
    have hlt := hasDataCache_lt hc
    rcases Bool.or_eq_true_iff.mp h with h | h
    · have hb := inUart_bounds h
      omega
    · have hb := inClint_iff.mp h
      omega

/-! ## What an access comes to -/

/-- A load by the router of the core. -/
def routedLoad (s : Simulator N n) (i : Fin N) (op : LoadOp) (addr : Word) : Word :=
  if addr = coreIdAddr then if op = .lw then BitVec.ofNat 32 i.val else 0
  else if inUart addr then
    ((s.getDevice (addr &&& 0xFFFFFFF0)).map (·.read (addr &&& 0xF))).getD 0
  else if op = .lw then s.readWord addr else 0

def routedStore (s : Simulator N n) (op : StoreOp) (addr v : Word) : Simulator N n :=
  if inUart addr then
    s.writeDevice (·.1 == addr &&& 0xFFFFFFF0) fun dev =>
      dev.2.write (addr &&& 0xF) (if op = .sw then v &&& 0xFF else v)
  else s.writeWord addr v

/-- The value of a load in a window, or the fault of its translation. -/
def loadOutcome (s : Simulator N n) (i : Fin N) (op : LoadOp) (addr : Word) :
    Except ExceptionType Word :=
  if addr.toNat < n then (s.translate i addr false false).1.map (loadDirect op s)
  else .ok (s.routedLoad i op addr)

/-- The state after a store in a window, up to TLBs. -/
def storeOutcome (s : Simulator N n) (i : Fin N) (op : StoreOp) (addr v : Word) :
    Except ExceptionType (Simulator N n) :=
  if addr.toNat < n then (s.translate i addr true false).1.map (storeDirect op s · v)
  else .ok (s.routedStore op addr v)

def setMmus (s : Simulator N n) (mmus : Fin N → MMU mmuConfig) : Simulator N n :=
  { s with mmus := mmus }

def loadExit (s : Simulator N n) (i : Fin N) (rd : Cores.Reg) :
    Except ExceptionType Word → Exit (Simulator N n)
  | .ok v => s.finish i rd v
  | .error ex => s.fault i ex

theorem loadMmio_window (s : Simulator N n) (i : Fin N) (rd : Cores.Reg) (op : LoadOp)
    (hw : inWindow addr = true) :
    s.loadMmio i rd op.funct3 addr = s.finish i rd (s.routedLoad i op addr) := by
  have h3 : (op.funct3 = 0x2) = (op = .lw) := by cases op <;> decide
  unfold loadMmio routedLoad
  simp only [h3]
  split
  · rfl
  · split
    · rfl
    · next hu =>
      have hc : inClint addr = true := (Bool.or_eq_true_iff.mp hw).resolve_left hu
      rw [if_pos hc]

theorem storeMmio_window (s : Simulator N n) (i : Fin N) (op : StoreOp) (v : Word)
    (hw : inWindow addr = true) :
    s.storeMmio i op.funct3 addr v = (s.routedStore op addr v).next i := by
  have h3 : (op.funct3 = 0x2) = (op = .sw) := by cases op <;> decide
  unfold storeMmio routedStore
  simp only [h3]
  split
  · rfl
  · next hu =>
    have hc : inClint addr = true := (Bool.or_eq_true_iff.mp hw).resolve_left hu
    rw [hc, Bool.or_true]
    rfl

theorem execute_load_window (s : Simulator N n) (i : Fin N) {instr : Load}
    (haddr : instr.address (s.cores i).regs = addr) (hw : inWindow addr = true) :
    ∃ mmus, s.execute i instr.encode =
      .ok ((s.setMmus mmus).loadExit i instr.rd (s.loadOutcome i instr.op addr)) := by
  subst haddr
  unfold loadOutcome
  split
  · next hlt =>
    refine ⟨(s.translate i (instr.address (s.cores i).regs) false false).2.mmus, ?_⟩
    rw [execute_load s i instr hlt]
    unfold loadRam
    rw [inWindow_uncached hw]
    generalize instr.address (s.cores i).regs = addr
    have hstate : (s.translate i addr false false).2 =
        s.setMmus (s.translate i addr false false).2.mmus := rfl
    generalize s.translate i addr false false = r at hstate ⊢
    obtain ⟨result, s'⟩ := r
    cases result with
    | error ex => exact congrArg (fun s => Except.ok (s.fault i ex)) hstate
    | ok pa =>
      have hdirect : loadDirect instr.op s' pa = loadDirect instr.op s pa := by
        rw [show s' = s.setMmus s'.mmus from hstate]
        cases instr.op <;> rfl
      simp only [Bool.false_eq_true, if_false, hdirect]
      exact congrArg (fun s' : Simulator N n =>
        Except.ok (s'.finish i instr.rd (loadDirect instr.op s pa))) hstate
  · next hge =>
    obtain ⟨ho, hrd, h3, haddr⟩ := load_fields instr (s.cores i).regs
    refine ⟨s.mmus, ?_⟩
    unfold execute
    simp only [ho]
    unfold load
    simp only [haddr, hrd, h3, if_neg hge, s.loadMmio_window i instr.rd instr.op hw]
    rfl

def storeExit (s : Simulator N n) (i : Fin N) (mmus : Fin N → MMU mmuConfig) :
    Except ExceptionType (Simulator N n) → Exit (Simulator N n)
  | .ok t => (t.setMmus mmus).next i
  | .error ex => (s.setMmus mmus).fault i ex

/-- Direct stores do not look at the MMUs. -/
theorem setMmus_storeDirect (s : Simulator N n) (mmus : Fin N → MMU mmuConfig) (op : StoreOp)
    (addr v : Word) :
    storeDirect op (s.setMmus mmus) addr v = (storeDirect op s addr v).setMmus mmus := by
  cases op with
  | sb =>
    unfold storeDirect writeByte
    rw [apply_ite (setMmus · mmus)]
    rfl
  | sh =>
    unfold storeDirect writeHalfword
    rw [apply_ite (setMmus · mmus)]
    rfl
  | sw =>
    unfold storeDirect writeWord
    rw [apply_ite (setMmus · mmus), apply_ite (setMmus · mmus)]
    rfl

theorem execute_store_window (s : Simulator N n) (i : Fin N) {instr : Store}
    (haddr : instr.address (s.cores i).regs = addr) (hw : inWindow addr = true) :
    ∃ mmus, s.execute i instr.encode = .ok (s.storeExit i mmus
      (s.storeOutcome i instr.op addr ((s.cores i).regs instr.rs2))) := by
  subst haddr
  unfold storeOutcome
  generalize hv : (s.cores i).regs instr.rs2 = v
  split
  · next hlt =>
    refine ⟨(s.translate i (instr.address (s.cores i).regs) true false).2.mmus, ?_⟩
    rw [execute_store s i instr hlt, hv]
    unfold storeRam
    rw [inWindow_uncached hw]
    generalize instr.address (s.cores i).regs = addr
    have hstate : (s.translate i addr true false).2 =
        s.setMmus (s.translate i addr true false).2.mmus := rfl
    generalize s.translate i addr true false = r at hstate ⊢
    obtain ⟨result, s'⟩ := r
    cases result with
    | error ex => exact congrArg (fun s => Except.ok (s.fault i ex)) hstate
    | ok pa =>
      have hdirect : storeDirect instr.op s' pa v =
          (storeDirect instr.op s pa v).setMmus s'.mmus := by
        rw [show s' = s.setMmus s'.mmus from hstate]
        exact s.setMmus_storeDirect s'.mmus instr.op pa v
      simp only [Bool.false_eq_true, if_false, hdirect]
      rfl
  · next hge =>
    obtain ⟨ho, h2, h3, haddr⟩ := store_fields instr (s.cores i).regs
    have hmmus : (s.routedStore instr.op (instr.address (s.cores i).regs) v).mmus = s.mmus := by
      unfold routedStore writeWord
      split
      · rfl
      · split
        · rfl
        · split <;> rfl
    refine ⟨s.mmus, ?_⟩
    unfold execute
    simp only [ho]
    unfold store
    simp only [haddr, h2, h3, if_neg hge, s.storeMmio_window i instr.op _ hw, hv]
    unfold storeExit
    rw [← hmmus]
    rfl

/-! ## The same effect -/

/-- But for RAM and TLBs the machines are the same. -/
structure SameMachine (s : Simulator N n) (t : Simulator N m) : Prop where
  cores : t.cores = s.cores
  hierarchy : t.hierarchy = s.hierarchy
  devices : t.devices = s.devices
  flags : t.coreBootedFlags = s.coreBootedFlags
  monitor : t.multiCoreMonitor = s.multiCoreMonitor
  clint : t.clint = s.clint
  plic : t.plic = s.plic
  counters : t.counters = s.counters

/-- The switch is left the same way, to the same machine, and RAM is left alone. -/
def SameExit (s : Simulator N n) (t : Simulator N m) (i : Fin N) :
    Exit (Simulator N n) → Exit (Simulator N m) → Prop
  | .done s', .done t' => SameMachine (retire i (.done s')) (retire i (.done t')) ∧
      s'.memory = s.memory ∧ t'.memory = t.memory
  | .fault s', .fault t' => SameMachine s' t' ∧ s'.memory = s.memory ∧ t'.memory = t.memory
  | _, _ => False

/-- Executing `instr` in `s` has the effect of executing `instr'` in `t`. -/
def SameEffect (s : Simulator N n) (t : Simulator N m) (i : Fin N) (instr instr' : Word) : Prop :=
  ∃ e e', s.execute i instr = .ok e ∧ t.execute i instr' = .ok e' ∧ SameExit s t i e e'

theorem sameEffect_iff {instr instr' : Word} {e : Exit (Simulator N n)} {e' : Exit (Simulator N m)}
    (he : s.execute i instr = .ok e) (he' : t.execute i instr' = .ok e') :
    SameEffect s t i instr instr' ↔ SameExit s t i e e' := by
  unfold SameEffect
  rw [he, he']
  constructor
  · rintro ⟨_, _, hexit, hexit', hsame⟩
    cases hexit
    cases hexit'
    exact hsame
  · exact fun hsame => ⟨_, _, rfl, rfl, hsame⟩

theorem SameMachine.refl (s : Simulator N n) : SameMachine s s :=
  ⟨rfl, rfl, rfl, rfl, rfl, rfl, rfl, rfl⟩

/-- Changing a core and counting the instruction on both sides. -/
theorem SameMachine.retire (h : SameMachine s t) (c : Core) :
    SameMachine (retire i (.done (s.setCore i c)))
      (Simulator.retire i (.done (t.setCore i c))) := by
  obtain ⟨hcores, hhier, hdev, hflags, hmon, hclint, hplic, hcount⟩ := h
  have hstep : ∀ {k : Nat} (u : Simulator N k), Simulator.retire i (.done (u.setCore i c)) =
      { u.setCore i ((c.updatePerformanceCounter u.counters).1.setReg 0 0) with
        counters := (c.updatePerformanceCounter u.counters).2 } := by
    intro k u
    simp only [Simulator.retire, setCore_cores_self, setCore_setCore]
    rfl
  rw [hstep, hstep]
  refine ⟨?_, hhier, hdev, hflags, hmon, hclint, hplic, ?_⟩
  · show Function.update t.cores i _ = Function.update s.cores i _
    rw [hcores, hcount]
  · show (c.updatePerformanceCounter t.counters).2 = (c.updatePerformanceCounter s.counters).2
    rw [hcount]

/-- Counting does not look at the registers. -/
theorem updatePerformanceCounter_regs (c : Core) (g : GlobalCounters) (regs : Cores.Reg → Word) :
    ({ c with regs := regs } : Core).updatePerformanceCounter g =
      ({ (c.updatePerformanceCounter g).1 with regs := regs },
        (c.updatePerformanceCounter g).2) := by
  unfold Core.updatePerformanceCounter
  simp only
  split
  · rfl
  · split <;> rfl

/-- What a load leaves in `x0` does not count. -/
theorem retire_finish_zero (s : Simulator N n) (i : Fin N) (v w : Word) :
    retire i (s.finish i 0 v) = retire i (s.finish i 0 w) := by
  have hcore : ∀ v, (s.cores i).writeback 0 (some v) =
      { (s.cores i).writeback 0 none with regs := Function.update (s.cores i).regs 0 v } :=
    fun v => rfl
  have hclear : ∀ (c : Core) (v : Word),
      Core.setReg { c with regs := Function.update (s.cores i).regs 0 v } 0 0 =
        { c with regs := Function.update (s.cores i).regs 0 0 } := by
    intro c v
    show ({ c with regs := _ } : Core) = _
    rw [Function.update_idem]
  unfold finish retire
  simp only [setCore_cores_self, setCore_setCore, hcore, updatePerformanceCounter_regs, hclear]
  rfl

/-- Loads into `rd` that come to the same. -/
def LoadsAgree (rd : Cores.Reg) : Except ExceptionType Word → Except ExceptionType Word → Prop
  | .ok v, .ok w => rd = 0 ∨ v = w
  | .error _, .error _ => True
  | _, _ => False

/-- Stores that come to the same and leave RAM alone. -/
def StoresAgree (s : Simulator N n) (t : Simulator N m) :
    Except ExceptionType (Simulator N n) → Except ExceptionType (Simulator N m) → Prop
  | .ok s', .ok t' => t'.devices = s'.devices ∧ t'.clint = s'.clint ∧ s'.memory = s.memory ∧
      t'.memory = t.memory
  | .error _, .error _ => True
  | _, _ => False

theorem loadOutcome_error {op : LoadOp} {ex : ExceptionType}
    (h : s.loadOutcome i op addr = .error ex) (pc : Word) :
    Core.handleException ex pc = pc + 4 := by
  unfold loadOutcome at h
  split at h
  · cases hres : (s.translate i addr false false).1 with
    | ok pa =>
      rw [hres] at h
      cases h
    | error ex' =>
      rw [hres] at h
      cases h
      exact translate_error hres pc
  · cases h

theorem storeOutcome_error {op : StoreOp} {v : Word} {ex : ExceptionType}
    (h : s.storeOutcome i op addr v = .error ex) (pc : Word) :
    Core.handleException ex pc = pc + 4 := by
  unfold storeOutcome at h
  split at h
  · cases hres : (s.translate i addr true false).1 with
    | ok pa =>
      rw [hres] at h
      cases h
    | error ex' =>
      rw [hres] at h
      cases h
      exact translate_error hres pc
  · cases h

/-- Faults of translation all go on to the next instruction. -/
theorem fault_same (h : SameMachine s t) {mmus mmus' : Fin N → MMU mmuConfig}
    {ex ex' : ExceptionType} (hex : ∀ pc, Core.handleException ex pc = pc + 4)
    (hex' : ∀ pc, Core.handleException ex' pc = pc + 4) :
    SameExit s t i ((s.setMmus mmus).fault i ex) ((t.setMmus mmus').fault i ex') := by
  obtain ⟨hcores, hhier, hdev, hflags, hmon, hclint, hplic, hcount⟩ := h
  refine ⟨⟨?_, hhier, hdev, hflags, hmon, hclint, hplic, hcount⟩, rfl, rfl⟩
  show Function.update t.cores i ((t.cores i).setPc (Core.handleException ex' (t.cores i).pc)) =
    Function.update s.cores i ((s.cores i).setPc (Core.handleException ex (s.cores i).pc))
  rw [hcores, hex, hex']

theorem finish_same_iff (h : SameMachine s t) {mmus mmus' : Fin N → MMU mmuConfig}
    {rd : Cores.Reg} {v w : Word} :
    SameExit s t i ((s.setMmus mmus).finish i rd v) ((t.setMmus mmus').finish i rd w) ↔
      rd = 0 ∨ v = w := by
  have hmach : SameMachine (s.setMmus mmus) (t.setMmus mmus') :=
    ⟨h.cores, h.hierarchy, h.devices, h.flags, h.monitor, h.clint, h.plic, h.counters⟩
  have hret := hmach.retire (i := i) ((s.cores i).writeback rd (some v))
  have hfinish : (t.setMmus mmus').finish i rd v =
      .done ((t.setMmus mmus').setCore i ((s.cores i).writeback rd (some v))) := by
    rw [← h.cores]
    rfl
  constructor
  · rintro ⟨hsame, -, -⟩
    by_cases h0 : rd = 0
    · exact .inl h0
    · have hregs := congrArg (fun cores => (cores i).regs rd) hsame.cores
      have hs := (retire_retired (s.setMmus mmus) i ((s.cores i).writeback rd (some v))).regs
      have ht := (retire_retired (t.setMmus mmus') i ((t.cores i).writeback rd (some w))).regs
      have hval : ∀ (c : Core) (x : Word),
          Function.update (c.writeback rd (some x)).regs 0 0 rd = x := by
        intro c x
        rw [Function.update_of_ne h0]
        exact Function.update_self ..
      right
      calc v = Function.update ((s.cores i).writeback rd (some v)).regs 0 0 rd := (hval _ v).symm
        _ = _ := (congrFun hs rd).symm
        _ = _ := hregs.symm
        _ = Function.update ((t.cores i).writeback rd (some w)).regs 0 0 rd := congrFun ht rd
        _ = w := hval _ w
  · intro hvw
    refine ⟨?_, rfl, rfl⟩
    show SameMachine (retire i ((s.setMmus mmus).finish i rd v))
      (retire i ((t.setMmus mmus').finish i rd w))
    have hw : retire i ((t.setMmus mmus').finish i rd w) =
        retire i ((t.setMmus mmus').finish i rd v) := by
      rcases hvw with rfl | rfl
      · exact retire_finish_zero ..
      · rfl
    rw [hw, hfinish]
    exact hret

theorem load_same_iff (h : SameMachine s t) {instr instr' : Load} {addr addr' : Word}
    (haddr : instr.address (s.cores i).regs = addr) (hw : inWindow addr = true)
    (haddr' : instr'.address (s.cores i).regs = addr') (hw' : inWindow addr' = true)
    (hrd : instr'.rd = instr.rd) :
    SameEffect s t i instr.encode instr'.encode ↔
      LoadsAgree instr.rd (s.loadOutcome i instr.op addr) (t.loadOutcome i instr'.op addr') := by
  obtain ⟨mmus, hs⟩ := execute_load_window s i haddr hw
  obtain ⟨mmus', ht⟩ := execute_load_window t i (h.cores ▸ haddr') hw'
  rw [hrd] at ht
  rw [sameEffect_iff hs ht]
  cases ho : s.loadOutcome i instr.op addr with
  | ok v =>
    cases ho' : t.loadOutcome i instr'.op addr' with
    | ok w => exact finish_same_iff h
    | error ex' => exact Iff.rfl
  | error ex =>
    cases ho' : t.loadOutcome i instr'.op addr' with
    | ok w => exact Iff.rfl
    | error ex' =>
      exact iff_of_true (fault_same h (loadOutcome_error ho) (loadOutcome_error ho')) trivial

/-- A store reaches devices, the CLINT and RAM. -/
def OnlyIo (s u : Simulator N n) : Prop :=
  ∃ devices clint memory, u = { s with devices := devices, clint := clint, memory := memory }

theorem writeWord_onlyIo (s : Simulator N n) (addr v : Word) : OnlyIo s (s.writeWord addr v) := by
  unfold writeWord
  split
  · exact ⟨_, _, _, rfl⟩
  · split
    · exact ⟨_, _, _, rfl⟩
    · exact ⟨_, _, _, rfl⟩

theorem storeDirect_onlyIo (s : Simulator N n) (op : StoreOp) (addr v : Word) :
    OnlyIo s (storeDirect op s addr v) := by
  cases op with
  | sb =>
    show OnlyIo s (s.writeByte addr (v.setWidth 8))
    unfold writeByte
    split
    · exact ⟨_, _, _, rfl⟩
    · exact ⟨_, _, _, rfl⟩
  | sh =>
    show OnlyIo s (s.writeHalfword addr (v.setWidth 16))
    unfold writeHalfword
    split
    · exact ⟨_, _, _, rfl⟩
    · exact ⟨_, _, _, rfl⟩
  | sw => exact s.writeWord_onlyIo addr v

theorem storeOutcome_onlyIo {op : StoreOp} {v : Word} {u : Simulator N n}
    (h : s.storeOutcome i op addr v = .ok u) : OnlyIo s u := by
  unfold storeOutcome at h
  split at h
  · cases hres : (s.translate i addr true false).1 with
    | ok pa =>
      rw [hres] at h
      cases h
      exact s.storeDirect_onlyIo op pa v
    | error ex =>
      rw [hres] at h
      cases h
  · cases h
    unfold routedStore
    split
    · exact ⟨_, _, _, rfl⟩
    · exact s.writeWord_onlyIo addr v

theorem next_same_iff (h : SameMachine s t) {mmus : Fin N → MMU mmuConfig}
    {mmus' : Fin N → MMU mmuConfig} {u : Simulator N n} {u' : Simulator N m} (hu : OnlyIo s u)
    (hu' : OnlyIo t u') :
    SameExit s t i ((u.setMmus mmus).next i) ((u'.setMmus mmus').next i) ↔
      StoresAgree s t (.ok u) (.ok u') := by
  obtain ⟨devices, clint, memory, rfl⟩ := hu
  obtain ⟨devices', clint', memory', rfl⟩ := hu'
  obtain ⟨hcores, hhier, hdev, hflags, hmon, hclint, hplic, hcount⟩ := h
  constructor
  · rintro ⟨hsame, hms, hmt⟩
    exact ⟨hsame.devices, hsame.clint, hms, hmt⟩
  · rintro ⟨hd, hc, hms, hmt⟩
    refine ⟨?_, hms, hmt⟩
    have hmach : SameMachine
        (setMmus { s with devices := devices, clint := clint, memory := memory } mmus)
        (setMmus { t with devices := devices', clint := clint', memory := memory' } mmus') :=
      ⟨hcores, hhier, hd, hflags, hmon, hc, hplic, hcount⟩
    have hret := hmach.retire (i := i) ((s.cores i).writeback 0 none)
    rw [← hcores] at hret ⊢
    exact hret

theorem store_same_iff (h : SameMachine s t) {instr instr' : Store} {addr addr' : Word}
    (haddr : instr.address (s.cores i).regs = addr) (hw : inWindow addr = true)
    (haddr' : instr'.address (s.cores i).regs = addr') (hw' : inWindow addr' = true) :
    SameEffect s t i instr.encode instr'.encode ↔
      StoresAgree s t (s.storeOutcome i instr.op addr ((s.cores i).regs instr.rs2))
        (t.storeOutcome i instr'.op addr' ((s.cores i).regs instr'.rs2)) := by
  obtain ⟨mmus, hs⟩ := execute_store_window s i haddr hw
  obtain ⟨mmus', ht⟩ := execute_store_window t i (h.cores ▸ haddr') hw'
  rw [h.cores] at ht
  rw [sameEffect_iff hs ht]
  cases ho : s.storeOutcome i instr.op addr ((s.cores i).regs instr.rs2) with
  | ok u =>
    cases ho' : t.storeOutcome i instr'.op addr' ((s.cores i).regs instr'.rs2) with
    | ok u' => exact next_same_iff h (storeOutcome_onlyIo ho) (storeOutcome_onlyIo ho')
    | error ex' => exact Iff.rfl
  | error ex =>
    cases ho' : t.storeOutcome i instr'.op addr' ((s.cores i).regs instr'.rs2) with
    | ok u' => exact Iff.rfl
    | error ex' =>
      exact iff_of_true (fault_same h (storeOutcome_error ho) (storeOutcome_error ho')) trivial

end Simulator
end RiscvEmulator.System
