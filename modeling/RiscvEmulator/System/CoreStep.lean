import RiscvEmulator.Isa.Machine
import RiscvEmulator.System.AccessMoves
import RiscvEmulator.System.ByteArray
import RiscvEmulator.System.ComputeStep
import RiscvEmulator.System.InterruptDelivery
import RiscvEmulator.System.MulDivStep
import RiscvEmulator.System.SatpFrame

/-! # Steps of the specified instructions

What a step of a running core that takes no interrupt makes of the whole simulator,
for each instruction of the specified machine: what it leaves of the caches, memory
and the devices, and that nothing of the core changes but registers, `pc`, `mip` and
its counter. -/
namespace RiscvEmulator.System
open Memory Cores Isa Device

/-- Interrupts are off in both modes. -/
structure Masked (c : Core) : Prop where
  machine : mstatusMie c = false
  supervisor : mstatusSie c = false

/-- They are in a core just built. -/
theorem masked_of_init {c : Core} (h : c.csrRegisters 0x300 = 0x1800) : Masked c := by
  constructor
  · unfold mstatusMie
    rw [h]
    decide
  · unfold mstatusSie
    rw [h]
    decide

theorem Masked.taken {c : Core} (h : Masked c) (p : PendingLines) : c.interruptTaken p = none := by
  rw [interruptTaken_eq_none, h.machine, h.supervisor]
  exact ⟨fun h => (nomatch h), fun _ h => (nomatch h)⟩

theorem Masked.of_mstatus {c c' : Core} (h : Masked c)
    (hs : c'.csrRegisters 0x300 = c.csrRegisters 0x300) : Masked c' := by
  refine ⟨?_, ?_⟩
  · unfold mstatusMie
    rw [hs]
    exact h.machine
  · unfold mstatusSie
    rw [hs]
    exact h.supervisor

namespace Simulator
variable {N n : Nat} {s t s' : Simulator N n} {i : Fin N} {addr : Word}

/-! ## Before and after the switch -/

/-- Core `i` runs with its interrupts off, fetches `w` and comes to the switch in `t`. -/
structure Switches (s : Simulator N n) (i : Fin N) (w : Word) (t : Simulator N n) : Prop where
  running : s.Running i
  masked : Masked (s.cores i)
  fetches : (s.setCore i ((s.cores i).updateMipCsr (s.pendingLines i))).fetchPc i = (w, t)

namespace Switches
variable {w : Word}

theorem cores (h : s.Switches i w t) :
    t.cores = (s.setCore i ((s.cores i).updateMipCsr (s.pendingLines i))).cores := by
  have hacc := (s.setCore i ((s.cores i).updateMipCsr (s.pendingLines i))).fetch_accessed i
    ((s.setCore i ((s.cores i).updateMipCsr (s.pendingLines i))).cores i).pc
  have hfetch := h.fetches
  unfold fetchPc at hfetch
  rw [hfetch] at hacc
  exact hacc.cores

/-- It has looked at the interrupts. -/
theorem core (h : s.Switches i w t) :
    t.cores i = (s.cores i).updateMipCsr (s.pendingLines i) := by
  rw [h.cores, setCore_cores_self]

theorem regs (h : s.Switches i w t) : (t.cores i).regs = (s.cores i).regs := by
  rw [h.core]
  rfl

theorem others (h : s.Switches i w t) {j : Fin N} (hj : j ≠ i) : t.cores j = s.cores j := by
  rw [h.cores, setCore_cores_other s i _ hj]

end Switches

/-- The core after a step: registers and `pc` are those of `st`. -/
structure CoreAfter (s : Simulator N n) (i : Fin N) (st : Isa.State) (c : Core) : Prop where
  isaState : c.isaState = st
  mip : ∀ a, a ≠ 0x344 → c.csrRegisters a = (s.cores i).csrRegisters a
  waits : c.isWaitingForInterrupt = (s.cores i).isWaitingForInterrupt
  booted : c.hasBooted = (s.cores i).hasBooted
  finished : c.hasFinished = (s.cores i).hasFinished

/-- A step of core `i` that leaves `st` in it and the memory and devices of `t`. -/
structure StepsTo (s : Simulator N n) (i : Fin N) (st : Isa.State) (t : Simulator N n)
    (s' : Simulator N n) : Prop where
  step : s.step i = .ok s'
  core : CoreAfter s i st (s'.cores i)
  rest : s' = { t with
    cores := Function.update s.cores i (s'.cores i)
    counters := s'.counters }

section
variable {w : Word} {t₀ : Simulator N n} (hsw : s.Switches i w t₀)
include hsw

/-- The step of a core whose switch comes to `t` with the core `c`. -/
theorem Switches.stepsTo {c : Core} {st : Isa.State}
    (he : t₀.execute i w = .ok (.done (t.setCore i c))) (ht : ∀ j, j ≠ i → t.cores j = s.cores j)
    (hc : OnlyRegs ((s.cores i).updateMipCsr (s.pendingLines i)) c)
    (hregs : Function.update c.regs 0 0 = st.regs) (hpc : c.pc = st.pc) :
    ∃ s', s.StepsTo i st t s' := by
  have hf : s.Fetches i (s.setCore i ((s.cores i).updateMipCsr (s.pendingLines i))) w := by
    refine ⟨?_, by rw [hsw.fetches]⟩
    rw [← handleInterrupt_eq_of_noInterrupt (hsw.masked.taken _)]
    exact hsw.running.prepare_eq
  have hstep := hf.step_eq
  rw [hsw.fetches, he] at hstep
  obtain ⟨hstate, v, hcore⟩ := retire_done t i c
  have hok : s.step i = .ok (retire i (.done (t.setCore i c))) := hstep
  generalize retire i (.done (t.setCore i c)) = s' at hstate hcore hok
  have hcores : Function.update t.cores i (s'.cores i) =
      Function.update s.cores i (s'.cores i) := by
    funext j
    by_cases hj : j = i
    · subst hj
      rw [Function.update_self, Function.update_self]
    · rw [Function.update_of_ne hj, Function.update_of_ne hj, ht j hj]
  refine ⟨s', hok, ⟨?_, ?_, ?_, ?_, ?_⟩, ?_⟩
  · rw [hcore]
    unfold Core.isaState
    simp only [hregs, hpc]
  · intro a ha
    rw [hcore]
    exact (congrFun hc.csrs a).trans (updateMipCsr_other _ _ ha)
  · obtain ⟨_, _, hc⟩ := hc
    rw [hcore, hc]
    rfl
  · obtain ⟨_, _, hc⟩ := hc
    rw [hcore, hc]
    rfl
  · obtain ⟨_, _, hc⟩ := hc
    rw [hcore, hc]
    rfl
  · rw [← hcores]
    exact hstate

end

/-! ## The number of the hart -/

theorem readCsr_hartId (t : Simulator N n) (i : Fin N) :
    t.readCsr i 0xF14 = (BitVec.ofNat 32 i.val, t) := by
  have h : t.readCsr i 0xF14 = (BitVec.ofNat 32 i.val, t.setCore i (t.cores i)) := rfl
  rw [h, setCore_self]

/-- It cannot be written. -/
theorem writeCsr_hartId (t : Simulator N n) (i : Fin N) (v : Word) : t.writeCsr i 0xF14 v = t := by
  have h : t.writeCsr i 0xF14 v = t.setCore i (t.cores i) := rfl
  rw [h, setCore_self]

/-! ## The instructions -/

section
variable {w : Word} {t₀ : Simulator N n} (hsw : s.Switches i w t₀)
  (hx0 : (s.cores i).regs 0 = 0)
include hsw hx0

/-- An instruction that ends with a value for `rd`, if `t` is what it has made of the
rest. -/
theorem stepsTo_finish {rd : Cores.Reg} {v : Word} (ht : t.cores = t₀.cores)
    (he : t₀.execute i w = .ok (t.finish i rd v)) :
    ∃ s', s.StepsTo i (((s.cores i).isaState.write rd v).goto ((s.cores i).pc + 4)) t s' := by
  have hcore : t.cores i = (s.cores i).updateMipCsr (s.pendingLines i) := by
    rw [ht, hsw.core]
  refine hsw.stepsTo he ?_ ?_ ?_ ?_
  · intro j hj
    rw [ht]
    exact hsw.others hj
  · rw [hcore]
    exact .writeback ..
  · rw [hcore]
    exact Core.update_update_zero hx0 rd v
  · rw [hcore]
    rfl

/-- And one that ends without. -/
theorem stepsTo_next (ht : t.cores = t₀.cores) (he : t₀.execute i w = .ok (t.next i)) :
    ∃ s', s.StepsTo i ((s.cores i).isaState.goto ((s.cores i).pc + 4)) t s' := by
  have hcore : t.cores i = (s.cores i).updateMipCsr (s.pendingLines i) := by
    rw [ht, hsw.core]
  refine hsw.stepsTo he ?_ ?_ ?_ ?_
  · intro j hj
    rw [ht]
    exact hsw.others hj
  · rw [hcore]
    exact .writeback ..
  · rw [hcore]
    exact Core.update_zero hx0
  · rw [hcore]
    rfl

theorem stepsTo_compute {instr : Rv32i} (hw : w = instr.encode) :
    ∃ s', s.StepsTo i (instr.exec (s.cores i).isaState) t₀ s' := by
  have he := execute_encode t₀ i instr
  rw [← hw, hsw.core] at he
  refine hsw.stepsTo he (fun j hj => hsw.others hj) ⟨_, _, rfl⟩ ?_ rfl
  exact Core.effect_regs hx0 instr

theorem stepsTo_mulDiv {instr : RvM} (hw : w = instr.encode)
    (hright : MulDivRight instr ((s.cores i).regs instr.rs1) ((s.cores i).regs instr.rs2)) :
    ∃ s', s.StepsTo i (instr.exec (s.cores i).isaState) t₀ s' := by
  obtain ⟨hno, hvalue⟩ := hright
  have hop : opcode instr.encode = 0x33#7 := (rType_fields ..).1
  have he : t₀.execute i instr.encode =
      ((t₀.cores i).op instr.encode).map (t₀.setCoreDone i) := by
    unfold execute
    simp only [hop]
  rw [Core.op_mulDiv, hsw.regs] at he
  rcases aluOp_mulDiv_cases instr.op instr.rs2 ((s.cores i).regs instr.rs1)
      ((s.cores i).regs instr.rs2) with ⟨ho, ha, hb, _⟩ | ⟨_, v, hv⟩
  · exact absurd ⟨ho, ha, hb⟩ hno
  · rw [hv, ← hw] at he
    obtain ⟨s', hs'⟩ := stepsTo_finish hsw hx0 rfl he
    have hst : ((s.cores i).isaState.write instr.rd v).goto ((s.cores i).pc + 4) =
        instr.exec (s.cores i).isaState := by
      unfold RvM.exec
      rcases hvalue with hrd | hvalue
      · -- nothing is written, whatever the switch has computed
        simp only [State.write, hrd, if_true]
        rfl
      · have heval := (aluOp_mulDiv_iff ..).mpr hvalue
        rw [hv] at heval
        rw [Option.some.inj (Except.ok.inj heval)]
        rfl
    exact ⟨s', hst ▸ hs'⟩

theorem stepsTo_fence {fields : BitVec 25} (hw : w = (Instr.fence fields).encode) :
    ∃ s', s.StepsTo i ((s.cores i).isaState.goto ((s.cores i).pc + 4)) t₀ s' := by
  refine stepsTo_next hsw hx0 rfl ?_
  have hop : opcode w = 0x0F#7 := by
    rw [hw]
    exact (Instr.fence_fields fields).1
  unfold execute
  rw [hop]
  rfl

/-- The number of the hart is the id of its core. -/
theorem stepsTo_hartId {rd : Isa.Reg} (hw : w = (Instr.hartId rd).encode) :
    ∃ s', s.StepsTo i (((s.cores i).isaState.write rd (BitVec.ofNat 32 i.val)).goto
      ((s.cores i).pc + 4)) t₀ s' := by
  obtain ⟨hop, hrd, h3, _, hcsr, _⟩ := iType_fields 0 0x2 rd 0x73 0xF14
  rw [show iType 0 0x2 rd 0x73 0xF14 = w from hw.symm] at hop hrd h3 hcsr
  have hop' : opcode w = 0x73#7 := hop
  have hrd' : rdOf w = rd := hrd
  have h3' : funct3Of w = 0x2#3 := h3
  have he : t₀.execute i w = .ok (.done (t₀.setCore i
      ((if rd ≠ 0 then (t₀.cores i).setReg rd (BitVec.ofNat 32 i.val) else t₀.cores i).setPc
        ((s.cores i).pc + 4)))) := by
    rw [execute_system hop']
    unfold system
    simp only [hrd', h3', hcsr, readCsr_hartId]
    unfold csrUpdate
    simp only [writeCsr_hartId]
    unfold next
    rw [setCore_cores_self, setCore_setCore, hsw.core]
    split <;> rfl
  rw [hsw.core] at he
  refine hsw.stepsTo he (fun j hj => hsw.others hj) ?_ ?_ ?_
  · split <;> exact ⟨_, _, rfl⟩
  · by_cases hz : rd = 0
    · rw [if_neg (fun h => h hz)]
      subst hz
      exact Core.update_zero hx0
    · rw [if_pos hz]
      exact Core.update_update_zero hx0 rd (BitVec.ofNat 32 i.val)
  · rfl

/-- A store to the transmit register of the one device there is. -/
theorem stepsTo_transmit {instr : Store} {u : UART} (hn : n ≤ 0x02000000)
    (hd : t₀.devices = [(uartBase, u)]) (hw : w = instr.encode)
    (haddr : instr.address (s.cores i).regs = transmitAddr) :
    ∃ s' data, data &&& 0xFF = (s.cores i).regs instr.rs2 &&& 0xFF ∧
      s.StepsTo i ((s.cores i).isaState.goto ((s.cores i).pc + 4))
        { t₀ with devices := [(uartBase, u.write 0 data)] } s' := by
  obtain ⟨hop, hrs2, h3, haddr'⟩ := store_fields instr (t₀.cores i).regs
  rw [← hw] at hop hrs2 h3 haddr'
  rw [hsw.regs, haddr] at haddr'
  let data := if instr.op.funct3 = 0x2 then (s.cores i).regs instr.rs2 &&& 0xFF
    else (s.cores i).regs instr.rs2
  have he : t₀.execute i w =
      .ok (({ t₀ with devices := [(uartBase, u.write 0 data)] } : Simulator N n).next i) := by
    rw [execute_storeOp hop]
    unfold store
    have hout : ¬transmitAddr.toNat < n := by
      have : transmitAddr.toNat = 0x10000000 := rfl
      omega
    simp only [hsw.regs, haddr', hrs2, h3, if_neg hout]
    unfold storeMmio
    rw [if_pos (by decide)]
    unfold writeDevice
    rw [hd]
    rfl
  have hcores : ({ t₀ with devices := [(uartBase, u.write 0 data)] } :
      Simulator N n).cores = t₀.cores := rfl
  obtain ⟨s', hs'⟩ := stepsTo_next hsw hx0 hcores he
  refine ⟨s', data, ?_, hs'⟩
  simp only [data]
  split
  · rw [BitVec.and_assoc]
    rfl
  · rfl

end

end Simulator
end RiscvEmulator.System
