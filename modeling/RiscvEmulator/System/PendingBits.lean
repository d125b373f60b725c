import RiscvEmulator.System.Continuation
import RiscvEmulator.System.InterruptDelivery

/-! # The pending bits that software writes

`write_csr` lets software write bits 1, 5 and 9 of `mip`, but every step begins with
`update_mip_csr`, which makes `mip` anew from the lines at bits 11, 9 and 8. -/
namespace RiscvEmulator.System
open Memory Cores Interrupt

/-- The bits of `mip` that software may write: SSIP, STIP and SEIP. -/
def writablePending : List Nat := [1, 5, 9]

/-- The bits of `mip` that the controllers' lines have. -/
def hardwarePending : List Nat := [8, 9, 11]

/-- Whether the instruction is one of the six that write `mip`. -/
def WritesMip (instr : Word) : Prop :=
  opcode instr = 0x73 ∧ instr.extractLsb' 20 12 = 0x344 ∧
    funct3Of instr ≠ 0x0 ∧ funct3Of instr ≠ 0x4

instance (instr : Word) : Decidable (WritesMip instr) := inferInstanceAs (Decidable (_ ∧ _))

/-- The bits of `mip` that an instruction clears: CSRRW where its operand has a 0, CSRRC
where it has a 1. -/
def mipClears (regs : Cores.Reg → Word) (instr : Word) : Word :=
  if WritesMip instr then
    match funct3Of instr with
    | 0x1 | 0x5 => ~~~csrSource regs instr
    | 0x3 | 0x7 => csrSource regs instr
    | _ => 0
  else 0

/-- The bits of `mip` that an instruction sets: CSRRW and CSRRS where their operand has a 1. -/
def mipSets (regs : Cores.Reg → Word) (instr : Word) : Word :=
  if WritesMip instr then
    match funct3Of instr with
    | 0x1 | 0x2 | 0x5 | 0x6 => csrSource regs instr
    | _ => 0
  else 0

theorem mip_alone (regs : Cores.Reg → Word) {instr : Word} (h : ¬WritesMip instr) :
    mipClears regs instr = 0 ∧ mipSets regs instr = 0 := ⟨if_neg h, if_neg h⟩

/-! ## Writes and updates -/

/-- After a write a writable bit is that of the value. -/
theorem writeCsr_mip (c : Core) (v : Word) {k : Nat} (hk : k ∈ writablePending) :
    ((c.writeCsr 0x344 v).csrRegisters 0x344).getLsbD k = v.getLsbD k := by
  have hvalue : (c.writeCsr 0x344 v).csrRegisters 0x344 =
      (c.csrRegisters 0x344 &&& ~~~0x222#32) ||| (v &&& 0x222) :=
    Function.update_self (0x344 : BitVec 12) _ c.csrRegisters
  rw [hvalue]
  simp only [writablePending, List.mem_cons, List.not_mem_nil, or_false] at hk
  rcases hk with rfl | rfl | rfl <;> simp

/-- What the lines make of `mip`. -/
def lineBits (p : PendingLines) : Word :=
  (if p.software then 0x800 else 0) ||| (if p.timer then 0x200 else 0) |||
    (if p.external then 0x100 else 0)

theorem updateMipCsr_lineBits (c : Core) (p : PendingLines) :
    (c.updateMipCsr p).csrRegisters 0x344 = lineBits p :=
  Function.update_self (0x344 : BitVec 12) _ c.csrRegisters

/-- What the update makes of a writable bit: only bit 9 can be set, by the timer. -/
theorem lineBits_writable (p : PendingLines) {k : Nat} (hk : k ∈ writablePending) :
    (lineBits p).getLsbD k = (p.timer && decide (k = 9)) := by
  simp only [writablePending, List.mem_cons, List.not_mem_nil, or_false] at hk
  rw [← updateMipCsr_lineBits (Core.init 0 0) p, updateMipCsr_mip _ p k (by omega)]
  rcases hk with rfl | rfl | rfl <;> simp

/-- An update changes only the bits that the lines have. -/
def HardwareOnly (c : Core) (p : PendingLines) : Prop :=
  ∀ k, k < 32 → k ∉ hardwarePending →
    ((c.updateMipCsr p).csrRegisters 0x344).getLsbD k = (c.csrRegisters 0x344).getLsbD k

/-- It does so exactly where no other bit is set. -/
theorem hardwareOnly_iff (c : Core) (p : PendingLines) : HardwareOnly c p ↔
    ∀ k, k < 32 → k ∉ hardwarePending → (c.csrRegisters 0x344).getLsbD k = false := by
  have hother : ∀ k, k < 32 → k ∉ hardwarePending →
      ((c.updateMipCsr p).csrRegisters 0x344).getLsbD k = false := by
    intro k hk hline
    simp only [hardwarePending, List.mem_cons, List.not_mem_nil, or_false, not_or] at hline
    rw [updateMipCsr_mip c p k hk]
    simp [hline]
  refine forall_congr' fun k => forall_congr' fun hk => forall_congr' fun hline => ?_
  rw [hother k hk hline]
  exact eq_comm

namespace Simulator
variable {N n : Nat} {s s₁ s' t u : Simulator N n} {i : Fin N} {instr : Word} {k : Nat}

/-! ## The step -/

/-- The lines are `p`, and `mip` of core `i` is made from them. -/
structure LinesSeen (i : Fin N) (p : PendingLines) (s : Simulator N n) : Prop where
  lines : s.pendingLines i = p
  mip : (s.cores i).csrRegisters 0x344 = lineBits p

theorem handleInterrupt_seen (s : Simulator N n) (i : Fin N) :
    LinesSeen i (s.pendingLines i) (s.handleInterrupt i) := by
  refine ⟨rfl, ?_⟩
  unfold Simulator.handleInterrupt
  rw [setCore_cores_self, handleInterrupt_keeps _ (by decide), updateMipCsr_lineBits]

theorem LinesSeen.gate {p : PendingLines} (hs : LinesSeen i p s) (h : GateMove i s t) :
    LinesSeen i p t := by
  obtain ⟨rfl, hmip⟩ := hs
  cases h with
  | interrupt => exact s.handleInterrupt_seen i
  | boot flags =>
    refine ⟨rfl, ?_⟩
    simp only [Simulator.setCore, Function.update_self]
    exact hmip
  | look waits =>
    refine ⟨rfl, ?_⟩
    rw [setCore_cores_self]
    exact updateMipCsr_lineBits (s.cores i) _

/-- Where the core comes to its fetch, or ends its step before it. -/
theorem prepare_seen {b : Bool} (h : s.prepare i = .ok (b, s')) :
    LinesSeen i (s.pendingLines i) s' := by
  have hgates : ∀ {t u : Simulator N n}, LinesSeen i (s.pendingLines i) t →
      Relation.ReflTransGen (GateMove i) t u → LinesSeen i (s.pendingLines i) u := by
    intro t u ht hmoves
    induction hmoves with
    | refl => exact ht
    | tail _ hmove ih => exact ih.gate hmove
  rcases prepare_cases h with ⟨_, rfl⟩ | ⟨t, hboot, hwait⟩
  · exact s.handleInterrupt_seen i
  · have hmoves := leaveWait_moves t i
    rw [hwait] at hmoves
    exact hgates (s.handleInterrupt_seen i) ((boot_moves hboot).trans hmoves)

/-! ## The switch -/

theorem csrUpdate_mip (s : Simulator N n) (i : Fin N) (rd : Cores.Reg) (a : BitVec 12)
    (csrValue writeValue : Word) (hk : k ∈ writablePending) :
    (((exitState (s.csrUpdate i rd a csrValue writeValue)).cores i).csrRegisters 0x344).getLsbD k =
      if a = 0x344 then writeValue.getLsbD k else
        ((s.cores i).csrRegisters 0x344).getLsbD k := by
  have hexit : ((exitState (s.csrUpdate i rd a csrValue writeValue)).cores i).csrRegisters =
      ((if rd ≠ 0 then (s.cores i).setReg rd csrValue else s.cores i).writeCsr a
        writeValue).csrRegisters := by
    unfold csrUpdate
    show ((setCore _ i _).cores i).csrRegisters = _
    rw [setCore_cores_self, writeCsr_cores, setCore_cores_self]
    rfl
  rw [hexit]
  by_cases ha : a = 0x344
  · subst ha
    rw [if_pos rfl]
    exact writeCsr_mip _ _ hk
  · rw [if_neg ha, writeCsr_keeps _ _ ha (by decide)]
    split <;> rfl

/-- A writable bit after an instruction that found `mip` with the bit `old`. -/
def pendingAfter (regs : Cores.Reg → Word) (instr : Word) (k : Nat) (old : Bool) : Bool :=
  old && !(mipClears regs instr).getLsbD k || (mipSets regs instr).getLsbD k

theorem pendingAfter_alone (regs : Cores.Reg → Word) (h : ¬WritesMip instr) (old : Bool) :
    pendingAfter regs instr k old = old := by
  unfold pendingAfter
  rw [(mip_alone regs h).1, (mip_alone regs h).2]
  simp

theorem csrWritten_pending (regs : Cores.Reg → Word) (hw : WritesMip instr) (old : Word)
    (hk : k ∈ writablePending) :
    (csrWritten regs instr old).getLsbD k = pendingAfter regs instr k (old.getLsbD k) := by
  have hk32 : k < 32 := by
    simp only [writablePending, List.mem_cons, List.not_mem_nil, or_false] at hk
    omega
  have hcase : ∀ f : BitVec 3, f ≠ 0 → f ≠ 4 → f = 1 ∨ f = 2 ∨ f = 3 ∨ f = 5 ∨ f = 6 ∨ f = 7 := by
    bv_omega
  unfold pendingAfter mipClears mipSets csrWritten
  rw [if_pos hw, if_pos hw]
  rcases hcase _ hw.2.2.1 hw.2.2.2 with h | h | h | h | h | h <;> rw [h] <;> simp [hk32]

/-- From the state in which SYSTEM has read the CSR. -/
theorem SystemLeaves.mip {old : Word} {e : Exit (Simulator N n)}
    (h : SystemLeaves i instr old t e) (ho : opcode instr = 0x73) (hk : k ∈ writablePending)
    (hold : instr.extractLsb' 20 12 = 0x344 → old = (t.cores i).csrRegisters 0x344) :
    (((exitState e).cores i).csrRegisters 0x344).getLsbD k =
      pendingAfter (t.cores i).regs instr k (((t.cores i).csrRegisters 0x344).getLsbD k) := by
  cases h with
  | mret h3 =>
    rw [pendingAfter_alone _ fun hw => hw.2.2.1 h3]
    unfold Simulator.mret exitState
    simp only [setCore_cores_self]
    rw [writeCsr_trap _ (by decide) (by decide)]
  | ecall h3 =>
    rw [pendingAfter_alone _ fun hw => hw.2.2.1 h3]
    unfold exitState
    simp only [setCore_cores_self]
    rw [takeException_keeps _ (by decide)]
  | skip h3 =>
    rw [pendingAfter_alone _ fun hw => hw.2.2.1 h3]
    show (((setCore _ i _).cores i).csrRegisters 0x344).getLsbD k = _
    rw [setCore_cores_self, setCore_cores_self]
    split <;> rfl
  | update h0 h4 =>
    rw [csrUpdate_mip t i _ _ _ _ hk]
    by_cases ha : instr.extractLsb' 20 12 = 0x344
    · rw [if_pos ha, hold ha, csrWritten_pending _ ⟨ho, ha, h0, h4⟩ _ hk]
    · rw [if_neg ha, pendingAfter_alone _ fun h => ha h.2.1]
  | unknown h4 =>
    rw [pendingAfter_alone _ fun hw => hw.2.2.2 h4]
    show (((t.setCore i _).cores i).csrRegisters 0x344).getLsbD k = _
    rw [setCore_cores_self]
    rfl

theorem system_mip (s : Simulator N n) (i : Fin N) (ho : opcode instr = 0x73)
    (hk : k ∈ writablePending) :
    (((exitState (s.system i instr)).cores i).csrRegisters 0x344).getLsbD k =
      pendingAfter (s.cores i).regs instr k (((s.cores i).csrRegisters 0x344).getLsbD k) := by
  obtain ⟨time, hread⟩ := s.readCsr_state i (instr.extractLsb' 20 12)
  have hcore : (s.readCsr i (instr.extractLsb' 20 12)).2.cores i =
      (s.cores i).setCsr 0xC01 time := by
    rw [hread, setCore_cores_self]
  have hold : instr.extractLsb' 20 12 = 0x344 → (s.readCsr i (instr.extractLsb' 20 12)).1 =
      ((s.readCsr i (instr.extractLsb' 20 12)).2.cores i).csrRegisters 0x344 := by
    intro h
    rw [hcore, h]
    rfl
  rw [(s.system_leaves i instr).mip ho hk hold, hcore]
  rfl

theorem execute_mip {e : Exit (Simulator N n)} (h : s.execute i instr = .ok e)
    (hk : k ∈ writablePending) :
    (((exitState e).cores i).csrRegisters 0x344).getLsbD k =
      pendingAfter (s.cores i).regs instr k (((s.cores i).csrRegisters 0x344).getLsbD k) := by
  by_cases hsystem : opcode instr = 0x73
  · rw [execute_system hsystem] at h
    obtain rfl := Except.ok.inj h
    exact s.system_mip i hsystem hk
  · obtain ⟨t, c, ht, he, hc⟩ := execute_moved hsystem h
    rw [pendingAfter_alone _ fun hw => hsystem hw.1, he, setCore_cores_self, hc.csrs,
      ht.fixed.cores]

/-! ## The step -/

/-- The step of core `i` executes an instruction that clears bit `k`, or sets it. -/
def ClearsPending (s : Simulator N n) (i : Fin N) (k : Nat) : Prop :=
  ∃ s₁ instr, s.Fetches i s₁ instr ∧ (mipClears (s.cores i).regs instr).getLsbD k = true

def SetsPending (s : Simulator N n) (i : Fin N) (k : Nat) : Prop :=
  ∃ s₁ instr, s.Fetches i s₁ instr ∧ (mipSets (s.cores i).regs instr).getLsbD k = true

theorem Fetches.instr_eq {t₁ : Simulator N n} {instr' : Word} (h : s.Fetches i s₁ instr)
    (h' : s.Fetches i t₁ instr') : instr' = instr := by
  have hprep := h'.prepared.symm.trans h.prepared
  cases hprep
  exact h'.fetched.symm.trans h.fetched

theorem Fetches.clearsPending_iff (h : s.Fetches i s₁ instr) :
    s.ClearsPending i k ↔ (mipClears (s.cores i).regs instr).getLsbD k = true := by
  constructor
  · rintro ⟨t₁, instr', h', hclear⟩
    rwa [h.instr_eq h'] at hclear
  · exact fun hclear => ⟨s₁, instr, h, hclear⟩

theorem Fetches.setsPending_iff (h : s.Fetches i s₁ instr) :
    s.SetsPending i k ↔ (mipSets (s.cores i).regs instr).getLsbD k = true := by
  constructor
  · rintro ⟨t₁, instr', h', hset⟩
    rwa [h.instr_eq h'] at hset
  · exact fun hset => ⟨s₁, instr, h, hset⟩

/-- A step that does not clear a writable bit leaves it set exactly if it sets it, or if it
is the bit of the timer and the timer's line is up. What it was before does not matter. -/
theorem step_pending_iff (h : s.step i = .ok s') (hk : k ∈ writablePending)
    (hclears : ¬s.ClearsPending i k) :
    ((s'.cores i).csrRegisters 0x344).getLsbD k = true ↔
      k = 9 ∧ (s.pendingLines i).timer = true ∨ s.SetsPending i k := by
  have hline : ∀ {t : Simulator N n}, LinesSeen i (s.pendingLines i) t →
      ((t.cores i).csrRegisters 0x344).getLsbD k =
        ((s.pendingLines i).timer && decide (k = 9)) := by
    intro t ht
    rw [ht.mip, lineBits_writable _ hk]
  rcases step_cases h with hp | ⟨s₁, instr, e, hf, he, rfl⟩
  · have hsets : ¬s.SetsPending i k := by
      rintro ⟨s₁, instr, hf, _⟩
      have hprep := hf.prepared.symm.trans hp
      cases hprep
    rw [hline (prepare_seen hp), or_iff_left hsets]
    simp [and_comm]
  · have hnot : (mipClears (s.cores i).regs instr).getLsbD k = false :=
      Bool.eq_false_of_not_eq_true fun hclear => hclears (hf.clearsPending_iff.mpr hclear)
    obtain ⟨regs, v, hcore⟩ := retire_core (i := i) e
    have hseen := prepare_seen hf.prepared
    rw [hcore, execute_mip he hk, hf.regs, fetchPc_cores, hline hseen, hf.setsPending_iff]
    unfold pendingAfter
    rw [hnot]
    simp [and_comm]

/-! ## Runs -/

/-- Where every step of core `i` sets the bit, or finds the timer's line up at the bit of the
timer, a bit that was written stays set as long as no instruction clears it; and at any
time an update leaves all but the bits of the lines alone if no other bit is set, and
only then. -/
theorem pending_bit_kept {c : Core} {v : Word} (hk : k ∈ writablePending)
    (hwrite : (t.cores i).csrRegisters = (c.writeCsr 0x344 v).csrRegisters)
    (hv : v.getLsbD k = true)
    (hrun : Continues i (fun s => ¬s.ClearsPending i k ∧
      (k = 9 ∧ (s.pendingLines i).timer = true ∨ s.SetsPending i k)) t u) :
    ((u.cores i).csrRegisters 0x344).getLsbD k = true ∧
      ∀ p, HardwareOnly (u.cores i) p ↔ ∀ j, j < 32 → j ∉ hardwarePending →
        ((u.cores i).csrRegisters 0x344).getLsbD j = false := by
  refine ⟨?_, hardwareOnly_iff _⟩
  refine hrun.invariant (P := fun u => ((u.cores i).csrRegisters 0x344).getLsbD k = true) ?_ ?_ ?_
  · intro u w hu hleft
    obtain ⟨booted, hcore⟩ := hleft.core
    rw [hcore]
    exact hu
  · intro u w _ hstep hok
    exact (step_pending_iff hok hk hstep.1).mpr hstep.2
  · rw [hwrite, writeCsr_mip _ _ hk]
    exact hv

/-- A core that has written SSIP to `mip`, before an instruction; all registers are 2. -/
def pendingWritten (instr : Word) : Simulator 1 0x100000 :=
  let s := loaded 1 0x100000 [instr] fun _ _ => 2
  s.setCore core0 ((s.cores core0).writeCsr 0x344 0x2)

theorem pendingWritten_csrs (instr : Word) : ((pendingWritten instr).cores core0).csrRegisters =
    (((loaded 1 0x100000 [instr] fun _ _ => 2).cores core0).writeCsr 0x344 0x2).csrRegisters :=
  congrArg Core.csrRegisters (setCore_cores_self ..)

theorem pendingWritten_fetches (instr : Word) :
    ∃ s₁, (pendingWritten instr).Fetches core0 s₁ instr :=
  loaded_setCore_fetches 1 0x100000 (fun _ _ => 2) core0 instr rfl rfl rfl

/-- CSRRS with SSIP keeps it set. -/
theorem pending_bit_kept_csrrs : ∃ u, (pendingWritten 0x3440A073).step core0 = .ok u ∧
    ((u.cores core0).csrRegisters 0x344).getLsbD 1 = true ∧
      ∀ p, HardwareOnly (u.cores core0) p ↔ ∀ j, j < 32 → j ∉ hardwarePending →
        ((u.cores core0).csrRegisters 0x344).getLsbD j = false := by
  obtain ⟨s₁, hf⟩ := pendingWritten_fetches 0x3440A073
  have hstep := hf.step_eq
  rw [execute_system rfl] at hstep
  have hclears : ¬(pendingWritten 0x3440A073).ClearsPending core0 1 := by
    rw [hf.clearsPending_iff]
    decide
  have hsets : (pendingWritten 0x3440A073).SetsPending core0 1 := by
    rw [hf.setsPending_iff]
    decide
  exact ⟨_, hstep, pending_bit_kept (by decide) (pendingWritten_csrs _) (by decide)
    (.step .start ⟨hclears, .inr hsets⟩ hstep)⟩

/-- An addition loses it. -/
theorem pending_bit_lost : ¬ ∀ (t u : Simulator 1 0x100000) (i : Fin 1) (k : Nat) (c : Core)
    (v : Word), k ∈ writablePending →
      (t.cores i).csrRegisters = (c.writeCsr 0x344 v).csrRegisters → v.getLsbD k = true →
      Continues i (fun s => ¬s.ClearsPending i k) t u →
      ((u.cores i).csrRegisters 0x344).getLsbD k = true := by
  intro hall
  obtain ⟨s₁, hf⟩ := pendingWritten_fetches 0x00500093
  have hclears : ¬(pendingWritten 0x00500093).ClearsPending core0 1 := by
    rw [hf.clearsPending_iff]
    decide
  have hsets : ¬(pendingWritten 0x00500093).SetsPending core0 1 := by
    rw [hf.setsPending_iff]
    decide
  have hexec : (s₁.fetchPc core0).2.execute core0 0x00500093 = .ok
      ((s₁.fetchPc core0).2.setCoreDone core0
        (((s₁.fetchPc core0).2.cores core0).opImm 0x00500093)) := rfl
  have hstep := hf.step_eq
  rw [hexec] at hstep
  have hset := hall (pendingWritten 0x00500093) _ core0 1 _ 0x2 (by decide)
    (pendingWritten_csrs _) (by decide) (.step .start hclears hstep)
  rcases (step_pending_iff hstep (by decide) hclears).mp hset with ⟨h9, _⟩ | h
  · cases h9
  · exact hsets h

end Simulator
end RiscvEmulator.System
