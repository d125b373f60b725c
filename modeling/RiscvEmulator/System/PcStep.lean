import RiscvEmulator.Cores.MulDiv
import RiscvEmulator.System.CoreFrame

/-! # The next instruction

A step leaves `pc` four bytes on, unless the instruction goes elsewhere. Three kinds of
words fail to: an atomic that the switch does not know, for which `pc` is advanced twice;
a word that the second test for MRET takes for one, by a field that is not part of MRET;
and a remainder that the host does not compute. -/
namespace RiscvEmulator.System
open Memory Cores Interrupt

/-- Words that go elsewhere by themselves: jumps, taken branches, ECALL, EBREAK, MRET,
SRET and WFI. -/
def Redirects (regs : Cores.Reg → Word) (instr : Word) : Prop :=
  opcode instr = 0x6F ∨ opcode instr = 0x67 ∧ funct3Of instr = 0x0 ∨
    opcode instr = 0x63 ∧
      branchTaken (funct3Of instr) (regs (rs1Of instr)) (regs (rs2Of instr)) = true ∨
    instr ∈ [0x00000073#32, 0x00100073#32, 0x30200073#32, 0x10200073#32, 0x10500073#32]

instance (regs : Cores.Reg → Word) (instr : Word) : Decidable (Redirects regs instr) :=
  inferInstanceAs (Decidable (_ ∨ _))

/-- What the second test for MRET looks at. -/
def TakenForMret (instr : Word) : Prop :=
  opcode instr = 0x73 ∧ funct3Of instr = 0x0 ∧ (funct7Of instr).toNat = 0x18 ∧
    rs1Of instr = 2 ∧ rdOf instr = 0

instance (instr : Word) : Decidable (TakenForMret instr) := inferInstanceAs (Decidable (_ ∧ _))

/-- An atomic whose bits 31-27 the switch does not know, at an address of RAM. -/
def UnknownAtomic (n : Nat) (regs : Cores.Reg → Word) (instr : Word) : Prop :=
  opcode instr = 0x2F ∧ funct3Of instr = 0x2 ∧
    (funct7Of instr).extractLsb' 2 5 ∉ Simulator.knownAtomics ∧ (regs (rs1Of instr)).toNat < n

/-- REM, or the `funct7` of SRL with its lowest bit set, where the quotient overflows. -/
def RemOverflows (regs : Cores.Reg → Word) (instr : Word) : Prop :=
  opcode instr = 0x33 ∧
    (funct3Of instr = 0x6 ∧ funct7Of instr = 0x01 ∨ funct3Of instr = 0x5 ∧ funct7Of instr = 0x21) ∧
    regs (rs1Of instr) = 0x80000000 ∧ regs (rs2Of instr) = 0xFFFFFFFF

/-- When a core goes on with the next instruction, for words that do not redirect it. -/
structure Advances (n : Nat) (c : Core) (instr : Word) : Prop where
  atomic : ¬UnknownAtomic n c.regs instr
  mret : TakenForMret instr → c.csrRegisters 0x341 = c.pc + 4
  remainder : ¬RemOverflows c.regs instr

/-- Of all opcodes but three every word goes on. -/
theorem Advances.of_opcode {n : Nat} {c : Core} {instr : Word} (hamo : opcode instr ≠ 0x2F)
    (hop : opcode instr ≠ 0x33) (hsystem : opcode instr ≠ 0x73) : Advances n c instr :=
  ⟨fun h => hamo h.1, fun h => absurd h.1 hsystem, fun h => hop h.1⟩

/-- The fields of ECALL are the whole word. -/
theorem ecall_fields {instr : Word} (ho : opcode instr = 0x73) (h3 : funct3Of instr = 0x0)
    (hrd : rdOf instr = 0) (hrs1 : rs1Of instr = 0) (hcsr : instr.extractLsb' 20 12 = 0) :
    instr = 0x00000073 := by
  have hfield : ∀ {start len k : Nat}, (instr.extractLsb' start len).toNat = k →
      instr.toNat / 2 ^ start % 2 ^ len = k := by
    intro start len k h
    rwa [BitVec.extractLsb'_toNat, Nat.shiftRight_eq_div_pow] at h
  have ho' : instr.toNat / 2 ^ 0 % 2 ^ 7 = 0x73 := hfield (congrArg BitVec.toNat ho)
  have h3' : instr.toNat / 2 ^ 12 % 2 ^ 3 = 0 := hfield (congrArg BitVec.toNat h3)
  have hrd' : instr.toNat / 2 ^ 7 % 2 ^ 5 = 0 := hfield (congrArg BitVec.toNat hrd)
  have hrs1' : instr.toNat / 2 ^ 15 % 2 ^ 5 = 0 := hfield (congrArg BitVec.toNat hrs1)
  have hcsr' : instr.toNat / 2 ^ 20 % 2 ^ 12 = 0 := hfield (congrArg BitVec.toNat hcsr)
  have hlt := instr.isLt
  apply BitVec.eq_of_toNat_eq
  show instr.toNat = 0x73
  omega

/-- The switch of OP stops at an overflowing remainder and nowhere else. -/
theorem aluOp_ok_iff (funct3 : BitVec 3) (funct7 : BitVec 7) (rs2 : Cores.Reg) (a b : Word) :
    (∃ v, aluOp funct3 funct7 rs2 a b = .ok v) ↔
      ¬((funct3 = 0x6 ∧ funct7 = 0x01 ∨ funct3 = 0x5 ∧ funct7 = 0x21) ∧
        a = 0x80000000 ∧ b = 0xFFFFFFFF) := by
  have hrem : (∃ v, (rem a b).map some = .ok v) ↔ ¬(a = 0x80000000 ∧ b = 0xFFFFFFFF) := by
    rw [rem_eq]
    split
    · next h => exact iff_of_false (by rintro ⟨_, h⟩; cases h) (not_not_intro h)
    · next h => exact iff_of_true ⟨_, rfl⟩ h
  have hok : ∀ (v : Option Word) {p q : Prop}, ¬p →
      ((∃ v', (Except.ok v : Except Abort (Option Word)) = .ok v') ↔ ¬(p ∧ q)) :=
    fun v _ _ hp => iff_of_true ⟨v, rfl⟩ fun h => hp h.1
  unfold aluOp
  simp only
  split
  case h_6 =>
    split
    · exact hok _ (by simp_all)
    · split
      · next h7 => exact hrem.trans (not_congr (and_iff_right (.inr ⟨rfl, h7⟩)).symm)
      · split
        · exact hok _ (by simp_all)
        · split
          · exact hok _ (by simp_all)
          · split <;> exact hok _ (by simp_all)
  case h_7 =>
    split
    · next h7 => exact hrem.trans (not_congr (and_iff_right (.inl ⟨rfl, h7⟩)).symm)
    · split <;> exact hok _ (by simp_all)
  all_goals exact hok _ (by simp_all)

namespace Simulator
variable {N n : Nat} {s s₁ t : Simulator N n} {i : Fin N} {instr : Word} {direct skips : Prop}

/-! ## Exits -/

/-- Where core `i` goes on. -/
def exitPc (i : Fin N) (e : Exit (Simulator N n)) : Word := ((exitState e).cores i).pc

/-- The exit is an exception, or the core goes on with the next instruction of `s`. -/
def GoesOn (i : Fin N) (s : Simulator N n) (e : Exit (Simulator N n)) : Prop :=
  (∃ t, e = .fault t) ∨ exitPc i e = (s.cores i).pc + 4

theorem exitPc_next (s : Simulator N n) (i : Fin N) : exitPc i (s.next i) = (s.cores i).pc + 4 := by
  show ((s.setCore i _).cores i).pc = _
  rw [setCore_cores_self]
  rfl

theorem exitPc_finish (s : Simulator N n) (i : Fin N) (rd : Cores.Reg) (v : Word) :
    exitPc i (s.finish i rd v) = (s.cores i).pc + 4 := by
  show ((s.setCore i _).cores i).pc = _
  rw [setCore_cores_self]
  rfl

theorem exitPc_setCoreDone (s : Simulator N n) (i : Fin N) (c : Core) :
    exitPc i (s.setCoreDone i c) = c.pc := congrArg Core.pc (setCore_cores_self ..)

theorem Leaves.goesOn {e : Exit (Simulator N n)} (h : Leaves i direct skips s e)
    (hskips : ¬skips) : GoesOn i s e := by
  cases h with
  | finish h rd v => exact .inr (by rw [exitPc_finish, h.fixed.cores])
  | next h => exact .inr (by rw [exitPc_next, h.fixed.cores])
  | fault h ex => exact .inl ⟨_, rfl⟩
  | skip h hs => exact absurd hs hskips

/-! ## Atomics -/

theorem Untranslated.amoSkips_iff (h : s.Untranslated i) : s.AmoSkips i instr ↔
    funct3Of instr = 0x2 ∧ (funct7Of instr).extractLsb' 2 5 ∉ knownAtomics ∧
      ((s.cores i).regs (rs1Of instr)).toNat < n := by
  unfold AmoSkips
  rw [h.translate_eq]
  refine and_congr_right' (and_congr_right' ⟨?_, ?_⟩)
  · rintro ⟨physAddr, t, heq, hram⟩
    cases heq
    exact hram
  · intro hram
    exact ⟨_, _, rfl, hram⟩

theorem amoRam_skip (s : Simulator N n) (i : Fin N) (rd : Cores.Reg) {funct5 : BitVec 5}
    (h : funct5 ∉ knownAtomics) (addr v : Word) :
    ∃ u, s.amoRam i rd funct5 addr v = .done u ∧ (u.cores i).pc = (s.cores i).pc + 4 + 4 := by
  unfold amoRam
  split
  case h_12 =>
    refine ⟨_, rfl, (exitPc_next _ i).trans ?_⟩
    rw [setCore_cores_self]
    rfl
  all_goals exact absurd h (by decide)

theorem AmoSkips.done (h : s.AmoSkips i instr) :
    ∃ u, s.amo i instr = .done u ∧ (u.cores i).pc = (s.cores i).pc + 4 + 4 := by
  obtain ⟨h3, hop, physAddr, t, htrans, hram⟩ := h
  have hcores : t.cores = s.cores := by
    have hmoves : Accesses i False s
        (s.translate i ((s.cores i).regs (rs1Of instr)) false false).2 := s.translate_moves ..
    rw [htrans] at hmoves
    exact hmoves.fixed.cores
  unfold amo
  simp only [if_pos h3, htrans, if_pos hram]
  rw [← hcores]
  exact t.amoRam_skip i _ hop _ _

/-! ## SYSTEM -/

theorem exitPc_mret (s : Simulator N n) (i : Fin N) :
    exitPc i (s.mret i) = (s.cores i).csrRegisters 0x341 :=
  congrArg Core.pc (setCore_cores_self ..)

theorem exitPc_csrUpdate (s : Simulator N n) (i : Fin N) (rd : Cores.Reg) (a : BitVec 12)
    (csrValue writeValue : Word) :
    exitPc i (s.csrUpdate i rd a csrValue writeValue) = (s.cores i).pc + 4 := by
  unfold csrUpdate
  rw [exitPc_next, writeCsr_cores, (writeCsr_core ..).2.1, setCore_cores_self]
  split <;> rfl

theorem SystemLeaves.exitPc {old : Word} {e : Exit (Simulator N n)}
    (h : SystemLeaves i instr old s e) (ho : opcode instr = 0x73) (hecall : instr ≠ 0x00000073)
    (hmret : instr ≠ 0x30200073) : Simulator.exitPc i e =
      if TakenForMret instr then (s.cores i).csrRegisters 0x341 else (s.cores i).pc + 4 := by
  cases h with
  | mret h3 hruns => rw [if_pos ⟨ho, h3, hruns.resolve_left hmret⟩, exitPc_mret]
  | ecall h3 hzero => exact absurd (ecall_fields ho h3 hzero.1 hzero.2.1 hzero.2.2.2) hecall
  | skip h3 hruns =>
    rw [if_neg fun h : TakenForMret instr => hruns (.inr h.2.2), exitPc_next, setCore_cores_self]
    split <;> rfl
  | update h0 => rw [if_neg fun h : TakenForMret instr => h0 h.2.1, exitPc_csrUpdate]
  | unknown h4 =>
    have h0 : funct3Of instr ≠ 0x0 := by
      rw [h4]
      decide
    rw [if_neg fun h : TakenForMret instr => h0 h.2.1, exitPc_next]

theorem exitPc_system (s : Simulator N n) (i : Fin N) (ho : opcode instr = 0x73)
    (hecall : instr ≠ 0x00000073) (hmret : instr ≠ 0x30200073) :
    exitPc i (s.system i instr) =
      if TakenForMret instr then (s.cores i).csrRegisters 0x341 else (s.cores i).pc + 4 := by
  obtain ⟨time, hread⟩ := s.readCsr_state i (instr.extractLsb' 20 12)
  rw [(s.system_leaves i instr).exitPc ho hecall hmret, hread, setCore_cores_self]
  rfl

/-! ## The switch -/

/-- Of all other opcodes every word goes on. -/
theorem execute_goesOn (s : Simulator N n) (i : Fin N)
    (hplain : ¬Redirects (s.cores i).regs instr) (hamo : opcode instr ≠ 0x2F)
    (hop : opcode instr ≠ 0x33) (hsystem : opcode instr ≠ 0x73) :
    ∃ e, s.execute i instr = .ok e ∧ GoesOn i s e := by
  have hcore : ∀ {c : Core}, c.pc = (s.cores i).pc + 4 → GoesOn i s (s.setCoreDone i c) :=
    fun h => .inr ((exitPc_setCoreDone ..).trans h)
  unfold execute
  simp only
  split
  case h_2 h => exact absurd h hop
  case h_7 h => exact absurd h hamo
  case h_11 h => exact absurd h hsystem
  case h_9 h => exact absurd (.inl h) hplain
  case h_1 =>
    refine ⟨_, rfl, hcore ?_⟩
    unfold Core.opImm Core.writeback
    split <;> rfl
  case h_3 => exact ⟨_, rfl, hcore rfl⟩
  case h_4 => exact ⟨_, rfl, hcore rfl⟩
  case h_5 =>
    have hload : Leaves i False False s (s.load i instr) := s.load_leaves i instr
    exact ⟨_, rfl, hload.goesOn not_false⟩
  case h_6 => exact ⟨_, rfl, (s.store_leaves i instr).goesOn not_false⟩
  case h_8 h =>
    refine ⟨_, rfl, hcore ?_⟩
    unfold Core.branch
    rw [if_neg fun htaken => hplain (.inr (.inr (.inl ⟨h, htaken⟩)))]
    rfl
  case h_10 h =>
    refine ⟨_, rfl, hcore ?_⟩
    unfold Core.jalr
    rw [if_neg fun h3 => hplain (.inr (.inl ⟨h, h3⟩))]
    rfl
  case h_12 => exact ⟨_, rfl, .inr (exitPc_next s i)⟩

/-- The switch is left towards the next instruction. -/
def ExecutesOn (s : Simulator N n) (i : Fin N) (instr : Word) : Prop :=
  ∃ e, s.execute i instr = .ok e ∧ exitPc i e = (s.cores i).pc + 4

theorem GoesOn.executesOn {e : Exit (Simulator N n)} (h : GoesOn i s e)
    (he : s.execute i instr = .ok e) (hfault : ∀ t, s.execute i instr ≠ .ok (.fault t)) :
    s.ExecutesOn i instr := by
  rcases h with ⟨t, rfl⟩ | hpc
  · exact absurd he (hfault t)
  · exact ⟨e, he, hpc⟩

theorem execute_amo_iff (ho : opcode instr = 0x2F) (hu : s.Untranslated i)
    (hfault : ∀ t, s.execute i instr ≠ .ok (.fault t)) :
    s.ExecutesOn i instr ↔ ¬UnknownAtomic n (s.cores i).regs instr := by
  have hexec := execute_amoOp (s := s) (i := i) ho
  have hskips : UnknownAtomic n (s.cores i).regs instr ↔ s.AmoSkips i instr := by
    rw [hu.amoSkips_iff]
    exact and_iff_right ho
  rw [hskips]
  constructor
  · rintro ⟨e, he, hpc⟩ hskip
    obtain ⟨u, hu, hskipped⟩ := hskip.done
    rw [hexec, hu] at he
    cases he
    have hpc' : (s.cores i).pc + 4 + 4 = (s.cores i).pc + 4 := hskipped.symm.trans hpc
    simp at hpc'
  · intro hskip
    have hleaves : Leaves i False (s.AmoSkips i instr) s (s.amo i instr) := s.amo_leaves i instr
    exact (hleaves.goesOn hskip).executesOn hexec hfault

theorem execute_op_iff (ho : opcode instr = 0x33) :
    s.ExecutesOn i instr ↔ ¬RemOverflows (s.cores i).regs instr := by
  have ho' : opcode instr = 0x33#7 := ho
  have hexec : s.execute i instr = ((s.cores i).op instr).map (s.setCoreDone i) := by
    unfold execute
    simp only [ho']
  have hpc : ∀ (rd : Cores.Reg) (v : Option Word),
      ((s.cores i).writeback rd v).pc = (s.cores i).pc + 4 := by
    intro rd v
    cases v <;> rfl
  have hok := aluOp_ok_iff (funct3Of instr) (funct7Of instr) (rs2Of instr)
    ((s.cores i).regs (rs1Of instr)) ((s.cores i).regs (rs2Of instr))
  unfold RemOverflows ExecutesOn
  rw [and_iff_right ho, ← hok, hexec]
  unfold Core.op
  cases aluOp (funct3Of instr) (funct7Of instr) (rs2Of instr)
    ((s.cores i).regs (rs1Of instr)) ((s.cores i).regs (rs2Of instr)) with
  | error a => exact iff_of_false (fun ⟨_, he, _⟩ => nomatch he) (fun ⟨_, hv⟩ => nomatch hv)
  | ok v => exact iff_of_true ⟨_, rfl, (exitPc_setCoreDone ..).trans (hpc _ v)⟩ ⟨v, rfl⟩

theorem execute_system_iff (ho : opcode instr = 0x73)
    (hplain : ¬Redirects (s.cores i).regs instr) : s.ExecutesOn i instr ↔
      (TakenForMret instr → (s.cores i).csrRegisters 0x341 = (s.cores i).pc + 4) := by
  have hecall : instr ≠ 0x00000073 := by
    rintro rfl
    exact hplain (.inr (.inr (.inr (.head _))))
  have hmret : instr ≠ 0x30200073 := by
    rintro rfl
    exact hplain (.inr (.inr (.inr (.tail _ (.tail _ (.head _))))))
  have hpc := s.exitPc_system i ho hecall hmret
  unfold ExecutesOn
  rw [execute_system ho]
  constructor
  · rintro ⟨e, he, hnext⟩ htaken
    cases he
    rwa [hpc, if_pos htaken] at hnext
  · intro hmepc
    refine ⟨_, rfl, ?_⟩
    rw [hpc]
    split
    · next htaken => exact hmepc htaken
    · rfl

theorem execute_pc_iff (hu : s.Untranslated i) (hplain : ¬Redirects (s.cores i).regs instr)
    (hfault : ∀ t, s.execute i instr ≠ .ok (.fault t)) :
    s.ExecutesOn i instr ↔ Advances n (s.cores i) instr := by
  have hother : ∀ {o : BitVec 7}, opcode instr = o → ∀ o', o ≠ o' → opcode instr ≠ o' := by
    rintro o rfl o' hne
    exact hne
  by_cases hamo : opcode instr = 0x2F
  · rw [execute_amo_iff hamo hu hfault]
    exact ⟨fun h => ⟨h, fun h => absurd h.1 (hother hamo 0x73 (by decide)),
      fun h => hother hamo 0x33 (by decide) h.1⟩, fun h => h.atomic⟩
  by_cases hop : opcode instr = 0x33
  · rw [execute_op_iff hop]
    exact ⟨fun h => ⟨fun h => hamo h.1, fun h => absurd h.1 (hother hop 0x73 (by decide)), h⟩,
      fun h => h.remainder⟩
  by_cases hsystem : opcode instr = 0x73
  · rw [execute_system_iff hsystem hplain]
    exact ⟨fun h => ⟨fun h => hamo h.1, h, fun h => hop h.1⟩, fun h => h.mret⟩
  obtain ⟨e, he, hgo⟩ := s.execute_goesOn i hplain hamo hop hsystem
  exact iff_of_true (hgo.executesOn he hfault) (.of_opcode hamo hop hsystem)

/-! ## The step -/

/-- The core that comes to its fetch without an interrupt, as the instruction finds it. -/
theorem Fetches.core_eq (hr : s.Running i) (hn : s.NoInterrupt i) (h : s.Fetches i s₁ instr) :
    (s₁.fetchPc i).2.cores i = (s.cores i).updateMipCsr (s.pendingLines i) := by
  have hprep := hr.prepare_eq
  rw [h.prepared, handleInterrupt_eq_of_noInterrupt hn] at hprep
  obtain rfl : s₁ = _ := congrArg Prod.snd (Except.ok.inj hprep)
  have hcores : (fetchPc (s.setCore i ((s.cores i).updateMipCsr (s.pendingLines i))) i).2.cores =
      (s.setCore i ((s.cores i).updateMipCsr (s.pendingLines i))).cores :=
    (fetch_fixed _ i _).cores
  rw [hcores, setCore_cores_self]

theorem retire_pc (i : Fin N) (e : Exit (Simulator N n)) :
    ((retire i e).cores i).pc = exitPc i e := by
  obtain ⟨regs, v, hcore⟩ := retire_core (i := i) e
  rw [hcore]
  rfl

/-- The step goes on with the next instruction where the switch does. -/
theorem Fetches.step_pc_iff (hr : s.Running i) (hn : s.NoInterrupt i) (h : s.Fetches i s₁ instr) :
    (∃ s', s.step i = .ok s' ∧ (s'.cores i).pc = (s.cores i).pc + 4) ↔
      (s₁.fetchPc i).2.ExecutesOn i instr := by
  have hpc : ((s₁.fetchPc i).2.cores i).pc = (s.cores i).pc := by
    rw [h.core_eq hr hn]
    rfl
  unfold ExecutesOn
  rw [hpc, h.step_eq]
  cases (s₁.fetchPc i).2.execute i instr with
  | error a => exact iff_of_false (fun ⟨_, he, _⟩ => nomatch he) (fun ⟨_, he, _⟩ => nomatch he)
  | ok e =>
    constructor
    · rintro ⟨s', hs', hnext⟩
      cases hs'
      exact ⟨e, rfl, (retire_pc i e).symm.trans hnext⟩
    · rintro ⟨e', he', hnext⟩
      cases he'
      exact ⟨_, rfl, (retire_pc i e).trans hnext⟩

/-- A core that runs without translation and takes no interrupt goes on with the next
instruction, whatever word it fetches that does not redirect it and raises no fault,
unless the word is one of three kinds. -/
theorem pc_step_iff (hr : s.Running i) (hu : s.Untranslated i) (hn : s.NoInterrupt i)
    (h : s.Fetches i s₁ instr) (hplain : ¬Redirects (s.cores i).regs instr)
    (hfault : ∀ t, (s₁.fetchPc i).2.execute i instr ≠ .ok (.fault t)) :
    (∃ s', s.step i = .ok s' ∧ (s'.cores i).pc = (s.cores i).pc + 4) ↔
      Advances n (s.cores i) instr := by
  have hcore := h.core_eq hr hn
  have hadv : Advances n ((s.cores i).updateMipCsr (s.pendingLines i)) instr ↔
      Advances n (s.cores i) instr := ⟨fun h => ⟨h.1, h.2, h.3⟩, fun h => ⟨h.1, h.2, h.3⟩⟩
  have hiff := execute_pc_iff (h.untranslated hu) (by rwa [hcore]) hfault
  rw [hcore, hadv] at hiff
  exact (h.step_pc_iff hr hn).trans hiff

/-- A one-instruction program and the state it is fetched in. -/
theorem pc_step_addi : ∃ s₁, (loaded 1 0x100000 [0x00500093] fun _ _ => 0).Fetches core0 s₁
    0x00500093 ∧
      ((∃ s', (loaded 1 0x100000 [0x00500093] fun _ _ => 0).step core0 = .ok s' ∧
        (s'.cores core0).pc =
          ((loaded 1 0x100000 [0x00500093] fun _ _ => 0).cores core0).pc + 4) ↔
      Advances 0x100000 ((loaded 1 0x100000 [0x00500093] fun _ _ => 0).cores core0)
        0x00500093) := by
  obtain ⟨s₁, hf⟩ := loaded_fetches 1 0x100000 (fun _ _ => 0) core0 0x00500093
  refine ⟨s₁, hf, pc_step_iff (loaded_running ..) (loaded_untranslated ..)
    (loaded_noInterrupt ..) hf (by decide) ?_⟩
  intro t h
  have hexec : (s₁.fetchPc core0).2.execute core0 0x00500093 = .ok
      ((s₁.fetchPc core0).2.setCoreDone core0
        (((s₁.fetchPc core0).2.cores core0).opImm 0x00500093)) := rfl
  rw [hexec] at h
  cases h

/-- An atomic that does not exist takes the core eight bytes on. -/
theorem unknown_atomic_skips : ¬ ∀ (s s₁ : Simulator 1 0x100000) (i : Fin 1) (instr : Word),
    s.Running i → s.Untranslated i → s.NoInterrupt i → s.Fetches i s₁ instr →
      ¬Redirects (s.cores i).regs instr →
      (∀ t, (s₁.fetchPc i).2.execute i instr ≠ .ok (.fault t)) →
      ∃ s', s.step i = .ok s' ∧ (s'.cores i).pc = (s.cores i).pc + 4 := by
  intro hall
  have hr := loaded_running 1 0x100000 [0x2800202F] (fun _ _ => 0) core0
  have hn := loaded_noInterrupt 1 0x100000 [0x2800202F] (fun _ _ => 0) core0
  have hu := loaded_untranslated 1 0x100000 [0x2800202F] (fun _ _ => 0) core0
  obtain ⟨s₁, hf⟩ := loaded_fetches 1 0x100000 (fun _ _ => 0) core0 0x2800202F
  have hunknown : UnknownAtomic 0x100000 (((s₁.fetchPc core0).2.cores core0).regs) 0x2800202F := by
    rw [hf.core_eq hr hn]
    exact ⟨rfl, rfl, by decide, by decide⟩
  have hskips : (s₁.fetchPc core0).2.AmoSkips core0 0x2800202F :=
    (hf.untranslated hu).amoSkips_iff.mpr hunknown.2
  have hfault : ∀ t, (s₁.fetchPc core0).2.execute core0 0x2800202F ≠ .ok (.fault t) := by
    intro t ht
    obtain ⟨u, hdone, _⟩ := hskips.done
    rw [execute_amoOp rfl, hdone] at ht
    cases ht
  have hnext := hall _ _ core0 _ hr hu hn hf (by decide) hfault
  rw [hf.step_pc_iff hr hn] at hnext
  exact (execute_amo_iff rfl (hf.untranslated hu) hfault).mp hnext hunknown

end Simulator
end RiscvEmulator.System
