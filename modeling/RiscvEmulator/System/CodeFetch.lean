import RiscvEmulator.System.LoadStoreStep
import RiscvEmulator.System.SatpFrame
import RiscvEmulator.System.WordPlaces

/-! # Fetching stored code

Fetches go through the instruction cache to the L2, stores stay in the data cache,
and FENCE.I does nothing about it. A stored word is fetched as it was stored only
if the caches happen to have moved it. -/
namespace RiscvEmulator.System
open Memory Cores Isa Lib.LineCache

namespace Simulator
variable {N n : Nat} {s s₁ s' t u : Simulator N n} {i : Fin N} {x : WordAddr} {instr : Word}

/-! ## Accesses keep the caches in order -/

theorem Untranslated.dataRead_good (hu : t.Untranslated i) (hg : t.hierarchy.Good) (addr : Word) :
    (t.dataRead i addr).2.hierarchy.Good := by
  rw [hu.dataRead_eq, Hierarchy.load_wordOf]
  exact (Hierarchy.load_spec hg i (wordOf addr)).2.1

theorem Untranslated.dataWrite_good (hu : t.Untranslated i) (hg : t.hierarchy.Good) {addr : Word}
    (v : Word) (ha : Aligned addr) (hx : addr.toNat < 0x40000000) :
    (t.dataWrite i addr v).hierarchy.Good := by
  rw [hu.dataWrite_eq, ← byteAddr_wordOf ha]
  exact (store_wordAt hg i (wordOf addr) v (fun _ => rfl) (by rw [wordOf_toNat]; omega)).1

theorem Untranslated.dataReadWord_good (hu : t.Untranslated i) (hg : t.hierarchy.Good) {addr : Word}
    (ha : Aligned addr) : (t.dataReadWord i addr).2.hierarchy.Good := by
  rw [hu.dataReadWord_eq, ← byteAddr_wordOf ha]
  exact (readWord_wordAt hg i (wordOf addr)).2.1

theorem Untranslated.dataWriteWord_good (hu : t.Untranslated i) (hg : t.hierarchy.Good)
    {addr : Word} (v : Word) (ha : Aligned addr) (hx : addr.toNat < 0x40000000) :
    (t.dataWriteWord i addr v).hierarchy.Good := by
  rw [hu.dataWriteWord_eq, ← byteAddr_wordOf ha]
  exact (writeWord_wordAt hg i (wordOf addr) v (by rw [wordOf_toNat]; omega)).1

theorem Untranslated.dataAtomic_good (hu : t.Untranslated i) (hg : t.hierarchy.Good) {addr : Word}
    (op : Atomic) (ha : Aligned addr) (hx : addr.toNat < 0x40000000) :
    (t.dataAtomic i addr op).2.hierarchy.Good := by
  rw [hu.dataAtomic_eq, ← byteAddr_wordOf ha]
  exact (Hierarchy.atomic_spec hg i (wordOf addr) op (by rw [wordOf_toNat]; omega)).2.1

/-- Direct stores leave the caches alone. -/
theorem writeWord_hierarchy (t : Simulator N n) (addr v : Word) :
    (t.writeWord addr v).hierarchy = t.hierarchy := by
  unfold writeWord
  split
  · rfl
  · split <;> rfl

theorem writeHalfword_hierarchy (t : Simulator N n) (addr : Word) (v : BitVec 16) :
    (t.writeHalfword addr v).hierarchy = t.hierarchy := by
  unfold writeHalfword
  split <;> rfl

theorem writeByte_hierarchy (t : Simulator N n) (addr : Word) (v : Byte) :
    (t.writeByte addr v).hierarchy = t.hierarchy := by
  unfold writeByte
  split <;> rfl

theorem csrUpdate_hierarchy (t : Simulator N n) (i : Fin N) (rd : Cores.Reg) (a : BitVec 12)
    (csrValue writeValue : Word) :
    (exitState (t.csrUpdate i rd a csrValue writeValue)).hierarchy = t.hierarchy := by
  unfold csrUpdate writeCsr
  simp only
  split
  · rfl
  · split <;> rfl

theorem SystemLeaves.hierarchy {instr old : Word} {e : Exit (Simulator N n)}
    (h : SystemLeaves i instr old t e) : (exitState e).hierarchy = t.hierarchy := by
  cases h with
  | update => exact csrUpdate_hierarchy ..
  | _ => rfl

theorem system_hierarchy (t : Simulator N n) (i : Fin N) (instr : Word) :
    (exitState (t.system i instr)).hierarchy = t.hierarchy :=
  (t.system_leaves i instr).hierarchy

/-- What an instruction may do to the caches: SW to cacheable RAM and the atomics are
aligned, and the atomics stay in the first gigabyte. -/
structure AlignedAccess (t : Simulator N n) (i : Fin N) (instr : Word) : Prop where
  store : opcode instr = 0x23 → funct3Of instr = 0x2 →
    Aligned ((t.cores i).regs (rs1Of instr) + immS instr)
  atomic : opcode instr = 0x2F → Aligned ((t.cores i).regs (rs1Of instr)) ∧
    ((t.cores i).regs (rs1Of instr)).toNat < 0x40000000

section
variable (hu : t.Untranslated i) (hg : t.hierarchy.Good)
include hu hg

theorem Untranslated.modifyWord_good {addr : Word} (f : Word → Word)
    (hx : addr.toNat < 0x40000000) : (t.modifyWord i addr f).hierarchy.Good := by
  unfold modifyWord
  rw [aligned_eq]
  have hu' : (t.dataRead i (byteAddr (wordOf addr))).2.Untranslated i := by
    rw [hu.dataRead_eq]
    exact hu
  exact hu'.dataWrite_good (hu.dataRead_good hg _) _ (aligned_byteAddr _)
    (by rw [byteAddr_toNat, wordOf_toNat]; omega)

theorem Untranslated.loadRam_good (rd : Cores.Reg) (addr cachedAddr : Word)
    (extract : Word → Word) (direct : Simulator N n → Word → Word) :
    (exitState (t.loadRam i rd addr cachedAddr extract direct)).hierarchy.Good := by
  unfold loadRam
  split
  · exact hu.dataRead_good hg cachedAddr
  · rw [hu.translate_eq]
    exact hg

theorem Untranslated.load_good (instr : Word) : (exitState (t.load i instr)).hierarchy.Good := by
  unfold load
  simp only
  split
  · split
    case h_6 => exact hg
    all_goals exact hu.loadRam_good hg ..
  · unfold loadMmio
    split
    · exact hg
    · split
      · exact hg
      · split <;> exact hg

theorem Untranslated.storeRam_good {addr : Word} {cached : Simulator N n → Simulator N n}
    {direct : Simulator N n → Word → Simulator N n}
    (hcached : hasDataCache addr = true → (cached t).hierarchy.Good)
    (hdirect : ∀ t' pa, (direct t' pa).hierarchy = t'.hierarchy) :
    (exitState (t.storeRam i addr cached direct)).hierarchy.Good := by
  unfold storeRam
  split
  · next hc => exact hcached hc
  · rw [hu.translate_eq]
    exact (hdirect t addr).symm ▸ hg

theorem Untranslated.store_good {instr : Word} (ha : t.AlignedAccess i instr)
    (ho : opcode instr = 0x23) : (exitState (t.store i instr)).hierarchy.Good := by
  have haddr := ha.store ho
  unfold store
  simp only
  generalize (t.cores i).regs (rs1Of instr) + immS instr = addr at haddr ⊢
  generalize (t.cores i).regs (rs2Of instr) = v
  have hx : hasDataCache addr = true → addr.toNat < 0x40000000 := by
    intro hc
    have := hasDataCache_lt hc
    omega
  split
  · split
    · next h3 =>
      exact hu.storeRam_good hg (fun hc => hu.dataWrite_good hg v (haddr h3) (hx hc))
        fun t' pa => writeWord_hierarchy ..
    · exact hu.storeRam_good hg (fun hc => hu.modifyWord_good hg _ (hx hc))
        fun t' pa => writeByte_hierarchy ..
    · exact hu.storeRam_good hg (fun hc => hu.modifyWord_good hg _ (hx hc))
        fun t' pa => writeHalfword_hierarchy ..
    · exact hg
  · unfold storeMmio
    split
    · exact hg
    · split
      · exact (t.writeWord_hierarchy addr v).symm ▸ hg
      · exact hg

theorem Untranslated.amoRam_good {addr : Word} (ha : Aligned addr) (hx : addr.toNat < 0x40000000)
    (rd : Cores.Reg) (funct5 : BitVec 5) (v : Word) :
    (exitState (t.amoRam i rd funct5 addr v)).hierarchy.Good := by
  have hcache : ∀ op, (exitState (t.amoCache i rd addr op)).hierarchy.Good := by
    intro op
    exact hu.dataAtomic_good hg op ha hx
  have hread := hu.dataReadWord_good hg ha
  have hselect : ∀ keeps, (exitState (t.amoSelect i rd addr v keeps)).hierarchy.Good := by
    intro keeps
    have hu' : (t.dataReadWord i addr).2.Untranslated i := by
      rw [hu.dataReadWord_eq]
      exact hu
    exact hu'.dataWriteWord_good hread _ ha hx
  unfold amoRam
  split
  case h_1 | h_2 | h_3 | h_4 | h_5 => exact hcache _
  case h_6 | h_7 | h_8 | h_9 => exact hselect _
  case h_10 => exact hread
  case h_11 => exact hu.dataWriteWord_good hg v ha hx
  case h_12 => exact hg

theorem Untranslated.amo_good {instr : Word} (ha : t.AlignedAccess i instr)
    (ho : opcode instr = 0x2F) : (exitState (t.amo i instr)).hierarchy.Good := by
  obtain ⟨haddr, hx⟩ := ha.atomic ho
  unfold amo
  simp only [hu.translate_eq]
  split
  · split
    · exact hu.amoRam_good hg haddr hx ..
    · exact hg
  · exact hg

/-- Every instruction. -/
theorem Untranslated.execute_good {instr : Word} {e : Exit (Simulator N n)}
    (ha : t.AlignedAccess i instr) (h : t.execute i instr = .ok e) :
    (exitState e).hierarchy.Good := by
  by_cases hstore : opcode instr = 0x23
  · rw [execute_storeOp hstore] at h
    obtain rfl := Except.ok.inj h
    exact hu.store_good hg ha hstore
  · by_cases hsystem : opcode instr = 0x73
    · rw [execute_system hsystem] at h
      obtain rfl := Except.ok.inj h
      rw [system_hierarchy]
      exact hg
    · by_cases hload : opcode instr = 0x03
      · rw [execute_loadOp hload] at h
        obtain rfl := Except.ok.inj h
        exact hu.load_good hg instr
      · by_cases hamo : opcode instr = 0x2F
        · rw [execute_amoOp hamo] at h
          obtain rfl := Except.ok.inj h
          exact hu.amo_good hg ha hamo
        · rcases execute_quiet ⟨hload, hstore, hamo, hsystem⟩ t i with ⟨c, hc⟩ | ⟨er, her⟩
          · rw [hc] at h
            obtain rfl := Except.ok.inj h
            exact hg
          · rw [her] at h
            cases h

end

/-! ## Runs -/

/-- The invariant: the caches are in order and translation is off. -/
structure Fetching (s : Simulator N n) (i : Fin N) : Prop where
  good : s.hierarchy.Good
  untranslated : s.Untranslated i

/-- Core `i` steps from one state to another with aligned accesses and translation
off. -/
inductive AlignedRun (i : Fin N) : Simulator N n → Simulator N n → Prop
  | nil (s : Simulator N n) : AlignedRun i s s
  | idle {s s' t : Simulator N n} :
    s.prepare i = .ok (false, s') → AlignedRun i s' t → AlignedRun i s t
  | step {s s₁ s' t : Simulator N n} {instr : Word} :
    s.Fetches i s₁ instr → s.step i = .ok s' → (s₁.fetchPc i).2.AlignedAccess i instr →
    s'.Untranslated i → AlignedRun i s' t → AlignedRun i s t

theorem Fetching.prepare {b : Bool} (h : s.Fetching i) (hp : s.prepare i = .ok (b, s')) :
    s'.Fetching i := by
  have hgate := SameButGate.prepare hp
  obtain ⟨_, hh⟩ := hgate.sameData
  exact ⟨hh ▸ h.good, hgate.untranslated h.untranslated⟩

theorem Fetches.fetching (hf : s.Fetches i s₁ instr) (h : s.Fetching i) :
    (s₁.fetchPc i).2.Fetching i :=
  ⟨(fetch_sameWords (h.prepare hf.prepared).good i (s₁.cores i).pc).1,
    hf.untranslated h.untranslated⟩

theorem Fetching.step (h : s.Fetching i) (hf : s.Fetches i s₁ instr) (hstep : s.step i = .ok s')
    (ha : (s₁.fetchPc i).2.AlignedAccess i instr) (hu : s'.Untranslated i) : s'.Fetching i := by
  have ht := hf.fetching h
  refine ⟨?_, hu⟩
  obtain ⟨e, he, rfl⟩ := hf.step_ok hstep
  have hgood := ht.untranslated.execute_good ht.good ha he
  cases e with
  | done t => exact hgood
  | fault t => exact hgood

theorem AlignedRun.fetching (hrun : AlignedRun i s t) (h : s.Fetching i) : t.Fetching i := by
  induction hrun with
  | nil s => exact h
  | idle hp _ ih => exact ih (h.prepare hp)
  | step hf hstep ha hu _ ih => exact ih (h.step hf hstep ha hu)

/-! ## Fetch and load -/

/-- FENCE.I. -/
def fenceI : Word := 0x0000100F

/-- In every run without translation, the word fetched after a FENCE.I from
cacheable RAM is the one a load would find exactly if it is current in the caches. -/
theorem fetch_after_fence_iff {v : Simulator N n} (hs : s.Fetching i) (hbefore : AlignedRun i s t)
    (hfence : t.Fetches i s₁ fenceI) (hstep : t.step i = .ok s') (hafter : AlignedRun i s' u)
    (hnext : u.prepare i = .ok (true, v)) (hpc : (v.cores i).pc = byteAddr x)
    (hcached : hasDataCache (byteAddr x) = true) :
    (v.fetchPc i).1 = v.ramWord i (byteAddr x) ↔ v.hierarchy.CodeCurrent i x := by
  have hfenceI : (s₁.fetchPc i).2.AlignedAccess i fenceI :=
    ⟨fun h => absurd h (by decide), fun h => absurd h (by decide)⟩
  have ht := hbefore.fetching hs
  have hu := ((hfence.step_keepsSatp hstep (by decide)).bases i).trans ht.untranslated
  have hv := (hafter.fetching (ht.step hfence hstep hfenceI hu)).prepare hnext
  unfold fetchPc ramWord
  rw [hv.untranslated.fetch_eq, hpc, if_pos hcached]
  exact Hierarchy.fetch_eq_load_iff hv.good i x

/-- One core about to store a NOP at an address, execute FENCE.I and jump there. -/
def aboutCode (addr : Word) : Simulator 1 0x100000 :=
  loaded 1 0x100000 [Store.encode ⟨.sw, 6, 5, 0⟩, fenceI, 0x00028067] fun _ r =>
    if r = 5 then addr else if r = 6 then 0x13 else 0

theorem aboutCode_fetching (addr : Word) : (aboutCode addr).Fetching 0 :=
  ⟨loaded_good .., loaded_untranslated ..⟩

/-- The states before and after the FENCE.I, and after the jump. -/
def codeStored (addr : Word) : Simulator 1 0x100000 := (aboutCode addr).stepped core0
def codeFenced (addr : Word) : Simulator 1 0x100000 := (codeStored addr).stepped core0
def codeReached (addr : Word) : Simulator 1 0x100000 := (codeFenced addr).stepped core0

theorem codeStored_run {addr : Word} (haddr : addr = 0x20000 ∨ addr = 0x50000) :
    AlignedRun 0 (aboutCode addr) (codeStored addr) := by
  rcases haddr with rfl | rfl
  all_goals
    refine .step ⟨Running.prepare_eq (by decide +kernel), rfl⟩ (step_stepped (by decide +kernel))
      ⟨fun _ _ => ?_, fun h => absurd h (by decide +kernel)⟩ (by decide +kernel) (.nil _)
    decide +kernel

theorem codeFenced_fetches (addr : Word) (haddr : addr = 0x20000 ∨ addr = 0x50000) :
    (codeStored addr).Fetches 0 ((codeStored addr).handleInterrupt 0) fenceI ∧
      (codeStored addr).step 0 = .ok (codeFenced addr) := by
  rcases haddr with rfl | rfl
  all_goals
    exact ⟨⟨Running.prepare_eq (by decide +kernel), by decide +kernel⟩,
      step_stepped (by decide +kernel)⟩

theorem codeReached_run (addr : Word) (haddr : addr = 0x20000 ∨ addr = 0x50000) :
    AlignedRun 0 (codeFenced addr) (codeReached addr) ∧
      (codeReached addr).prepare 0 = .ok (true, (codeReached addr).handleInterrupt 0) ∧
      (((codeReached addr).handleInterrupt 0).cores 0).pc = byteAddr (wordOf addr) := by
  rcases haddr with rfl | rfl
  all_goals
    refine ⟨?_, Running.prepare_eq (by decide +kernel), by decide +kernel⟩
    exact .step ⟨Running.prepare_eq (by decide +kernel), rfl⟩ (step_stepped (by decide +kernel))
      ⟨fun h => absurd h (by decide +kernel), fun h => absurd h (by decide +kernel)⟩
      (by decide +kernel) (.nil _)

/-- In the page table region the NOP goes through to the L2 and is fetched from there. -/
theorem fetch_after_fence_through :
    (((codeReached 0x20000).handleInterrupt 0).fetchPc 0).1 =
      ((codeReached 0x20000).handleInterrupt 0).ramWord 0 0x20000 := by
  obtain ⟨hfetch, hstep⟩ := codeFenced_fetches 0x20000 (.inl rfl)
  obtain ⟨hafter, hnext, hpc⟩ := codeReached_run 0x20000 (.inl rfl)
  have hd : ((((codeReached 0x20000).handleInterrupt 0).hierarchy.l1Dcaches 0).lines.held
      (wordOf 0x20000)) = none := by decide +kernel
  have hi : ((((codeReached 0x20000).handleInterrupt 0).hierarchy.l1Icaches 0).lines.held
      (wordOf 0x20000)) = none := by decide +kernel
  refine (fetch_after_fence_iff (x := wordOf 0x20000) (aboutCode_fetching _)
    (codeStored_run (.inl rfl)) hfetch hstep hafter hnext hpc (by decide)).mpr
    ⟨fun w hw => ?_, fun _ w hw => ?_⟩
  · rw [hi] at hw
    cases hw
  · rw [hd] at hw
    cases hw

/-- At 0x50000 the NOP stays in the data cache, and the fetch gets the old word. -/
theorem stored_code_not_fetched : ∃ s t s₁ s' u v : Simulator 1 0x100000,
    s.Fetching 0 ∧ AlignedRun 0 s t ∧ t.Fetches 0 s₁ fenceI ∧ t.step 0 = .ok s' ∧
      AlignedRun 0 s' u ∧ u.prepare 0 = .ok (true, v) ∧ (v.cores 0).pc = 0x50000 ∧
      hasDataCache 0x50000 = true ∧ (v.fetchPc 0).1 = 0 ∧ v.ramWord 0 0x50000 = 0x13 := by
  obtain ⟨hfetch, hstep⟩ := codeFenced_fetches 0x50000 (.inr rfl)
  obtain ⟨hafter, hnext, hpc⟩ := codeReached_run 0x50000 (.inr rfl)
  exact ⟨_, _, _, _, _, _, aboutCode_fetching 0x50000, codeStored_run (.inr rfl), hfetch, hstep,
    hafter, hnext, hpc, by decide, by decide +kernel, by decide +kernel⟩

end Simulator
end RiscvEmulator.System
