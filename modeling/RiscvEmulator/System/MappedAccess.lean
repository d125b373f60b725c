import RiscvEmulator.Memory.SingleCore
import RiscvEmulator.System.WordPlaces

/-! # Accesses of a mapped word

Loads and stores take bounds and cacheability from the virtual address, and go to
the physical one. Which place they look at is a matter of the virtual address. -/
namespace RiscvEmulator.System
open Memory Cores Isa

namespace Simulator
variable {N n : Nat} {s s₁ s' t : Simulator N n} {i : Fin N} {x : WordAddr} {va pa : Word}

/-! ## Mapped addresses -/

/-- The MMU translates `va` to `pa`, for loads and for stores. -/
structure Mapped (t : Simulator N n) (i : Fin N) (va pa : Word) : Prop where
  load : (t.translate i va false false).1 = .ok pa
  store : (t.translate i va true false).1 = .ok pa

theorem Untranslated.mapped (h : t.Untranslated i) (va : Word) : t.Mapped i va va :=
  ⟨by rw [h.translate_eq], by rw [h.translate_eq]⟩

theorem translate_ask (t : Simulator N n) (i : Fin N) (va : Word) (isWrite : Bool) :
    (t.translate i va isWrite false).1 =
      ((t.mmus i).ask t.memory.readWord ⟨va, isWrite, false⟩).1 := rfl

namespace Mapped

theorem low (h : t.Mapped i va pa) : pa.toNat % 4 = va.toNat % 4 := by
  have hload := h.load
  rw [translate_ask] at hload
  exact MMU.ask_low rfl hload

/-- Then the word of `va` is mapped to that of `pa`. -/
theorem word (h : t.Mapped i va pa) : t.Mapped i (byteAddr (wordOf va)) (byteAddr (wordOf pa)) := by
  obtain ⟨hload, hstore⟩ := h
  rw [translate_ask] at hload hstore
  exact ⟨MMU.ask_word rfl hload, MMU.ask_word rfl hstore⟩

theorem again_eq (t : Simulator N n) (i : Fin N) (va : Word) (isWrite : Bool) :
    ((t.translate i va false false).2.translate i va isWrite false).1 =
      (t.translate i va isWrite false).1 := by
  have hmmu : (t.translate i va false false).2.mmus i =
      ((t.mmus i).ask t.memory.readWord ⟨va, false, false⟩).2 := Function.update_self ..
  have hmem : (t.translate i va false false).2.memory = t.memory := rfl
  rw [translate_ask, translate_ask, hmmu, hmem]
  exact (t.mmus i).ask_again rfl ⟨va, false, false⟩ ⟨va, isWrite, false⟩ rfl
    fun h => Bool.false_ne_true h.2

/-- It stays mapped after a load. -/
theorem again (h : t.Mapped i va pa) : (t.translate i va false false).2.Mapped i va pa :=
  ⟨(again_eq t i va false).trans h.load, (again_eq t i va true).trans h.store⟩

end Mapped

theorem translate_ok {isWrite isInstruction : Bool}
    (h : (t.translate i va isWrite isInstruction).1 = .ok pa) :
    t.translate i va isWrite isInstruction = (.ok pa, (t.translate i va isWrite isInstruction).2) :=
  Prod.ext h rfl

theorem cacheTranslate_ok {isWrite isInstruction : Bool}
    (h : (t.translate i va isWrite isInstruction).1 = .ok pa) :
    t.cacheTranslate i va isWrite isInstruction =
      (pa, (t.translate i va isWrite isInstruction).2) := by
  unfold cacheTranslate
  rw [translate_ok h]

theorem translate_sameWords (t : Simulator N n) (i : Fin N) (va : Word)
    (isWrite isInstruction : Bool) : SameWords t (t.translate i va isWrite isInstruction).2 := by
  obtain ⟨h, hh⟩ := t.translate_accessed i va isWrite isInstruction
  exact ⟨congrArg Hierarchy.shared hh, h.memory, h.devices, h.clint⟩

/-! ## The switch -/

/-- `t'` is `t` after accesses: caches in order, cores and devices as they were. -/
structure Reached (t t' : Simulator N n) : Prop where
  good : t'.hierarchy.Good
  cores : t'.cores = t.cores
  devices : t'.devices = t.devices

theorem Reached.trans {u : Simulator N n} (h : Reached t s) (h' : Reached s u) : Reached t u :=
  ⟨h'.good, h'.cores.trans h.cores, h'.devices.trans h.devices⟩

/-- Translating is such an access. -/
theorem translate_reached (hg : t.hierarchy.Good) (i : Fin N) (va : Word)
    (isWrite isInstruction : Bool) : Reached t (t.translate i va isWrite isInstruction).2 := by
  obtain ⟨hacc, hh⟩ := t.translate_accessed i va isWrite isInstruction
  exact ⟨hh ▸ hg, hacc.cores, hacc.devices⟩

theorem extractWord_low (op : LoadOp) (h : pa.toNat % 4 = va.toNat % 4) :
    extractWord op va = extractWord op pa := by
  have hlow : pa &&& 0x3 = va &&& 0x3 := BitVec.eq_of_toNat_eq (by rw [toNat_and_3, toNat_and_3, h])
  unfold extractWord byteOf halfwordOf
  rw [hlow]

theorem insertWord_low (op : StoreOp) (h : pa.toNat % 4 = va.toNat % 4) :
    insertWord op va = insertWord op pa := by
  have hlow : pa &&& 0x3 = va &&& 0x3 := BitVec.eq_of_toNat_eq (by rw [toNat_and_3, toNat_and_3, h])
  unfold insertWord insertByte insertHalfword
  rw [hlow]

theorem Mapped.size (h : t.Mapped i va pa) {size : Nat} (hsize : size ∣ 4)
    (ha : va.toNat % size = 0) : pa.toNat % size = 0 := by
  rw [← Nat.mod_mod_of_dvd _ hsize, h.low, Nat.mod_mod_of_dvd _ hsize, ha]

/-- A read through the data cache. -/
theorem dataRead_mapped (hg : t.hierarchy.Good)
    (hm : (t.translate i va false false).1 = .ok (byteAddr x)) :
    (t.dataRead i va).1 = t.wordAt i x .dataCache ∧ Reached t (t.dataRead i va).2 ∧
      (t.dataRead i va).2.wordAt i x = t.wordAt i x := by
  have hacc := t.dataRead_accessed i va
  have hreach := translate_reached hg i va false false
  have hsame := (t.translate_sameWords i va false false).wordAt i x
  unfold dataRead at hacc ⊢
  rw [cacheTranslate_ok hm] at hacc ⊢
  obtain ⟨hv, hg', hw⟩ := load_wordAt (t := (t.translate i va false false).2) hreach.good i x
  rw [hsame] at hv hw
  exact ⟨hv, ⟨hg', hacc.cores, hacc.devices⟩, hw⟩

/-- The address stays mapped. -/
theorem Mapped.dataRead (h : t.Mapped i va pa) : (t.dataRead i va).2.Mapped i va pa := by
  have hagain := h.again
  unfold Simulator.dataRead
  rw [cacheTranslate_ok h.load]
  exact ⟨hagain.load, hagain.store⟩

/-- A write through the data cache. -/
theorem dataWrite_mapped (hg : t.hierarchy.Good)
    (hm : (t.translate i va true false).1 = .ok (byteAddr x)) (v : Word)
    (htable : inPageTable va = true → va = byteAddr x) (hx : x.toNat < 0x10000000) :
    Reached t (t.dataWrite i va v) ∧ (t.dataWrite i va v).wordAt i x .dataCache = v := by
  have hacc := t.dataWrite_accessed i va v
  have hreach := translate_reached hg i va true false
  unfold dataWrite at hacc ⊢
  rw [cacheTranslate_ok hm] at hacc ⊢
  obtain ⟨hg', hw⟩ :=
    store_wordAt (t := (t.translate i va true false).2) hreach.good i x v htable hx
  exact ⟨⟨hg', hacc.cores, hacc.devices⟩, hw⟩

/-- A change of a word through the data cache. -/
theorem modifyWord_mapped (hg : t.hierarchy.Good) (hm : t.Mapped i va pa)
    (hdom : (wordOf pa).toNat < 0x10000000)
    (htable : inPageTable (byteAddr (wordOf va)) = true →
      byteAddr (wordOf va) = byteAddr (wordOf pa)) (f : Word → Word) :
    Reached t (t.modifyWord i va f) ∧
      (t.modifyWord i va f).wordAt i (wordOf pa) .dataCache =
        f (t.wordAt i (wordOf pa) .dataCache) := by
  unfold modifyWord
  rw [aligned_eq]
  obtain ⟨hv, hread, _⟩ := dataRead_mapped hg hm.word.load
  obtain ⟨hwrite, hw⟩ := dataWrite_mapped hread.good hm.word.dataRead.store
    (f (t.dataRead i (byteAddr (wordOf va))).1) htable hdom
  exact ⟨hread.trans hwrite, hw.trans (congrArg f hv)⟩

/-- A load takes its value out of the word at the place of its virtual address. -/
theorem loadRam_mapped (hg : t.hierarchy.Good) (hm : t.Mapped i va pa)
    (hx : t.RamWord (wordOf pa)) {op : LoadOp} (ha : va.toNat % op.size = 0) (rd : Cores.Reg) :
    ∃ t', t.loadRam i rd va (if op = .lw then va else aligned va) (extractWord op va)
        (loadDirect op) =
        t'.finish i rd (extractWord op pa (t.wordAt i (wordOf pa) (plainPlace va))) ∧
      Reached t t' ∧ t'.wordAt i (wordOf pa) = t.wordAt i (wordOf pa) := by
  rw [lw_addr ha, extractWord_low op hm.low]
  unfold loadRam plainPlace
  cases hasDataCache va with
  | true =>
    obtain ⟨hv, ht', hw⟩ := dataRead_mapped hg hm.word.load
    refine ⟨(t.dataRead i (byteAddr (wordOf va))).2, ?_, ht', hw⟩
    rw [if_pos rfl, if_pos rfl, ← hv]
  | false =>
    have hreach := translate_reached hg i va false false
    have hsame := (t.translate_sameWords i va false false).wordAt i (wordOf pa)
    have hvalue := (hx.devices hreach.devices).loadDirect_eq op (hm.size op.size_dvd ha)
    refine ⟨(t.translate i va false false).2, ?_, hreach, hsame⟩
    rw [if_neg Bool.false_ne_true, if_neg Bool.false_ne_true, translate_ok hm.load]
    simp only
    rw [hvalue]
    exact congrArg (fun w => Simulator.finish _ i rd (extractWord op pa w))
      (congrFun hsame .memory)

/-- A store past the data cache. -/
theorem storeDirect_mapped (hg : t.hierarchy.Good) (hm : t.Mapped i va pa)
    (hx : t.RamWord (wordOf pa)) {op : StoreOp} (ha : va.toNat % op.size = 0) (v : Word) :
    Reached t (storeDirect op (t.translate i va true false).2 pa v) ∧
      (storeDirect op (t.translate i va true false).2 pa v).wordAt i (wordOf pa) .memory =
        insertWord op pa (t.wordAt i (wordOf pa) .memory) v := by
  have hreach := translate_reached hg i va true false
  have hsame := (t.translate_sameWords i va true false).wordAt i (wordOf pa)
  have hx' := hx.devices hreach.devices
  have hpa := hm.size op.size_dvd ha
  constructor
  · rw [hx'.storeDirect_eq op v hpa]
    exact ⟨hreach.good, hreach.cores, hreach.devices⟩
  · show (storeDirect op (t.translate i va true false).2 pa v).readWord _ = _
    rw [hx'.storeDirect_readWord op v hpa]
    exact congrArg (insertWord op pa · v) (congrFun hsame .memory)

/-- A store puts its operand into the word at the place of its virtual address. -/
theorem storeRam_mapped (hg : t.hierarchy.Good) (hm : t.Mapped i va pa)
    (hx : t.RamWord (wordOf pa)) (hdom : (wordOf pa).toNat < 0x10000000)
    (htable : inPageTable va = true → va = pa) {op : StoreOp} (ha : va.toNat % op.size = 0)
    (v : Word) :
    ∃ t', t.storeRam i va
        (fun t => match op with
          | .sw => t.dataWrite i va v
          | .sb | .sh => t.modifyWord i va (insertWord op va · v))
        (fun t physAddr => storeDirect op t physAddr v) = t'.next i ∧ Reached t t' ∧
      t'.wordAt i (wordOf pa) (plainPlace va) =
        insertWord op pa (t.wordAt i (wordOf pa) (plainPlace va)) v := by
  have hword : inPageTable (byteAddr (wordOf va)) = true →
      byteAddr (wordOf va) = byteAddr (wordOf pa) := by
    rw [inPageTable_iff, byteAddr_toNat, wordOf_toNat]
    intro hin
    rw [htable ((inPageTable_iff va).mpr (by omega))]
  rw [insertWord_low op hm.low]
  unfold storeRam plainPlace
  cases hasDataCache va with
  | true =>
    rw [if_pos rfl, if_pos rfl]
    cases op with
    | sb | sh => exact ⟨_, rfl, modifyWord_mapped hg hm hdom hword _⟩
    | sw =>
      have hva : byteAddr (wordOf va) = va := byteAddr_wordOf ha
      have hstore := hm.word.store
      rw [hva] at hstore hword
      exact ⟨_, rfl, dataWrite_mapped hg hstore v hword hdom⟩
  | false =>
    rw [if_neg Bool.false_ne_true, if_neg Bool.false_ne_true, translate_ok hm.store]
    exact ⟨_, rfl, storeDirect_mapped hg hm hx ha v⟩

/-! ## The step -/

/-- A step that ends after accesses keeps the caches in order. -/
theorem Reached.step {t' : Simulator N n} {regs : Isa.Reg → Word} (h : Reached t t')
    (hr : Retired t' i regs s') (h0 : regs 0 = 0) :
    s'.InOrder i ∧ s'.devices = t.devices ∧ s'.wordAt i x = t'.wordAt i x :=
  ⟨.retired h.good hr h0, hr.data.devices.trans h.devices, hr.sameWords.wordAt i x⟩

theorem Fetches.step_mappedLoad {instr : Load} (h : s.Fetches i s₁ instr.encode)
    (hs : s.InOrder i) (hx : s.RamWord x) (hva : instr.address (s.cores i).regs = va)
    (hlt : va.toNat < n) (ha : va.toNat % instr.op.size = 0)
    (hm : (s₁.fetchPc i).2.Mapped i va pa) (hpa : wordOf pa = x) (hstep : s.step i = .ok s') :
    s'.InOrder i ∧ s'.RamWord x ∧ s'.wordAt i x = s.wordAt i x ∧
      (s'.cores i).regs = ((s.cores i).isaState.write instr.rd
        (extractWord instr.op pa (s.wordAt i x (plainPlace va)))).regs := by
  subst hpa
  obtain ⟨ht, hsame⟩ := h.sameWords hs
  have hregs := h.regs
  have hx' := hx.devices hsame.devices
  obtain ⟨e, he, rfl⟩ := h.step_ok hstep
  rw [← hsame.wordAt i (wordOf pa)]
  generalize (s₁.fetchPc i).2 = t at ht hregs hx' hm he
  subst hva
  rw [← hregs] at hlt ha hm ⊢
  rw [Simulator.execute_load t i instr hlt] at he
  obtain ⟨t', hload, ht', hw⟩ := loadRam_mapped ht.good hm hx' ha instr.rd
  obtain rfl : e = t'.finish i instr.rd _ := (Except.ok.inj he).symm.trans hload
  have hret := retire_finish t' i instr.rd (extractWord instr.op pa
    (t.wordAt i (wordOf pa) (plainPlace (instr.address (t.cores i).regs))))
    (by rw [ht'.cores]; exact ht.zero)
  obtain ⟨hs', hdev, hw'⟩ := ht'.step hret (by rw [State.write_zero, ht'.cores]; exact ht.zero)
  refine ⟨hs', hx'.devices hdev, hw'.trans hw, ?_⟩
  rw [hret.regs, ht'.cores]
  simp only [State.write, Core.isaState, hregs]

theorem Fetches.step_mappedStore {instr : Store} (h : s.Fetches i s₁ instr.encode)
    (hs : s.InOrder i) (hx : s.RamWord x) (hdom : x.toNat < 0x10000000)
    (hva : instr.address (s.cores i).regs = va) (hlt : va.toNat < n)
    (ha : va.toNat % instr.op.size = 0) (hm : (s₁.fetchPc i).2.Mapped i va pa)
    (hpa : wordOf pa = x) (htable : inPageTable va = true → va = pa)
    (hstep : s.step i = .ok s') :
    s'.InOrder i ∧ s'.RamWord x ∧ s'.wordAt i x (plainPlace va) =
      insertWord instr.op pa (s.wordAt i x (plainPlace va)) ((s.cores i).regs instr.rs2) := by
  subst hpa
  obtain ⟨ht, hsame⟩ := h.sameWords hs
  have hregs := h.regs
  have hx' := hx.devices hsame.devices
  obtain ⟨e, he, rfl⟩ := h.step_ok hstep
  rw [← hsame.wordAt i (wordOf pa)]
  generalize (s₁.fetchPc i).2 = t at ht hregs hx' hm he
  subst hva
  rw [← hregs] at hlt ha hm htable ⊢
  rw [Simulator.execute_store t i instr hlt] at he
  obtain ⟨t', hstore, ht', hw⟩ := storeRam_mapped ht.good hm hx' hdom htable ha
    ((t.cores i).regs instr.rs2)
  obtain rfl : e = t'.next i := (Except.ok.inj he).symm.trans hstore
  have hzero : (t'.cores i).regs 0 = 0 := by rw [ht'.cores]; exact ht.zero
  obtain ⟨hs', hdev, hw'⟩ := ht'.step (retire_next t' i hzero) hzero
  refine ⟨hs', hx'.devices hdev, ?_⟩
  rw [hw']
  exact hw

end Simulator
end RiscvEmulator.System
