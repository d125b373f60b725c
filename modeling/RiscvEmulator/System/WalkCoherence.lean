import RiscvEmulator.System.LoadStoreStep
import RiscvEmulator.System.SatpTranslation

/-! # Stores and page walks

Page walks read the simulator's memory. A store that goes through the data cache
does not reach it, wherever the caches put the word. -/
namespace RiscvEmulator.System
open Memory Cores Isa

namespace Simulator
variable {N n : Nat} {s s₁ s' t u : Simulator N n} {i : Fin N} {addr : Word}

/-! ## Direct stores -/

/-- `size` bytes at `pa` lie beside the word at `addr`. -/
def Beside (pa : Word) (size : Nat) (addr : Word) : Prop :=
  pa.toNat + size ≤ addr.toNat ∨ addr.toNat + 4 ≤ pa.toNat

theorem writeWord_beside (t : Simulator N n) {pa : Word} (v : Word) (h : Beside pa 4 addr) :
    (t.writeWord pa v).memory.readWord addr = t.memory.readWord addr := by
  unfold writeWord
  split
  · rfl
  · split
    · rfl
    · exact ByteMemory.readWord_congr fun k hk =>
        t.memory.writeWord_other pa v (by unfold Beside at h; omega)

theorem writeHalfword_beside (t : Simulator N n) {pa : Word} (v : BitVec 16)
    (h : Beside pa 2 addr) :
    (t.writeHalfword pa v).memory.readWord addr = t.memory.readWord addr := by
  unfold writeHalfword
  split
  · rfl
  · exact ByteMemory.readWord_congr fun k hk =>
      t.memory.writeHalfword_other pa v (by unfold Beside at h; omega)

theorem writeByte_beside (t : Simulator N n) {pa : Word} (v : Byte)
    (h : Beside pa 1 addr) : (t.writeByte pa v).memory.readWord addr = t.memory.readWord addr := by
  unfold writeByte
  split
  · rfl
  · exact ByteMemory.readWord_congr fun k hk =>
      t.memory.writeByte_other pa v (by unfold Beside at h; omega)

/-- A store beyond memory changes none of it. -/
theorem writeWord_beyond (t : Simulator N n) {pa : Word} (v : Word) (h : ¬pa.toNat < n) :
    (t.writeWord pa v).memory = t.memory := by
  have hend : ¬pa.toNat + 4 ≤ n := by omega
  unfold writeWord
  split
  · rfl
  · split
    · rfl
    · exact if_neg hend

/-! ## Store instructions -/

/-- How many bytes a store instruction stores. -/
def storeSize (funct3 : BitVec 3) : Nat :=
  match funct3 with
  | 0x0 => 1
  | 0x1 => 2
  | _ => 4

/-- In `t`, what `instr` stores, if anything, lies beside the word at `addr`. -/
def StoresBeside (t : Simulator N n) (i : Fin N) (instr addr : Word) : Prop :=
  opcode instr = 0x23 → ∀ pa,
    (t.translate i ((t.cores i).regs (rs1Of instr) + immS instr) true false).1 = .ok pa →
      Beside pa (storeSize (funct3Of instr)) addr

theorem storeRam_beside (t : Simulator N n) (i : Fin N) {vaddr : Word} {size : Nat}
    {cached : Simulator N n → Simulator N n} {direct : Simulator N n → Word → Simulator N n}
    (hcached : (cached t).memory = t.memory)
    (hdirect : ∀ (t' : Simulator N n) pa, Beside pa size addr →
      (direct t' pa).memory.readWord addr = t'.memory.readWord addr)
    (h : ∀ pa, (t.translate i vaddr true false).1 = .ok pa → Beside pa size addr) :
    (exitState (t.storeRam i vaddr cached direct)).memory.readWord addr =
      t.memory.readWord addr := by
  have hmem := (t.translate_accessed i vaddr true false).1.memory
  unfold storeRam
  split
  · exact congrArg (·.readWord addr) hcached
  · split
    · next pa t' hres =>
      rw [hres] at h hmem
      have hword := hdirect t' pa (h pa rfl)
      rw [hmem] at hword
      exact hword
    · next ex t' hres =>
      rw [hres] at hmem
      exact congrArg (·.readWord addr) hmem

theorem store_beside (t : Simulator N n) (i : Fin N) {instr : Word} (ho : opcode instr = 0x23)
    (h : t.StoresBeside i instr addr) :
    (exitState (t.store i instr)).memory.readWord addr = t.memory.readWord addr := by
  have hside := h ho
  unfold store
  simp only
  generalize (t.cores i).regs (rs1Of instr) + immS instr = vaddr at hside ⊢
  generalize (t.cores i).regs (rs2Of instr) = v
  split
  · -- RAM
    split
    · next h3 =>
      rw [h3] at hside
      exact storeRam_beside t i (t.dataWrite_accessed i _ _).memory
        (fun t' pa hb => t'.writeWord_beside v hb) hside
    · next h3 =>
      rw [h3] at hside
      exact storeRam_beside t i (t.modifyWord_accessed i _ _).memory
        (fun t' pa hb => t'.writeByte_beside _ hb) hside
    · next h3 =>
      rw [h3] at hside
      exact storeRam_beside t i (t.modifyWord_accessed i _ _).memory
        (fun t' pa hb => t'.writeHalfword_beside _ hb) hside
    · rfl
  · next hlt =>
    unfold storeMmio
    split
    · rfl
    · split
      · exact congrArg (·.readWord addr) (t.writeWord_beyond v hlt)
      · rfl

/-- The step of such an instruction leaves the word as it is. -/
theorem Fetches.step_beside {instr : Word} (h : s.Fetches i s₁ instr) (hstep : s.step i = .ok s')
    (hside : (s₁.fetchPc i).2.StoresBeside i instr addr) :
    s'.memory.readWord addr = s.memory.readWord addr := by
  by_cases hstore : opcode instr = 0x23
  · obtain ⟨e, he, rfl⟩ := h.step_ok hstep
    rw [execute_storeOp hstore] at he
    obtain rfl := Except.ok.inj he
    rw [(retire_keepsSatp (i := i) _).2, store_beside _ i hstore hside, h.keepsSatp.2]
  · rw [h.step_memory hstep hstore]

/-! ## Runs -/

/-- Core `i` steps from one state to another and stores nothing over the word at
`addr`. -/
inductive LeavesWord (i : Fin N) (addr : Word) : Simulator N n → Simulator N n → Prop
  | nil (s : Simulator N n) : LeavesWord i addr s s
  | idle {s s' t : Simulator N n} :
    s.prepare i = .ok (false, s') → LeavesWord i addr s' t → LeavesWord i addr s t
  | step {s s₁ s' t : Simulator N n} {instr : Word} :
    s.Fetches i s₁ instr → s.step i = .ok s' → (s₁.fetchPc i).2.StoresBeside i instr addr →
    LeavesWord i addr s' t → LeavesWord i addr s t

theorem LeavesWord.readWord (h : LeavesWord i addr s t) :
    t.memory.readWord addr = s.memory.readWord addr := by
  induction h with
  | nil s => rfl
  | idle hp _ ih => rw [ih, (prepare_keepsSatp hp).2]
  | step hf hstep hside _ ih => rw [ih, hf.step_beside hstep hside]

/-- Memory, and neither a device nor the CLINT, answers to the word at `addr`. -/
structure IsRam (s : Simulator N n) (addr : Word) : Prop where
  inside : addr.toNat + 4 ≤ n
  noDevice : ¬s.devices.any (inDevice addr) = true
  noClint : ¬inClint addr = true

/-- SW without translation puts the word into memory, unless it is cacheable. -/
theorem Fetches.step_sw {rs2 rs1 : Isa.Reg} {imm : BitVec 12}
    (h : s.Fetches i s₁ (Store.encode ⟨.sw, rs2, rs1, imm⟩)) (hu : s.Untranslated i)
    (haddr : Store.address ⟨.sw, rs2, rs1, imm⟩ (s.cores i).regs = addr) (hram : s.IsRam addr)
    (hstep : s.step i = .ok s') : s'.memory.readWord addr =
      if hasDataCache addr then s.memory.readWord addr else (s.cores i).regs rs2 := by
  have ht := h.untranslated hu
  have hregs := h.regs
  have hmem := h.keepsSatp.2
  have hram' : (s₁.fetchPc i).2.IsRam addr := by
    obtain ⟨c, flags, _, hs₁⟩ := SameButGate.prepare h.prepared
    have hf := s₁.fetch_accessed i (s₁.cores i).pc
    refine ⟨hram.inside, ?_, hram.noClint⟩
    show ¬(s₁.fetch i (s₁.cores i).pc).2.devices.any (inDevice addr) = true
    rw [hf.devices, hs₁]
    exact hram.noDevice
  obtain ⟨e, he, rfl⟩ := h.step_ok hstep
  rw [(retire_keepsSatp (i := i) e).2]
  generalize (s₁.fetchPc i).2 = t at ht hregs hmem hram' he
  have hlt : (Store.address ⟨.sw, rs2, rs1, imm⟩ (t.cores i).regs).toNat < n := by
    rw [hregs, haddr]
    exact Nat.lt_of_lt_of_le (Nat.lt_add_of_pos_right (by decide)) hram.inside
  rw [execute_store t i _ hlt, hregs, haddr] at he
  obtain rfl := Except.ok.inj he
  unfold storeRam
  split
  · rw [← hmem]
    exact congrArg (·.readWord addr) (t.dataWrite_accessed i addr ((s.cores i).regs rs2)).memory
  · rw [ht.translate_eq]
    show (t.writeWord addr _).memory.readWord addr = _
    unfold writeWord
    rw [if_neg hram'.noDevice, if_neg hram'.noClint]
    unfold ByteMemory.writeWord ByteMemory.readWord
    simp only [if_pos hram.inside]
    exact load32_store32 ..

/-- After an SW, a page walk reads the stored word exactly if the word is not
cacheable or had the value before, however the run has gone on in between. -/
theorem walk_reads_stored_iff {rs2 rs1 : Isa.Reg} {imm : BitVec 12}
    (h : s.Fetches i s₁ (Store.encode ⟨.sw, rs2, rs1, imm⟩)) (hu : s.Untranslated i)
    (haddr : Store.address ⟨.sw, rs2, rs1, imm⟩ (s.cores i).regs = addr) (hram : s.IsRam addr)
    (hstep : s.step i = .ok s') (hrun : LeavesWord i addr s' t) (hacc : Accessing i t u) :
    u.memory.readWord addr = (s.cores i).regs rs2 ↔
      hasDataCache addr = false ∨ s.memory.readWord addr = (s.cores i).regs rs2 := by
  rw [hacc.keepsSatp.2, hrun.readWord, h.step_sw hu haddr hram hstep]
  cases hasDataCache addr <;> simp

/-- One core about to store a page table entry at the address in `x5`. -/
def aboutEntry (addr : Word) : Simulator 1 0x100000 :=
  loaded 1 0x100000 [Store.encode ⟨.sw, 6, 5, 0⟩] fun _ r =>
    if r = 5 then addr else if r = 6 then 0x13C0F else 0

theorem aboutEntry_fetches (addr : Word) : ∃ s₁,
    (aboutEntry addr).Fetches 0 s₁ (Store.encode ⟨.sw, 6, 5, 0⟩) := loaded_fetches ..

theorem walk_reads_stored_uncached :
    (((aboutEntry 0x4F000).stepped 0).handleInterrupt 0).memory.readWord 0x4F000 = 0x13C0F := by
  obtain ⟨s₁, hf⟩ := aboutEntry_fetches 0x4F000
  exact (walk_reads_stored_iff hf (loaded_untranslated ..) rfl ⟨by decide, by decide, by decide⟩
    (step_stepped (by decide +kernel)) (.nil _)
    ⟨_, Running.prepare_eq (by decide +kernel), .refl _⟩).mpr (.inl (by decide))

/-- An entry stored in the page table region is not found by the walk. -/
theorem walk_misses_entry : ∃ s₁ s' u : Simulator 1 0x100000,
    (aboutEntry 0x20004).Fetches 0 s₁ (Store.encode ⟨.sw, 6, 5, 0⟩) ∧
      (aboutEntry 0x20004).step 0 = .ok s' ∧ Accessing 0 s' u ∧
        u.memory.readWord 0x20004 ≠ 0x13C0F := by
  obtain ⟨s₁, hf⟩ := aboutEntry_fetches 0x20004
  exact ⟨s₁, _, _, hf, step_stepped (by decide +kernel),
    ⟨_, Running.prepare_eq (by decide +kernel), .refl _⟩, by decide +kernel⟩

end Simulator
end RiscvEmulator.System
