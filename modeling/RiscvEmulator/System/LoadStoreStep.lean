import RiscvEmulator.Cores.Compute
import RiscvEmulator.System.DataStep
import RiscvEmulator.System.SubWord

/-! # Steps of loads and stores

An aligned load of RAM takes its value out of the word its address lies in, and a
store puts its operand into it, through the data cache or in the simulator's own
memory. -/
namespace RiscvEmulator.System
open Memory Cores Isa

/-! ## The vector as an array of bytes -/

theorem load32_eq_word (mem : Bytes) (a : Nat) : load32 mem a = mem.word a := by
  unfold load32 Bytes.word
  refine BitVec.eq_of_getLsbD_eq fun j hj => ?_
  simp only [BitVec.getLsbD_or, BitVec.getLsbD_shiftLeft, BitVec.getLsbD_setWidth,
    BitVec.getLsbD_append]
  grind

theorem load16_eq_halfword (mem : Bytes) (a : Nat) : load16 mem a = mem.halfword a := by
  unfold load16 Bytes.halfword
  refine BitVec.eq_of_getLsbD_eq fun j hj => ?_
  simp only [BitVec.getLsbD_or, BitVec.getLsbD_shiftLeft, BitVec.getLsbD_setWidth,
    BitVec.getLsbD_append]
  grind

theorem shift_setWidth_eq_byte (v : Word) (k : Nat) :
    (v >>> k).setWidth 8 = v.extractLsb' k 8 := by
  refine BitVec.eq_of_getLsbD_eq fun j hj => ?_
  simp [hj]

theorem store32_eq_store (mem : Bytes) (a : Nat) (v : Word) :
    store32 mem a v = mem.store a 4 v := by
  funext b
  unfold store32 Bytes.store
  have h0 : v.setWidth 8 = v.extractLsb' 0 8 := shift_setWidth_eq_byte v 0
  rw [h0, shift_setWidth_eq_byte, shift_setWidth_eq_byte, shift_setWidth_eq_byte]
  simp only [Function.update_apply]
  by_cases hin : a ≤ b ∧ b < a + 4
  · have hb : b = a ∨ b = a + 1 ∨ b = a + 2 ∨ b = a + 3 := by omega
    rcases hb with rfl | rfl | rfl | rfl <;> simp
  · rw [if_neg (by omega), if_neg (by omega), if_neg (by omega), if_neg (by omega), if_neg hin]

theorem store16_eq_store (mem : Bytes) (a : Nat) (v : Word) :
    store16 mem a (v.setWidth 16) = mem.store a 2 v := by
  funext b
  have hlow : ((v.setWidth 16).setWidth 8 : Byte) = v.extractLsb' 0 8 := by
    refine BitVec.eq_of_getLsbD_eq fun j hj => ?_
    simp [hj]
  have hhigh : (((v.setWidth 16) >>> 8).setWidth 8 : Byte) = v.extractLsb' 8 8 := by
    refine BitVec.eq_of_getLsbD_eq fun j hj => ?_
    simp [hj]
    omega
  unfold store16 Bytes.store
  rw [hlow, hhigh]
  simp only [Function.update_apply]
  by_cases hin : a ≤ b ∧ b < a + 2
  · have hb : b = a ∨ b = a + 1 := by omega
    rcases hb with rfl | rfl <;> simp
  · rw [if_neg (by omega), if_neg (by omega), if_neg hin]

theorem update_eq_store (mem : Bytes) (a : Nat) (v : Word) :
    Function.update mem a (v.setWidth 8) = mem.store a 1 v := by
  funext b
  have hlow : v.setWidth 8 = v.extractLsb' 0 8 := shift_setWidth_eq_byte v 0
  unfold Bytes.store
  rw [hlow, Function.update_apply]
  by_cases hb : b = a
  · subst hb
    simp
  · rw [if_neg hb, if_neg (by omega)]

namespace Simulator
variable {N n : Nat} {s s₁ t : Simulator N n} {i : Fin N} {x : WordAddr} {addr pa : Word}

/-! ## Words of RAM -/

/-- Memory, and neither a device nor the CLINT, answers to the word. -/
structure RamWord (s : Simulator N n) (x : WordAddr) : Prop where
  inside : 4 * x.toNat + 4 ≤ n
  noDevice : ∀ addr, wordOf addr = x → ¬s.devices.any (inDevice addr) = true
  noClint : ¬inClint (byteAddr x) = true

/-- Reading past the data cache. -/
def loadDirect (op : LoadOp) (s : Simulator N n) (addr : Word) : Word :=
  match op with
  | .lb => (s.readByte addr).signExtend 32
  | .lh => (s.readHalfword addr).signExtend 32
  | .lw => s.readWord addr
  | .lbu => (s.readByte addr).setWidth 32
  | .lhu => (s.readHalfword addr).setWidth 32

/-- Writing past it. -/
def storeDirect (op : StoreOp) (s : Simulator N n) (addr v : Word) : Simulator N n :=
  match op with
  | .sb => s.writeByte addr (v.setWidth 8)
  | .sh => s.writeHalfword addr (v.setWidth 16)
  | .sw => s.writeWord addr v

/-- Memory, and neither a device nor the CLINT, answers to the address. -/
structure RamAddr (s : Simulator N n) (addr : Word) : Prop where
  inside : addr.toNat < n
  noDevice : ¬s.devices.any (inDevice addr) = true
  noClint : ¬inClint addr = true

theorem inClint_wordOf (a : Word) : inClint (byteAddr (wordOf a)) = inClint a := by
  rw [Bool.eq_iff_iff]
  simp only [inClint, Bool.or_eq_true, Bool.and_eq_true, decide_eq_true_eq, BitVec.le_def,
    BitVec.lt_def, byteAddr_toNat, wordOf_toNat, BitVec.ofNat_eq_ofNat, BitVec.toNat_ofNat]
  omega

namespace RamAddr

theorem devices (h : s.RamAddr addr) (hd : t.devices = s.devices) : t.RamAddr addr :=
  ⟨h.inside, by rw [hd]; exact h.noDevice, h.noClint⟩

theorem find_device (h : s.RamAddr addr) : s.devices.find? (inDevice addr) = none := by
  refine List.find?_eq_none.mpr fun dev hdev hin => h.noDevice ?_
  exact List.any_eq_true.mpr ⟨dev, hdev, hin⟩

/-- A direct load is one of the vector. -/
theorem loadDirect_eq (h : s.RamAddr addr) (op : LoadOp) (hend : addr.toNat + op.size ≤ n) :
    loadDirect op s addr = op.eval s.memory.bytes addr.toNat := by
  have hfind := h.find_device
  cases op with
  | lb | lbu =>
    unfold loadDirect readByte
    rw [hfind, ByteMemory.readByte, if_pos h.inside]
    rfl
  | lh | lhu =>
    change addr.toNat + 2 ≤ n at hend
    unfold loadDirect readHalfword
    rw [hfind, ByteMemory.readHalfword, if_pos hend, load16_eq_halfword]
    rfl
  | lw =>
    change addr.toNat + 4 ≤ n at hend
    unfold loadDirect readWord
    rw [hfind, if_neg h.noClint, ByteMemory.readWord, if_pos hend, load32_eq_word]
    rfl

/-- And so is a direct store. -/
theorem storeDirect_eq (h : s.RamAddr addr) (op : StoreOp) (v : Word)
    (hend : addr.toNat + op.size ≤ n) :
    storeDirect op s addr v = { s with memory := ⟨op.apply s.memory.bytes addr.toNat v⟩ } := by
  cases op with
  | sb =>
    unfold storeDirect writeByte
    simp only [if_neg h.noDevice, ByteMemory.writeByte, if_pos h.inside, update_eq_store]
    rfl
  | sh =>
    change addr.toNat + 2 ≤ n at hend
    unfold storeDirect writeHalfword
    simp only [if_neg h.noDevice, ByteMemory.writeHalfword, if_pos hend, store16_eq_store]
    rfl
  | sw =>
    change addr.toNat + 4 ≤ n at hend
    unfold storeDirect writeWord
    simp only [if_neg h.noDevice, if_neg h.noClint, ByteMemory.writeWord, if_pos hend,
      store32_eq_store]
    rfl

end RamAddr

namespace RamWord

theorem devices (h : s.RamWord x) (hd : t.devices = s.devices) : t.RamWord x :=
  ⟨h.inside, fun addr haddr => by rw [hd]; exact h.noDevice addr haddr, h.noClint⟩

/-- Every address in the word is one of memory. -/
theorem ramAddr (h : s.RamWord (wordOf pa)) : s.RamAddr pa := by
  have hin := h.inside
  have hclint := h.noClint
  rw [wordOf_toNat] at hin
  rw [inClint_wordOf] at hclint
  exact ⟨by omega, h.noDevice pa rfl, hclint⟩

/-- So is all of an aligned access. -/
theorem access_end (h : s.RamWord (wordOf pa)) {size : Nat} (hs : size ∣ 4) (h0 : 0 < size)
    (ha : pa.toNat % size = 0) : pa.toNat + size ≤ n := by
  have hin := h.inside
  rw [wordOf_toNat] at hin
  have hsize : size = 1 ∨ size = 2 ∨ size = 4 := by
    have hle := Nat.le_of_dvd (by decide) hs
    interval_cases size <;> simp_all
  rcases hsize with rfl | rfl | rfl <;> omega

theorem readWord_eq (h : s.RamWord x) :
    s.readWord (byteAddr x) = Bytes.word s.memory.bytes (4 * x.toNat) := by
  have hword : s.RamAddr (byteAddr x) := ramAddr (by rwa [wordOf_byteAddr])
  have hend := h.inside
  rw [← byteAddr_toNat]
  exact hword.loadDirect_eq .lw (by rwa [byteAddr_toNat])

/-- A direct load takes its value out of the word. -/
theorem loadDirect_eq (h : s.RamWord (wordOf pa)) (op : LoadOp) (ha : pa.toNat % op.size = 0) :
    loadDirect op s pa = extractWord op pa (s.readWord (byteAddr (wordOf pa))) := by
  rw [h.readWord_eq, wordOf_toNat, extractWord_word op s.memory.bytes ha]
  exact h.ramAddr.loadDirect_eq op (h.access_end op.size_dvd op.size_pos ha)

theorem storeDirect_eq (h : s.RamWord (wordOf pa)) (op : StoreOp) (v : Word)
    (ha : pa.toNat % op.size = 0) :
    storeDirect op s pa v = { s with memory := ⟨op.apply s.memory.bytes pa.toNat v⟩ } :=
  h.ramAddr.storeDirect_eq op v (h.access_end op.size_dvd op.size_pos ha)

/-- A direct store puts its operand into the word. -/
theorem storeDirect_readWord (h : s.RamWord (wordOf pa)) (op : StoreOp) (v : Word)
    (ha : pa.toNat % op.size = 0) :
    (storeDirect op s pa v).readWord (byteAddr (wordOf pa)) =
      insertWord op pa (s.readWord (byteAddr (wordOf pa))) v := by
  rw [h.storeDirect_eq op v ha, h.readWord_eq, wordOf_toNat, insertWord_word op _ v ha]
  have h' : RamWord ({ s with memory := ⟨op.apply s.memory.bytes pa.toNat v⟩ } : Simulator N n)
      (wordOf pa) := h.devices rfl
  rw [h'.readWord_eq, wordOf_toNat]

end RamWord

/-! ## Plain memory -/

theorem inClint_iff : inClint addr = true ↔
    (0x02000000 ≤ addr.toNat ∧ addr.toNat < 0x02010000) ∨
      (0x20000000 ≤ addr.toNat ∧ addr.toNat < 0x20010000) := by
  have h1 : (0x02000000 : Word).toNat = 0x02000000 := rfl
  have h2 : (0x02010000 : Word).toNat = 0x02010000 := rfl
  have h3 : (0x20000000 : Word).toNat = 0x20000000 := rfl
  have h4 : (0x20010000 : Word).toNat = 0x20010000 := rfl
  unfold inClint
  simp only [Bool.or_eq_true, Bool.and_eq_true, decide_eq_true_eq, BitVec.le_def, BitVec.lt_def,
    h1, h2, h3, h4]

/-- Memory consists of whole words and ends before the CLINT and the devices. -/
structure PlainRam (s : Simulator N n) : Prop where
  words : n % 4 = 0
  size : n ≤ 0x02000000
  devices : ∀ dev ∈ s.devices, 0x02000000 ≤ dev.1.toNat

namespace PlainRam

theorem sameData (h : s.PlainRam) (hd : SameData s t) : t.PlainRam :=
  ⟨h.words, h.size, by rw [hd.devices]; exact h.devices⟩

theorem inDevice_eq (h : s.PlainRam) (hlt : addr.toNat < n) :
    ∀ dev ∈ s.devices, inDevice addr dev = false := by
  intro dev hdev
  have hbase := h.devices dev hdev
  have hsize := h.size
  unfold inDevice
  rw [Bool.and_eq_false_iff, decide_eq_false_iff_not, BitVec.le_def]
  exact .inl (by omega)

theorem any_device (h : s.PlainRam) (hlt : addr.toNat < n) :
    ¬s.devices.any (inDevice addr) = true := by
  intro hany
  obtain ⟨dev, hdev, hin⟩ := List.any_eq_true.mp hany
  rw [h.inDevice_eq hlt dev hdev] at hin
  cases hin

theorem inClint_eq (h : s.PlainRam) (hlt : addr.toNat < n) : inClint addr = false := by
  have hsize := h.size
  rw [← Bool.not_eq_true, inClint_iff]
  omega

theorem ramWord (h : s.PlainRam) (hx : 4 * x.toNat < n) : s.RamWord x := by
  have hw := h.words
  refine ⟨by omega, ?_, ?_⟩
  · intro addr haddr
    have hdiv : addr.toNat / 4 = x.toNat := by rw [← haddr, wordOf_toNat]
    exact h.any_device (by omega)
  · rw [h.inClint_eq (by rw [byteAddr_toNat]; exact hx)]
    exact Bool.false_ne_true

theorem ramWord_of (h : s.PlainRam) (hlt : addr.toNat < n) : s.RamWord (wordOf addr) :=
  h.ramWord (by rw [wordOf_toNat]; omega)

end PlainRam

theorem loaded_plainRam (N : Nat) (program : List Word) (regs : Fin N → Cores.Reg → Word)
    (hwords : n % 4 = 0) (hsize : n ≤ 0x02000000) : (loaded N n program regs).PlainRam := by
  refine ⟨hwords, hsize, ?_⟩
  intro dev hdev
  obtain rfl : dev = (uartBase, {}) := List.mem_singleton.mp hdev
  decide

/-! ## The switch -/

/-- What a load leaves of the caches. -/
def afterLoad (t : Simulator N n) (i : Fin N) (addr : Word) : Simulator N n :=
  if hasDataCache addr then t.setHierarchy (t.hierarchy.load i (byteAddr (wordOf addr))).2 else t

/-- A store through the data cache. Parts of a word are loaded first. -/
def storeHierarchy (h : Hierarchy N) (i : Fin N) (op : StoreOp) (addr v : Word) : Hierarchy N :=
  let a := byteAddr (wordOf addr)
  match op with
  | .sw => h.store i a a v
  | .sb | .sh =>
    let (temp, h) := h.load i a
    h.store i a a (insertWord op addr temp v)

def afterStore (t : Simulator N n) (i : Fin N) (op : StoreOp) (addr v : Word) : Simulator N n :=
  if hasDataCache addr then t.setHierarchy (storeHierarchy t.hierarchy i op addr v)
  else { t with memory := ⟨op.apply t.memory.bytes addr.toNat v⟩ }

/-- What the switch decodes of a load. -/
theorem load_fields (instr : Load) (regs : Cores.Reg → Word) :
    opcode instr.encode = 0x03#7 ∧ rdOf instr.encode = instr.rd ∧
      funct3Of instr.encode = instr.op.funct3 ∧
      regs (rs1Of instr.encode) + immI instr.encode = instr.address regs := by
  obtain ⟨hop, hrd, h3, h1, _, _⟩ :=
    iType_fields instr.rs1 instr.op.funct3 instr.rd 0x03 instr.imm
  refine ⟨hop, hrd, h3, ?_⟩
  unfold rs1Of Load.encode
  rw [h1, immI_iType]
  rfl

/-- What the switch decodes of a store. -/
theorem store_fields (instr : Store) (regs : Cores.Reg → Word) :
    opcode instr.encode = 0x23#7 ∧ rs2Of instr.encode = instr.rs2 ∧
      funct3Of instr.encode = instr.op.funct3 ∧
      regs (rs1Of instr.encode) + immS instr.encode = instr.address regs := by
  obtain ⟨hop, _, h3, h1, h2, _⟩ :=
    sType_fields instr.rs2 instr.rs1 instr.op.funct3 0x23 instr.imm
  refine ⟨hop, h2, h3, ?_⟩
  unfold rs1Of Store.encode
  rw [h1, immS_sType]
  rfl

theorem execute_load (t : Simulator N n) (i : Fin N) (instr : Load)
    (hram : (instr.address (t.cores i).regs).toNat < n) :
    let addr := instr.address (t.cores i).regs
    t.execute i instr.encode = .ok (t.loadRam i instr.rd addr
      (if instr.op = .lw then addr else aligned addr) (extractWord instr.op addr)
      (loadDirect instr.op)) := by
  intro addr
  obtain ⟨ho, hrd, h3, haddr⟩ := load_fields instr (t.cores i).regs
  unfold execute
  simp only [ho]
  unfold load
  simp only [haddr, hrd, h3, if_pos hram]
  cases instr.op <;> rfl

theorem execute_store (t : Simulator N n) (i : Fin N) (instr : Store)
    (hram : (instr.address (t.cores i).regs).toNat < n) :
    let addr := instr.address (t.cores i).regs
    let v := (t.cores i).regs instr.rs2
    t.execute i instr.encode = .ok (t.storeRam i addr
      (fun t => match instr.op with
        | .sw => t.dataWrite i addr v
        | .sb | .sh => t.modifyWord i addr (insertWord instr.op addr · v))
      fun t physAddr => storeDirect instr.op t physAddr v) := by
  intro addr v
  obtain ⟨ho, h2, h3, haddr⟩ := store_fields instr (t.cores i).regs
  unfold execute
  simp only [ho]
  unfold store
  simp only [haddr, h2, h3, if_pos hram]
  cases instr.op <;> rfl

/-- The address of a word access is that of its word. -/
theorem lw_addr {op : LoadOp} (ha : addr.toNat % op.size = 0) :
    (if op = .lw then addr else aligned addr) = byteAddr (wordOf addr) := by
  split
  · next h =>
    subst h
    exact (byteAddr_wordOf ha).symm
  · exact aligned_eq addr

/-- A load takes its value out of its word. -/
theorem Untranslated.execute_load (hu : t.Untranslated i) (hp : t.PlainRam) {instr : Load}
    {addr : Word} (haddr : instr.address (t.cores i).regs = addr) (hram : addr.toNat < n)
    (ha : addr.toNat % instr.op.size = 0) :
    t.execute i instr.encode = .ok ((t.afterLoad i addr).finish i instr.rd
      (extractWord instr.op addr (t.ramWord i (byteAddr (wordOf addr))))) := by
  subst haddr
  rw [Simulator.execute_load t i instr hram, lw_addr ha]
  generalize instr.address (t.cores i).regs = addr at hram ha
  unfold loadRam afterLoad ramWord
  rw [hasDataCache_wordOf]
  cases hasDataCache addr with
  | true =>
    simp only [if_true, hu.dataRead_eq]
    rfl
  | false =>
    simp only [hu.translate_eq, (hp.ramWord_of hram).loadDirect_eq instr.op ha]
    rfl

/-- A store puts its operand into its word. -/
theorem Untranslated.execute_store (hu : t.Untranslated i) (hp : t.PlainRam) {instr : Store}
    {addr : Word} (haddr : instr.address (t.cores i).regs = addr) (hram : addr.toNat < n)
    (ha : addr.toNat % instr.op.size = 0) :
    t.execute i instr.encode =
      .ok ((t.afterStore i instr.op addr ((t.cores i).regs instr.rs2)).next i) := by
  subst haddr
  rw [Simulator.execute_store t i instr hram]
  generalize instr.address (t.cores i).regs = addr at hram ha
  generalize (t.cores i).regs instr.rs2 = v
  unfold storeRam afterStore
  cases hasDataCache addr with
  | true =>
    have hmodify : ∀ f, t.modifyWord i addr f = t.setHierarchy
        ((t.hierarchy.load i (byteAddr (wordOf addr))).2.store i (byteAddr (wordOf addr))
          (byteAddr (wordOf addr)) (f (t.hierarchy.load i (byteAddr (wordOf addr))).1)) := by
      intro f
      have hu' : (t.setHierarchy (t.hierarchy.load i (byteAddr (wordOf addr))).2).Untranslated i :=
        hu
      unfold modifyWord
      rw [aligned_eq, hu.dataRead_eq]
      exact hu'.dataWrite_eq ..
    cases hop : instr.op with
    | sb | sh =>
      simp only [if_true, hmodify]
      rfl
    | sw =>
      rw [hop] at ha
      have hword : byteAddr (wordOf addr) = addr := byteAddr_wordOf ha
      simp only [if_true, hu.dataWrite_eq, storeHierarchy, hword]
      rfl
  | false =>
    simp only [hu.translate_eq, (hp.ramWord_of hram).storeDirect_eq instr.op v ha]
    rfl

/-! ## The step -/

theorem Fetches.step_load {instr : Load} (h : s.Fetches i s₁ instr.encode)
    (hg : s.hierarchy.Good) (hu : s.Untranslated i) (hx0 : (s.cores i).regs 0 = 0)
    (hp : s.PlainRam) (haddr : instr.address (s.cores i).regs = addr) (hram : addr.toNat < n)
    (ha : addr.toNat % instr.op.size = 0) :
    ∃ s', s.step i = .ok s' ∧ Retired ((s₁.fetchPc i).2.afterLoad i addr) i
      ((s.cores i).isaState.write instr.rd (extractWord instr.op addr
        ((s₁.fetchPc i).2.ramWord i (byteAddr (wordOf addr))))).regs s' := by
  have ht := h.untranslated hu
  have hpt := hp.sameData (h.sameData hg hu).2
  have hregs := h.regs
  have hstep := h.step_eq
  generalize (s₁.fetchPc i).2 = t at ht hpt hregs hstep ⊢
  rw [ht.execute_load hpt (hregs ▸ haddr) hram ha] at hstep
  refine ⟨_, hstep, ?_⟩
  have hcores : (t.afterLoad i addr).cores = t.cores := by
    unfold afterLoad
    split <;> rfl
  have hret := retire_finish (t.afterLoad i addr) i instr.rd
    (extractWord instr.op addr (t.ramWord i (byteAddr (wordOf addr))))
    (by rw [hcores, hregs, hx0])
  have hwrite : ((t.afterLoad i addr).cores i).isaState.regs = (s.cores i).isaState.regs := by
    rw [hcores]
    exact hregs
  simpa only [State.write, hwrite] using hret

theorem Fetches.step_store {instr : Store} (h : s.Fetches i s₁ instr.encode)
    (hg : s.hierarchy.Good) (hu : s.Untranslated i) (hx0 : (s.cores i).regs 0 = 0)
    (hp : s.PlainRam) (haddr : instr.address (s.cores i).regs = addr) (hram : addr.toNat < n)
    (ha : addr.toNat % instr.op.size = 0) :
    ∃ s', s.step i = .ok s' ∧ Retired ((s₁.fetchPc i).2.afterStore i instr.op addr
      ((s.cores i).regs instr.rs2)) i (s.cores i).regs s' := by
  have ht := h.untranslated hu
  have hpt := hp.sameData (h.sameData hg hu).2
  have hregs := h.regs
  have hstep := h.step_eq
  generalize (s₁.fetchPc i).2 = t at ht hpt hregs hstep ⊢
  rw [ht.execute_store hpt (hregs ▸ haddr) hram ha, hregs] at hstep
  refine ⟨_, hstep, ?_⟩
  generalize (s.cores i).regs instr.rs2 = v
  have hcores : (t.afterStore i instr.op addr v).cores = t.cores := by
    unfold afterStore
    split <;> rfl
  have hret := retire_next (t.afterStore i instr.op addr v) i (by rw [hcores, hregs, hx0])
  rw [hcores, hregs] at hret
  exact hret

end Simulator
end RiscvEmulator.System
