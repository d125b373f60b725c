import RiscvEmulator.Memory.StoreAnywhere
import RiscvEmulator.System.LoadStoreStep

/-! # Misaligned accesses

Nothing traps a halfword or word that is not at a multiple of its size. Past the
data cache it is loaded and stored byte by byte; through the data cache it is
the last halfword of the word of its address, or that word, whatever the address.
At the end of RAM a direct access does nothing. -/
namespace RiscvEmulator.System
open Memory Cores Isa

/-! ## Bytes -/

/-- The byte `b` is one of the `size` bytes from `a` on. -/
def InPlace (a size b : Nat) : Prop := a ≤ b ∧ b < a + size

instance (a size b : Nat) : Decidable (InPlace a size b) := inferInstanceAs (Decidable (_ ∧ _))

/-- A store changes the bytes of its place, low byte first. -/
theorem apply_eq (op : StoreOp) (mem : Bytes) (a : Nat) (v : Word) (b : Nat) :
    op.apply mem a v b = if InPlace a op.size b then v.extractLsb' (8 * (b - a)) 8 else mem b :=
  rfl

theorem byteOf_getLsbD (addr temp : Word) {t : Nat} (ht : t < 8) :
    (Simulator.byteOf addr temp).getLsbD t = temp.getLsbD (8 * (addr.toNat % 4) + t) := by
  unfold Simulator.byteOf
  rw [Simulator.byteShift_toNat, BitVec.getLsbD_setWidth, BitVec.getLsbD_ushiftRight]
  simp [ht]

/-! ## The place the cached path uses -/

/-- The last `size` bytes of the word an address lies in. -/
def usedPlace (size : Nat) (addr : Word) : Nat := 4 * (addr.toNat / 4) + (4 - size)

def usedAddr (size : Nat) (addr : Word) : Word := BitVec.ofNat 32 (usedPlace size addr)

theorem usedAddr_toNat {size : Nat} (addr : Word) (hs : 0 < size) :
    (usedAddr size addr).toNat = usedPlace size addr := by
  have := addr.isLt
  unfold usedAddr usedPlace
  rw [BitVec.toNat_ofNat]
  omega

/-- It is an aligned place of the same word. -/
theorem usedAddr_spec {size : Nat} (addr : Word) (hs : 0 < size) (hdvd : size ∣ 4) :
    (usedAddr size addr).toNat % size = 0 ∧ (usedAddr size addr).toNat / 4 = addr.toNat / 4 ∧
      wordOf (usedAddr size addr) = wordOf addr := by
  have hto := usedAddr_toNat addr hs
  have hle := Nat.le_of_dvd (by decide) hdvd
  have hdiv : (usedAddr size addr).toNat / 4 = addr.toNat / 4 := by
    rw [hto, usedPlace]
    omega
  refine ⟨?_, hdiv, BitVec.eq_of_toNat_eq (by rw [wordOf_toNat, wordOf_toNat, hdiv])⟩
  rw [hto, usedPlace]
  exact Nat.mod_eq_zero_of_dvd
    (Nat.dvd_add (hdvd.trans (Nat.dvd_mul_right ..)) (Nat.dvd_sub hdvd (Nat.dvd_refl _)))

namespace Simulator

/-- A misaligned load takes out of the word what a load of its last bytes does. -/
theorem extractWord_misaligned (op : LoadOp) {addr : Word} (temp : Word)
    (ha : addr.toNat % op.size ≠ 0) :
    extractWord op addr temp = extractWord op (usedAddr op.size addr) temp := by
  have hlow : ¬(addr &&& 0x3 == 0) = true := by
    rw [low_iff]
    intro h
    exact ha (Nat.mod_eq_zero_of_dvd (op.size_dvd.trans (Nat.dvd_of_mod_eq_zero h)))
  have hhalf : op.size = 2 →
      halfwordOf addr temp = halfwordOf (usedAddr op.size addr) temp := by
    intro hs
    have hused : ¬(usedAddr op.size addr &&& 0x3 == 0) = true := by
      rw [low_iff, usedAddr_toNat _ (by omega), usedPlace, hs]
      omega
    unfold halfwordOf
    rw [if_neg hlow, if_neg hused]
  cases op with
  | lb | lbu => exact absurd (Nat.mod_one _) ha
  | lh | lhu =>
    unfold extractWord
    simp only [hhalf rfl]
  | lw => rfl

/-- So does a store put in. -/
theorem insertWord_misaligned (op : StoreOp) {addr : Word} (temp v : Word)
    (ha : addr.toNat % op.size ≠ 0) :
    insertWord op addr temp v = insertWord op (usedAddr op.size addr) temp v := by
  have hlow : ¬(addr &&& 0x3 == 0) = true := by
    rw [low_iff]
    intro h
    exact ha (Nat.mod_eq_zero_of_dvd (op.size_dvd.trans (Nat.dvd_of_mod_eq_zero h)))
  cases op with
  | sb => exact absurd (Nat.mod_one _) ha
  | sh =>
    have hused : ¬(usedAddr 2 addr &&& 0x3 == 0) = true := by
      rw [low_iff, usedAddr_toNat _ (by omega), usedPlace]
      omega
    show insertHalfword addr temp v = insertHalfword (usedAddr 2 addr) temp v
    unfold insertHalfword
    rw [if_neg hlow, if_neg hused]
  | sw => rfl

/-! ## Memory as the core sees it -/

/-- Whether a byte is reached through the data cache. -/
def cachedByte (b : Nat) : Bool := decide (b < 2 ^ 32) && hasDataCache (BitVec.ofNat 32 b)

section
variable {n : Nat}

/-- The simulator's memory, with the words `w` where it is cached. -/
def bytesOver (s : Simulator 1 n) (w : WordAddr → Word) : Bytes := fun b =>
  if cachedByte b then byteOf (BitVec.ofNat 32 b) (w (wordOf (BitVec.ofNat 32 b)))
  else s.memory.bytes b

/-- The bytes of RAM as the core sees them. -/
def ramBytes (s : Simulator 1 n) : Bytes := s.bytesOver s.hierarchy.coreView

/-- The same after what a store to the word `x` drops. -/
def keptBytes (s : Simulator 1 n) (x : WordAddr) : Bytes := s.bytesOver (s.hierarchy.kept x)

theorem cachedByte_toNat (addr : Word) : cachedByte addr.toNat = hasDataCache addr := by
  unfold cachedByte
  rw [BitVec.ofNat_toNat, BitVec.setWidth_eq, decide_eq_true addr.isLt, Bool.true_and]

/-- A byte of the word of an address. -/
theorem byte_of_word {addr : Word} {b : Nat} (hb : b / 4 = addr.toNat / 4) :
    b < 2 ^ 32 ∧ (BitVec.ofNat 32 b).toNat = b ∧ wordOf (BitVec.ofNat 32 b) = wordOf addr ∧
      cachedByte b = hasDataCache addr := by
  have hlt := addr.isLt
  have hto : (BitVec.ofNat 32 b).toNat = b := by
    rw [BitVec.toNat_ofNat]
    omega
  have hword : wordOf (BitVec.ofNat 32 b) = wordOf addr :=
    BitVec.eq_of_toNat_eq (by rw [wordOf_toNat, wordOf_toNat, hto, hb])
  refine ⟨by omega, hto, hword, ?_⟩
  rw [← hasDataCache_wordOf addr, ← hword, hasDataCache_wordOf, ← cachedByte_toNat, hto]

/-- The words show in the bytes. -/
theorem bytesOver_word (s : Simulator 1 n) (w : WordAddr → Word) {addr : Word}
    (hc : hasDataCache addr = true) :
    (s.bytesOver w).word (4 * (addr.toNat / 4)) = w (wordOf addr) := by
  refine BitVec.eq_of_getLsbD_eq fun j hj => ?_
  have hplace : (4 * (addr.toNat / 4) + j / 8) / 4 = addr.toNat / 4 := by omega
  obtain ⟨_, hto, hword, hcached⟩ := byte_of_word hplace
  rw [Bytes.getLsbD_word _ _ hj]
  unfold bytesOver
  rw [hcached, if_pos hc, byteOf_getLsbD _ _ (Nat.mod_lt j (by decide)), hto, hword]
  congr 1
  omega

/-- The bytes after a store through the data cache. -/
theorem bytesOver_apply (s : Simulator 1 n) (w : WordAddr → Word) (op : StoreOp) {addr : Word}
    (v : Word) (hc : hasDataCache addr = true) (ha : addr.toNat % op.size = 0) :
    s.bytesOver (Function.update w (wordOf addr) (insertWord op addr (w (wordOf addr)) v)) =
      op.apply (s.bytesOver w) addr.toNat v := by
  have hsize : op.size ∣ 4 := op.size_dvd
  funext b
  by_cases hb : b / 4 = addr.toNat / 4
  · obtain ⟨_, hto, hword, hcached⟩ := byte_of_word hb
    have hbyte := byteOf_word (op.apply (s.bytesOver w) addr.toNat v) (BitVec.ofNat 32 b)
    rw [hto, hb, ← insertWord_word op _ v ha, bytesOver_word s w hc] at hbyte
    rw [← hbyte]
    show (if cachedByte b then _ else _) = _
    rw [hcached, if_pos hc, hword, Function.update_self]
  · have hout : ¬(addr.toNat ≤ b ∧ b < addr.toNat + op.size) := by
      cases op <;> simp only [StoreOp.size] at ha ⊢ <;> omega
    show _ = if _ then _ else _
    rw [if_neg hout]
    unfold bytesOver
    split
    · next hcached =>
      have hlt : b < 2 ^ 32 := of_decide_eq_true (Bool.and_eq_true_iff.mp hcached).1
      have hne : wordOf (BitVec.ofNat 32 b) ≠ wordOf addr := by
        intro h
        have hto := congrArg BitVec.toNat h
        rw [wordOf_toNat, wordOf_toNat, BitVec.toNat_ofNat, Nat.mod_eq_of_lt hlt] at hto
        exact hb hto
      rw [Function.update_of_ne hne]
    · rfl

/-! ## What the instructions do -/

variable {s s₁ t u : Simulator 1 n} {addr v : Word}

/-- One core with consistent caches that does not translate addresses. -/
structure Alone (s : Simulator 1 n) : Prop where
  good : s.hierarchy.Good
  clean : s.hierarchy.Clean
  untranslated : s.Untranslated 0
  zero : (s.cores 0).regs 0 = 0

theorem bytesOver_congr (h : t.memory = s.memory) : t.bytesOver = s.bytesOver := by
  unfold bytesOver
  rw [h]

theorem SameData.coreView_eq (h : SameData s t) : t.hierarchy.coreView = s.hierarchy.coreView := by
  unfold Hierarchy.coreView
  rw [h.shared]

theorem SameData.ramBytes (h : SameData s t) : t.ramBytes = s.ramBytes := by
  unfold Simulator.ramBytes
  rw [bytesOver_congr h.memory, h.coreView_eq]

theorem SameData.keptBytes (h : SameData s t) (x : WordAddr) : t.keptBytes x = s.keptBytes x := by
  have hkept : t.hierarchy.kept x = s.hierarchy.kept x := by
    funext y
    unfold Hierarchy.kept
    rw [h.coreView_eq, h.shared]
  unfold Simulator.keptBytes
  rw [bytesOver_congr h.memory, hkept]

theorem Alone.fetched {instr : Word} (h : s.Alone) (hf : s.Fetches 0 s₁ instr) :
    (s₁.fetchPc 0).2.Alone ∧ SameData s (s₁.fetchPc 0).2 := by
  obtain ⟨hg, hd⟩ := hf.sameData h.good h.untranslated
  refine ⟨⟨hg, ?_, hf.untranslated h.untranslated, ?_⟩, hd⟩
  · unfold Hierarchy.Clean
    rw [hd.shared]
    exact h.clean
  · rw [hf.regs]
    exact h.zero

/-- What a misaligned load of RAM puts into its register. -/
def loadedValue (s : Simulator 1 n) (op : LoadOp) (addr : Word) : Word :=
  if hasDataCache addr then op.eval s.ramBytes (usedPlace op.size addr)
  else op.eval s.memory.bytes addr.toNat

/-- The bytes after a misaligned store of RAM. -/
def storedBytes (s : Simulator 1 n) (op : StoreOp) (addr v : Word) : Bytes :=
  if hasDataCache addr then
    op.apply (s.keptBytes (wordOf addr)) (usedPlace op.size addr) v
  else fun b => if cachedByte b then s.ramBytes b else op.apply s.memory.bytes addr.toNat v b

theorem Alone.execute_load (h : u.Alone) {instr : Load}
    (haddr : instr.address (u.cores 0).regs = addr) (hram : u.RamAddr addr)
    (hmis : addr.toNat % instr.op.size ≠ 0) (hend : addr.toNat + instr.op.size ≤ n) :
    u.execute 0 instr.encode =
        .ok ((u.afterLoad 0 addr).finish 0 instr.rd (u.loadedValue instr.op addr)) ∧
      (u.afterLoad 0 addr).ramBytes = u.ramBytes := by
  have hstep := Simulator.execute_load u 0 instr (haddr ▸ hram.inside)
  simp only [haddr] at hstep
  rw [hstep]
  unfold loadRam afterLoad loadedValue
  cases hc : hasDataCache addr with
  | true =>
    obtain ⟨hvalue, _, _, hview, _⟩ := h.good.load h.clean (wordOf addr)
    have hused : instr.op.eval u.ramBytes (usedPlace instr.op.size addr) =
        extractWord instr.op addr (u.hierarchy.coreView (wordOf addr)) := by
      obtain ⟨halign, hdiv, hword⟩ := usedAddr_spec addr instr.op.size_pos instr.op.size_dvd
      have hextract := extractWord_word instr.op u.ramBytes halign
      rw [hdiv, usedAddr_toNat _ instr.op.size_pos] at hextract
      have hview : u.ramBytes.word (4 * (addr.toNat / 4)) = u.hierarchy.coreView (wordOf addr) :=
        bytesOver_word u _ hc
      rw [← hextract, extractWord_misaligned _ _ hmis, hview]
    have hat : u.hierarchy.load 0 (if instr.op = .lw then addr else aligned addr) =
        u.hierarchy.load 0 (byteAddr (wordOf addr)) := by
      split
      · exact Hierarchy.load_wordOf ..
      · rw [aligned_eq]
    simp only [if_true, h.untranslated.dataRead_eq, hat, hvalue, hused]
    refine ⟨rfl, ?_⟩
    unfold ramBytes
    rw [setHierarchy_hierarchy, hview]
    rfl
  | false =>
    simp only [h.untranslated.translate_eq, hram.loadDirect_eq instr.op hend]
    exact ⟨rfl, rfl⟩

/-- The words after a store through the data cache. -/
theorem Alone.cachedStore (h : u.Alone) (op : StoreOp) (v : Word) (hc : hasDataCache addr = true)
    (hmis : addr.toNat % op.size ≠ 0) :
    let u' := match op with
      | .sw => u.dataWrite 0 addr v
      | .sb | .sh => u.modifyWord 0 addr (insertWord op addr · v)
    u'.cores = u.cores ∧ u'.memory = u.memory ∧
      u'.hierarchy.coreView = Function.update (u.hierarchy.kept (wordOf addr)) (wordOf addr)
        (insertWord op addr (u.hierarchy.coreView (wordOf addr)) v) := by
  have hx := hasDataCache_word ((hasDataCache_wordOf addr).trans hc)
  cases op with
  | sb => exact absurd (Nat.mod_one _) hmis
  | sh =>
    obtain ⟨hvalue, hg, hclean, _, hkept⟩ := h.good.load h.clean (wordOf addr)
    have hstore := hg.store hclean (byteAddr (wordOf addr))
      (insertWord .sh addr (u.hierarchy.coreView (wordOf addr)) v) (by rwa [wordOf_byteAddr])
    rw [wordOf_byteAddr, hkept] at hstore
    have hu : Untranslated
        { u with hierarchy := (u.hierarchy.load 0 (byteAddr (wordOf addr))).2 } 0 :=
      h.untranslated
    simp only [modifyWord, aligned_eq, h.untranslated.dataRead_eq, hu.dataWrite_eq, hvalue]
    exact ⟨trivial, trivial, hstore⟩
  | sw =>
    simp only [h.untranslated.dataWrite_eq]
    exact ⟨trivial, trivial, h.good.store h.clean addr v hx⟩

theorem Alone.execute_store (h : u.Alone) {instr : Store}
    (haddr : instr.address (u.cores 0).regs = addr) (hram : u.RamAddr addr)
    (hmis : addr.toNat % instr.op.size ≠ 0) (hend : addr.toNat + instr.op.size ≤ n) :
    ∃ u' : Simulator 1 n, u.execute 0 instr.encode = .ok (u'.next 0) ∧ u'.cores = u.cores ∧
      u'.ramBytes = u.storedBytes instr.op addr ((u.cores 0).regs instr.rs2) := by
  have hstep := Simulator.execute_store u 0 instr (haddr ▸ hram.inside)
  simp only [haddr] at hstep
  rw [hstep]
  generalize (u.cores 0).regs instr.rs2 = v
  unfold storeRam storedBytes
  cases hc : hasDataCache addr with
  | true =>
    obtain ⟨hcores, hmemory, hview⟩ := h.cachedStore instr.op v hc hmis
    obtain ⟨halign, _, hword⟩ := usedAddr_spec addr instr.op.size_pos instr.op.size_dvd
    have hused : hasDataCache (usedAddr instr.op.size addr) = true := by
      rw [← hasDataCache_wordOf, hword, hasDataCache_wordOf, hc]
    have hbytes := bytesOver_apply u (u.hierarchy.kept (wordOf addr)) instr.op v hused halign
    rw [hword, usedAddr_toNat _ instr.op.size_pos, Hierarchy.kept_self,
      ← insertWord_misaligned _ _ _ hmis] at hbytes
    simp only [if_true]
    refine ⟨_, rfl, hcores, ?_⟩
    unfold keptBytes
    rw [← hbytes, ← hview]
    exact congrFun (bytesOver_congr hmemory) _
  | false =>
    simp only [h.untranslated.translate_eq, hram.storeDirect_eq instr.op v hend]
    refine ⟨_, rfl, rfl, ?_⟩
    funext b
    unfold ramBytes bytesOver
    simp only [Bool.false_eq_true, if_false]
    split <;> rfl

/-! ## When an access is right -/

/-- The instruction leaves the switch through the exception handler. -/
def Traps (s : Simulator 1 n) (instr : Word) : Prop :=
  ∃ t, s.execute core0 instr = .ok (.fault t)

/-- The load has the bytes from its address on, all of them in RAM, low byte first. -/
structure LoadsBytes (s t : Simulator 1 n) (instr : Load) : Prop where
  inside : (instr.address (s.cores 0).regs).toNat + instr.op.size ≤ n
  regs : (t.cores 0).regs = ((s.cores 0).isaState.write instr.rd
    (instr.op.eval s.ramBytes (instr.address (s.cores 0).regs).toNat)).regs
  bytes : ∀ b < n, t.ramBytes b = s.ramBytes b

/-- The store has changed the bytes from its address on, all of them in RAM. -/
structure StoresBytes (s t : Simulator 1 n) (instr : Store) : Prop where
  inside : (instr.address (s.cores 0).regs).toNat + instr.op.size ≤ n
  regs : (t.cores 0).regs = (s.cores 0).regs
  bytes : ∀ b < n, t.ramBytes b = instr.op.apply s.ramBytes
    (instr.address (s.cores 0).regs).toNat ((s.cores 0).regs instr.rs2) b

/-- Nobody asks for the value, or the bytes the path reads are those at the address. -/
def LoadMatches (s : Simulator 1 n) (instr : Load) (addr : Word) : Prop :=
  instr.rd = 0 ∨ ∀ k < instr.op.size, s.ramBytes (addr.toNat + k) =
    if hasDataCache addr then s.ramBytes (usedPlace instr.op.size addr + k)
    else s.memory.bytes (addr.toNat + k)

/-- The last `size` bytes of the word and the bytes at the address, where only one
of the two places has them, already are what the store makes of them; in both the
operand has the same byte for both; and no other byte is dropped. -/
structure CachedStoreMatches (s : Simulator 1 n) (size : Nat) (addr v : Word) : Prop where
  both : ∀ b < n, InPlace (usedPlace size addr) size b → InPlace addr.toNat size b →
    v.extractLsb' (8 * (b - usedPlace size addr)) 8 = v.extractLsb' (8 * (b - addr.toNat)) 8
  stray : ∀ b < n, InPlace (usedPlace size addr) size b → ¬InPlace addr.toNat size b →
    v.extractLsb' (8 * (b - usedPlace size addr)) 8 = s.ramBytes b
  missed : ∀ b < n, ¬InPlace (usedPlace size addr) size b → InPlace addr.toNat size b →
    s.keptBytes (wordOf addr) b = v.extractLsb' (8 * (b - addr.toNat)) 8
  others : ∀ b < n, ¬InPlace (usedPlace size addr) size b → ¬InPlace addr.toNat size b →
    s.keptBytes (wordOf addr) b = s.ramBytes b

/-- Past the cache, the cached bytes of the place already are what is stored. -/
def StoreMatches (s : Simulator 1 n) (instr : Store) (addr v : Word) : Prop :=
  if hasDataCache addr then s.CachedStoreMatches instr.op.size addr v
  else ∀ b, InPlace addr.toNat instr.op.size b → cachedByte b →
    s.ramBytes b = v.extractLsb' (8 * (b - addr.toNat)) 8

theorem storedBytes_eq_iff (s : Simulator 1 n) (instr : Store) {addr : Word} (v : Word)
    (hend : addr.toNat + instr.op.size ≤ n) :
    (∀ b < n, s.storedBytes instr.op addr v b = instr.op.apply s.ramBytes addr.toNat v b) ↔
      s.StoreMatches instr addr v := by
  unfold storedBytes StoreMatches
  cases hasDataCache addr with
  | true =>
    simp only [if_true, apply_eq]
    constructor
    · intro h
      constructor <;> intro b hb hused haddr <;> have hbyte := h b hb <;>
        simpa only [hused, haddr, if_true, if_false] using hbyte
    · intro h b hb
      by_cases hused : InPlace (usedPlace instr.op.size addr) instr.op.size b <;>
        by_cases haddr : InPlace addr.toNat instr.op.size b <;>
        simp only [hused, haddr, if_true, if_false]
      · exact h.both b hb hused haddr
      · exact h.stray b hb hused haddr
      · exact h.missed b hb hused haddr
      · exact h.others b hb hused haddr
  | false =>
    simp only [Bool.false_eq_true, if_false, apply_eq]
    constructor
    · intro h b haddr hcached
      have hbyte := h b (Nat.lt_of_lt_of_le haddr.2 hend)
      simpa only [hcached, haddr, if_true] using hbyte
    · intro h b _
      by_cases haddr : InPlace addr.toNat instr.op.size b
      · rw [if_pos haddr]
        split
        · next hcached => exact h b haddr hcached
        · rfl
      · rw [if_neg haddr]
        split
        · rfl
        · next hcached => exact (if_neg hcached).symm

theorem loadedValue_eq_iff (s : Simulator 1 n) (instr : Load) (addr : Word) :
    ((s.cores 0).isaState.write instr.rd (s.loadedValue instr.op addr)).regs =
        ((s.cores 0).isaState.write instr.rd (instr.op.eval s.ramBytes addr.toNat)).regs ↔
      s.LoadMatches instr addr := by
  have hvalue : s.loadedValue instr.op addr = instr.op.eval s.ramBytes addr.toNat ↔
      ∀ k < instr.op.size, s.ramBytes (addr.toNat + k) =
        if hasDataCache addr then s.ramBytes (usedPlace instr.op.size addr + k)
        else s.memory.bytes (addr.toNat + k) := by
    rw [eq_comm]
    unfold loadedValue
    split <;> exact LoadOp.eval_eq_iff ..
  unfold LoadMatches
  rw [← hvalue]
  by_cases hrd : instr.rd = 0
  · simp [hrd, State.write]
  · constructor
    · intro h
      have hself := congrFun h instr.rd
      rw [State.write_self _ _ hrd, State.write_self _ _ hrd] at hself
      exact .inr hself
    · intro h
      rw [h.resolve_left hrd]

/-! ## The step -/

theorem Untranslated.loadRam_done (hu : u.Untranslated 0) (rd : Cores.Reg) (addr cachedAddr : Word)
    (extract : Word → Word) (direct : Simulator 1 n → Word → Word) :
    ∃ t, u.loadRam 0 rd addr cachedAddr extract direct = .done t := by
  unfold loadRam
  split
  · exact ⟨_, rfl⟩
  · rw [hu.translate_eq]
    exact ⟨_, rfl⟩

theorem Untranslated.storeRam_done (hu : u.Untranslated 0) (addr : Word)
    (cached : Simulator 1 n → Simulator 1 n) (direct : Simulator 1 n → Word → Simulator 1 n) :
    ∃ t, u.storeRam 0 addr cached direct = .done t := by
  unfold storeRam
  split
  · exact ⟨_, rfl⟩
  · rw [hu.translate_eq]
    exact ⟨_, rfl⟩

/-- A load or a store. -/
inductive Transfer where
  | load (instr : Load)
  | store (instr : Store)

namespace Transfer

def encode : Transfer → Word
  | load instr => instr.encode
  | store instr => instr.encode

def size : Transfer → Nat
  | load instr => instr.op.size
  | store instr => instr.op.size

def address (m : Transfer) (s : Simulator 1 n) : Word :=
  match m with
  | load instr => instr.address (s.cores core0).regs
  | store instr => instr.address (s.cores core0).regs

/-- The access of an array of bytes. -/
def Performed (m : Transfer) (s t : Simulator 1 n) : Prop :=
  match m with
  | load instr => s.LoadsBytes t instr
  | store instr => s.StoresBytes t instr

/-- The bytes the code uses instead of those at the address do not show. -/
def Matches (m : Transfer) (s : Simulator 1 n) : Prop :=
  match m with
  | load instr => s.LoadMatches instr (m.address s)
  | store instr => s.StoreMatches instr (m.address s) ((s.cores core0).regs instr.rs2)

/-- The access of an array of bytes, or a trap with nothing changed. `u` is the
state after the fetch. -/
def Lawful (m : Transfer) (s u t : Simulator 1 n) : Prop :=
  m.Performed s t ∨ (u.Traps m.encode ∧ (t.cores core0).regs = (s.cores core0).regs ∧
    ∀ b < n, t.ramBytes b = s.ramBytes b)

/-- With translation off the switch is not left through the exception handler. -/
theorem execute_done (m : Transfer) (hu : u.Untranslated 0) (hram : (m.address u).toNat < n) :
    ∃ t, u.execute 0 m.encode = .ok (.done t) := by
  cases m with
  | load instr =>
    obtain ⟨t, ht⟩ := hu.loadRam_done instr.rd (instr.address (u.cores 0).regs) _ _ _
    exact ⟨t, (Simulator.execute_load u 0 instr hram).trans (congrArg _ ht)⟩
  | store instr =>
    obtain ⟨t, ht⟩ := hu.storeRam_done (instr.address (u.cores 0).regs) _ _
    exact ⟨t, (Simulator.execute_store u 0 instr hram).trans (congrArg _ ht)⟩

end Transfer

theorem Alone.step_load {instr : Load} (h : s.Alone) (hf : s.Fetches 0 s₁ instr.encode)
    (haddr : instr.address (s.cores 0).regs = addr) (hram : s.RamAddr addr)
    (hmis : addr.toNat % instr.op.size ≠ 0) (hend : addr.toNat + instr.op.size ≤ n)
    (hstep : s.step 0 = .ok t) : s.LoadsBytes t instr ↔ s.LoadMatches instr addr := by
  obtain ⟨hu, hd⟩ := h.fetched hf
  have hregs := hf.regs
  have hs := hf.step_eq
  generalize (s₁.fetchPc 0).2 = u at hu hd hregs hs
  obtain ⟨hexec, hbytes⟩ := hu.execute_load (hregs ▸ haddr) (hram.devices hd.devices) hmis hend
  rw [hexec, hstep] at hs
  obtain rfl := Except.ok.inj hs
  have hcores : (u.afterLoad 0 addr).cores = u.cores := by
    unfold Simulator.afterLoad
    split <;> rfl
  have hret := retire_finish (u.afterLoad 0 addr) 0 instr.rd (u.loadedValue instr.op addr)
    (by rw [hcores, hregs]; exact h.zero)
  have hvalue : u.loadedValue instr.op addr = s.loadedValue instr.op addr := by
    unfold loadedValue
    rw [hd.ramBytes, hd.memory]
  have hwrite : ((u.afterLoad 0 addr).cores 0).isaState.regs = (s.cores 0).isaState.regs := by
    rw [hcores]
    exact hregs
  rw [hvalue] at hret ⊢
  have hfinal : ((retire 0 ((u.afterLoad 0 addr).finish 0 instr.rd
      (s.loadedValue instr.op addr))).cores 0).regs =
        ((s.cores 0).isaState.write instr.rd (s.loadedValue instr.op addr)).regs := by
    simpa only [State.write, hwrite] using hret.regs
  rw [← loadedValue_eq_iff, ← hfinal]
  subst haddr
  constructor
  · intro hl
    exact hl.regs
  · intro hl
    refine ⟨hend, hl, fun b _ => ?_⟩
    rw [hret.data.ramBytes, hbytes, hd.ramBytes]

theorem Alone.step_store {instr : Store} (h : s.Alone) (hf : s.Fetches 0 s₁ instr.encode)
    (haddr : instr.address (s.cores 0).regs = addr) (hram : s.RamAddr addr)
    (hmis : addr.toNat % instr.op.size ≠ 0) (hend : addr.toNat + instr.op.size ≤ n)
    (hstep : s.step 0 = .ok t) :
    s.StoresBytes t instr ↔ s.StoreMatches instr addr ((s.cores 0).regs instr.rs2) := by
  obtain ⟨hu, hd⟩ := h.fetched hf
  have hregs := hf.regs
  have hs := hf.step_eq
  generalize (s₁.fetchPc 0).2 = u at hu hd hregs hs
  obtain ⟨u', hexec, hcores, hbytes⟩ :=
    hu.execute_store (hregs ▸ haddr) (hram.devices hd.devices) hmis hend
  rw [hexec, hstep] at hs
  obtain rfl := Except.ok.inj hs
  have hret := retire_next u' 0 (by rw [hcores, hregs]; exact h.zero)
  have hstored : u.storedBytes instr.op addr = s.storedBytes instr.op addr := by
    unfold storedBytes
    rw [hd.keptBytes, hd.ramBytes, hd.memory]
  rw [hregs, hstored] at hbytes
  rw [hcores, hregs] at hret
  rw [← storedBytes_eq_iff s instr _ hend, ← hbytes, ← hret.data.ramBytes]
  subst haddr
  constructor
  · intro hl
    exact hl.bytes
  · intro hl
    exact ⟨hend, hret.regs, hl⟩

/-- No load or store of RAM traps. -/
theorem Alone.never_traps {m : Transfer} (hs : s.Alone) (hf : s.Fetches 0 s₁ m.encode)
    (hram : s.RamAddr (m.address s)) :
    ¬(s₁.fetchPc 0).2.Traps m.encode ∧ ∃ t, s.step 0 = .ok t := by
  have haddr : m.address (s₁.fetchPc 0).2 = m.address s := by
    cases m with
    | load instr => exact congrArg instr.address hf.regs
    | store instr => exact congrArg instr.address hf.regs
  obtain ⟨v, hv⟩ := m.execute_done (hs.fetched hf).1.untranslated (haddr ▸ hram.inside)
  have hstep := hf.step_eq
  rw [hv] at hstep
  refine ⟨?_, _, hstep⟩
  rintro ⟨w, hw⟩
  cases hv.symm.trans hw

/-- A misaligned halfword or word of RAM never traps, wherever it is cached. It is
the access of the bytes from its address on exactly if these are all in RAM and
those the code uses instead do not show. -/
theorem misaligned_iff {m : Transfer} (hs : s.Alone) (hf : s.Fetches 0 s₁ m.encode)
    (hram : s.RamAddr (m.address s)) (hmis : (m.address s).toNat % m.size ≠ 0) :
    ¬(s₁.fetchPc 0).2.Traps m.encode ∧ ∃ t, s.step 0 = .ok t ∧
      (m.Lawful s (s₁.fetchPc 0).2 t ↔ (m.address s).toNat + m.size ≤ n ∧ m.Matches s) := by
  obtain ⟨htrap, t, hstep⟩ := hs.never_traps hf hram
  refine ⟨htrap, t, hstep, ?_⟩
  unfold Transfer.Lawful
  rw [or_iff_left fun h => htrap h.1]
  cases m with
  | load instr =>
    constructor
    · intro h
      exact ⟨h.inside, (hs.step_load hf rfl hram hmis h.inside hstep).mp h⟩
    · intro h
      exact (hs.step_load hf rfl hram hmis h.1 hstep).mpr h.2
  | store instr =>
    constructor
    · intro h
      exact ⟨h.inside, (hs.step_store hf rfl hram hmis h.inside hstep).mp h⟩
    · intro h
      exact (hs.step_store hf rfl hram hmis h.1 hstep).mpr h.2

end

/-! ## A program -/

theorem alone_of_private {n : Nat} {s : Simulator 1 n} (hp : s.hierarchy.Private)
    (hu : s.Untranslated 0) (h0 : (s.cores 0).regs 0 = 0) : s.Alone :=
  ⟨hp.good, hp.toClean, hu, h0⟩

def storeAt : Store := ⟨.sw, 6, 5, 0⟩

/-- One core about to store 0x11223344 at `x5`. -/
def aboutStore (addr : Word) : Simulator 1 0x100000 :=
  loaded 1 0x100000 [storeAt.encode] fun _ r =>
    if r = 5 then addr else if r = 6 then 0x11223344 else 0

theorem aboutStore_alone (addr : Word) : (aboutStore addr).Alone :=
  alone_of_private (Hierarchy.Private.init _) (loaded_untranslated ..) rfl

theorem aboutStore_address (addr : Word) :
    storeAt.address ((aboutStore addr).cores 0).regs = addr :=
  BitVec.add_zero addr

/-- Past the data cache the store is right. -/
theorem misaligned_iff_uncached : ∃ s₁ t, (aboutStore 0xB0001).step 0 = .ok t ∧
    (Transfer.store storeAt).Lawful (aboutStore 0xB0001) s₁ t := by
  obtain ⟨s₁, hf⟩ := loaded_fetches 1 0x100000
    (fun _ r => if r = 5 then 0xB0001 else if r = 6 then 0x11223344 else 0) 0 storeAt.encode
  have haddr := aboutStore_address 0xB0001
  have hram : (aboutStore 0xB0001).RamAddr 0xB0001 := ⟨by decide, by decide, by decide⟩
  obtain ⟨_, t, ht, hiff⟩ := misaligned_iff (m := .store storeAt) (aboutStore_alone 0xB0001) hf
    (haddr ▸ hram) (by decide)
  refine ⟨_, t, ht, hiff.mpr ⟨by decide, ?_⟩⟩
  intro b hb hcached
  -- no byte of the place is cached
  have hranges := (hasDataCache_iff _).mp (Bool.and_eq_true_iff.mp hcached).2
  obtain ⟨hlow, hhigh⟩ := hb
  change 0xB0001 ≤ b at hlow
  change b < 0xB0005 at hhigh
  rw [BitVec.toNat_ofNat] at hranges
  omega

theorem misaligned_word_wrong : ¬∀ (s s₁ t : Simulator 1 0x100000) (m : Transfer), s.Alone →
    s.Fetches 0 s₁ m.encode → s.RamAddr (m.address s) → (m.address s).toNat % m.size ≠ 0 →
    s.step 0 = .ok t → m.Lawful s (s₁.fetchPc 0).2 t := by
  intro h
  obtain ⟨s₁, hf⟩ := loaded_fetches 1 0x100000
    (fun _ r => if r = 5 then 0x50002 else if r = 6 then 0x11223344 else 0) 0 storeAt.encode
  have hs := aboutStore_alone 0x50002
  have haddr := aboutStore_address 0x50002
  have hram : (aboutStore 0x50002).RamAddr 0x50002 := ⟨by decide, by decide, by decide⟩
  obtain ⟨htrap, t, hstep⟩ := Alone.never_traps (m := .store storeAt) hs hf (haddr ▸ hram)
  have hlaw := h _ _ _ (.store storeAt) hs hf (haddr ▸ hram) (by decide) hstep
  have hdone := hlaw.resolve_right fun ht => htrap ht.1
  have hmatch := (hs.step_store hf haddr hram (by decide) (by decide) hstep).mp hdone
  -- the byte before the address is not what the store puts there
  have hstray := hmatch.stray 0x50000 (by decide) (by decide) (by decide)
  revert hstray
  decide +kernel

end Simulator
end RiscvEmulator.System
