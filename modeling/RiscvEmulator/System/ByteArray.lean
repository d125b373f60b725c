import RiscvEmulator.Memory.SingleCore
import RiscvEmulator.System.LoadStoreStep

/-! # One core's memory is an array of bytes

Aligned loads and stores of one core, outside the line of the write-through
window. Cached words live in two cache levels over DDR and the others in the
simulator's own memory; if DDR starts with what that memory has, no load can tell
them from one little-endian array. -/
namespace RiscvEmulator.System
open Memory Cores Isa Lib.LineCache

/-- An executed load, with what it has left in `rd`, or an executed store. -/
inductive MemoryEvent where
  | load (op : LoadOp) (rd : Isa.Reg) (addr result : Word)
  | store (op : StoreOp) (addr operand : Word)
deriving DecidableEq, Repr

/-- The accesses one after another on an array of bytes, which ends as `b'`. -/
def OnByteArray (b : Bytes) : List MemoryEvent → Bytes → Prop
  | [], b' => b' = b
  | .load op rd addr result :: es, b' =>
    (rd ≠ 0 → result = op.eval b addr.toNat) ∧ OnByteArray b es b'
  | .store op addr operand :: es, b' => OnByteArray (op.apply b addr.toNat operand) es b'

/-- An aligned address of RAM outside the line of the window. -/
structure Accessible (n size : Nat) (addr : Word) : Prop where
  ram : addr.toNat < n
  aligned : addr.toNat % size = 0
  outside : ¬InWindowLine (wordOf addr)

namespace Simulator
variable {n : Nat} {s s₁ s' t : Simulator 1 n} {b : Bytes} {addr v : Word}

/-- Runs of aligned loads and stores, and between them steps without data access. -/
inductive ByteRun : Simulator 1 n → List MemoryEvent → Simulator 1 n → Prop
  | nil (s : Simulator 1 n) : ByteRun s [] s
  | quiet {s s' t : Simulator 1 n} {es : List MemoryEvent} :
    s.QuietStep 0 s' → ByteRun s' es t → ByteRun s es t
  | load {s s₁ s' t : Simulator 1 n} {instr : Load} {es : List MemoryEvent} :
    s.Fetches 0 s₁ instr.encode →
    Accessible n instr.op.size (instr.address (s.cores 0).regs) →
    s.step 0 = .ok s' → ByteRun s' es t →
    ByteRun s (.load instr.op instr.rd (instr.address (s.cores 0).regs)
      ((s'.cores 0).regs instr.rd) :: es) t
  | store {s s₁ s' t : Simulator 1 n} {instr : Store} {es : List MemoryEvent} :
    s.Fetches 0 s₁ instr.encode →
    Accessible n instr.op.size (instr.address (s.cores 0).regs) →
    s.step 0 = .ok s' → ByteRun s' es t →
    ByteRun s (.store instr.op (instr.address (s.cores 0).regs)
      ((s.cores 0).regs instr.rs2) :: es) t

/-! ## The refinement -/

/-- The state holds the array `b`, but for the line of the window. -/
structure Holds (s : Simulator 1 n) (b : Bytes) : Prop where
  hierarchy : s.hierarchy.Private
  untranslated : s.Untranslated 0
  zero : (s.cores 0).regs 0 = 0
  ram : s.PlainRam
  words : ∀ x : WordAddr, 4 * x.toNat < n → ¬InWindowLine x →
    s.ramWord 0 (byteAddr x) = b.word (4 * x.toNat)

/-- Empty caches over a DDR that has what memory has, where words are cached. -/
structure Starts (ddr : DDRMemory) (s : Simulator 1 n) : Prop where
  empty : s.hierarchy = Hierarchy.init 1 ddr
  untranslated : s.Untranslated 0
  zero : (s.cores 0).regs 0 = 0
  ram : s.PlainRam
  contents : ∀ a : Word, a.toNat < n → hasDataCache a = true →
    ddr.bytes a.toNat = s.memory.bytes a.toNat

theorem ramWord_coreView {x : WordAddr} (hp : s.hierarchy.Private)
    (hc : hasDataCache (byteAddr x) = true) :
    s.ramWord 0 (byteAddr x) = s.hierarchy.coreView x :=
  ramWord_cached hc hp.good 0

theorem ramWord_memory {x : WordAddr} (hp : s.PlainRam) (hx : 4 * x.toNat < n)
    (hc : hasDataCache (byteAddr x) = false) :
    s.ramWord 0 (byteAddr x) = Bytes.word s.memory.bytes (4 * x.toNat) := by
  rw [ramWord_uncached hc, (hp.ramWord hx).readWord_eq]

theorem Starts.readWord {ddr : DDRMemory} {x : WordAddr} (h : Starts ddr s)
    (hx : 4 * x.toNat < n) (hc : hasDataCache (byteAddr x) = true) :
    ddr.readWord (byteAddr x) = s.readWord (byteAddr x) := by
  have hw := h.ram.words
  have hx' := hasDataCache_word hc
  have hsize : 4 * x.toNat + 4 ≤ ddrSize := by
    have : ddrSize = 0x40000000 := rfl
    omega
  rw [(h.ram.ramWord hx).readWord_eq, ← load32_eq_word, ByteMemory.readWord, byteAddr_toNat,
    if_pos hsize]
  refine load32_congr fun k hk => ?_
  obtain ⟨b, hb, hcb⟩ := cached_byte hc hk
  have hbyte := h.contents b (by omega) hcb
  rwa [hb] at hbyte

theorem Starts.holds {ddr : DDRMemory} (h : Starts ddr s) : s.Holds s.memory.bytes where
  hierarchy := h.empty ▸ Hierarchy.Private.init ddr
  untranslated := h.untranslated
  zero := h.zero
  ram := h.ram
  words x hx _ := by
    cases hc : hasDataCache (byteAddr x) with
    | false => exact ramWord_memory h.ram hx hc
    | true =>
      have hview : (Hierarchy.init 1 ddr).coreView x = ddr.readWord (byteAddr x) :=
        Hierarchy.init_memory (N := 1) ddr x
      rw [ramWord_coreView (h.empty ▸ Hierarchy.Private.init ddr) hc, h.empty, hview,
        h.readWord hx hc, (h.ram.ramWord hx).readWord_eq]

/-- Changes of the state that no load finds. -/
theorem Holds.frame (h : s.Holds b) (hd : SameData s t) (hg : t.hierarchy.Good)
    (h0 : (t.cores 0).regs 0 = 0) : t.Holds b where
  hierarchy := h.hierarchy.of_shared hg hd.shared
  untranslated := hd.untranslated h.untranslated
  zero := h0
  ram := h.ram.sameData hd
  words x hx hw := by
    have hword := h.words x hx hw
    cases hc : hasDataCache (byteAddr x) with
    | true =>
      rw [ramWord_cached hc hg, hd.shared, ← ramWord_cached hc h.hierarchy.good]
      exact hword
    | false =>
      rw [ramWord_uncached hc, hd.readWord, ← ramWord_uncached hc 0]
      exact hword

/-! ## Loads and stores -/

theorem Holds.ramWord (h : s.Holds b) {size : Nat} (ha : Accessible n size addr) :
    s.ramWord 0 (byteAddr (wordOf addr)) = b.word (4 * (addr.toNat / 4)) := by
  have hram := ha.ram
  have hword := h.words (wordOf addr) (by rw [wordOf_toNat]; omega) ha.outside
  rwa [wordOf_toNat] at hword

/-- A load changes no word. -/
theorem Holds.afterLoad (h : s.Holds b) (addr : Word) : (s.afterLoad 0 addr).Holds b := by
  obtain ⟨_, hp, hview⟩ := h.hierarchy.load (wordOf addr)
  unfold Simulator.afterLoad
  split
  · refine ⟨hp, h.untranslated, h.zero, ⟨h.ram.words, h.ram.size, h.ram.devices⟩, ?_⟩
    intro x hx hw
    have hword := h.words x hx hw
    cases hc : hasDataCache (byteAddr x) with
    | true =>
      rw [ramWord_coreView hp hc, setHierarchy_hierarchy, hview, ← ramWord_coreView h.hierarchy hc]
      exact hword
    | false =>
      rw [ramWord_uncached hc] at hword ⊢
      exact hword
  · exact h

/-- A store through the data cache changes its word and no other. -/
theorem private_storeHierarchy {h : Hierarchy 1} (hp : h.Private) (op : StoreOp) (v : Word)
    (hc : hasDataCache addr = true) (hw : ¬InWindowLine (wordOf addr)) :
    (storeHierarchy h 0 op addr v).Private ∧ (storeHierarchy h 0 op addr v).coreView =
      Function.update h.coreView (wordOf addr)
        (insertWord op addr (h.coreView (wordOf addr)) v) := by
  have hx := hasDataCache_word ((hasDataCache_wordOf addr).trans hc)
  obtain ⟨hvalue, hp', hview⟩ := hp.load (wordOf addr)
  unfold storeHierarchy
  cases op with
  | sw => exact hp.store (wordOf addr) v hx hw
  | sb | sh =>
    simp only [hvalue]
    rw [← hview]
    exact hp'.store (wordOf addr) _ hx hw

/-- A store puts its operand into the word of its address. -/
theorem apply_word (op : StoreOp) (b : Bytes) (v : Word) (ha : addr.toNat % op.size = 0)
    (x : WordAddr) : (op.apply b addr.toNat v).word (4 * x.toNat) =
      if x = wordOf addr then insertWord op addr (b.word (4 * x.toNat)) v
      else b.word (4 * x.toNat) := by
  by_cases hx : x = wordOf addr
  · subst hx
    rw [if_pos rfl, wordOf_toNat, insertWord_word op b v ha]
  · rw [if_neg hx]
    apply apply_word_other op b v ha
    intro he
    exact hx (BitVec.eq_of_toNat_eq (by rw [he, wordOf_toNat]))

theorem ne_wordOf {x : WordAddr} (h : hasDataCache (byteAddr x) ≠ hasDataCache addr) :
    x ≠ wordOf addr := by
  rintro rfl
  exact h (hasDataCache_wordOf addr)

/-- And so it does to the word that a load finds, cached or not. -/
theorem Holds.afterStore_ramWord (h : s.Holds b) (op : StoreOp) (v : Word)
    (ha : Accessible n op.size addr) {x : WordAddr} (hx : 4 * x.toNat < n) :
    (s.afterStore 0 op addr v).ramWord 0 (byteAddr x) =
      if x = wordOf addr then insertWord op addr (s.ramWord 0 (byteAddr x)) v
      else s.ramWord 0 (byteAddr x) := by
  unfold Simulator.afterStore
  split
  · next hc =>
    obtain ⟨hp, hview⟩ := private_storeHierarchy h.hierarchy op v hc ha.outside
    cases hcx : hasDataCache (byteAddr x) with
    | true =>
      rw [ramWord_coreView hp hcx, setHierarchy_hierarchy, hview, ramWord_coreView h.hierarchy hcx,
        Function.update_apply]
      split
      · next hxa => rw [hxa]
      · rfl
    | false =>
      rw [if_neg (ne_wordOf (by rw [hcx, hc]; decide)), ramWord_uncached hcx, ramWord_uncached hcx]
      rfl
  · next hc =>
    have hram :
        ({ s with memory := ⟨op.apply s.memory.bytes addr.toNat v⟩ } : Simulator 1 n).PlainRam :=
      ⟨h.ram.words, h.ram.size, h.ram.devices⟩
    cases hcx : hasDataCache (byteAddr x) with
    | true =>
      rw [if_neg (ne_wordOf (by rw [hcx]; exact Ne.symm hc)), ramWord_coreView h.hierarchy hcx]
      exact ramWord_coreView h.hierarchy hcx
    | false =>
      rw [ramWord_memory hram hx hcx, ramWord_memory h.ram hx hcx]
      exact apply_word op s.memory.bytes v ha.aligned x

theorem Holds.afterStore (h : s.Holds b) (op : StoreOp) (v : Word)
    (ha : Accessible n op.size addr) :
    (s.afterStore 0 op addr v).Holds (op.apply b addr.toNat v) := by
  have hwords : ∀ x : WordAddr, 4 * x.toNat < n → ¬InWindowLine x →
      (s.afterStore 0 op addr v).ramWord 0 (byteAddr x) =
        (op.apply b addr.toNat v).word (4 * x.toNat) := by
    intro x hx hw
    rw [h.afterStore_ramWord op v ha hx, apply_word op b v ha.aligned, h.words x hx hw]
  have hram := h.ram
  unfold Simulator.afterStore at hwords ⊢
  by_cases hc : hasDataCache addr = true
  · simp only [if_pos hc] at hwords ⊢
    have hp := (private_storeHierarchy h.hierarchy op v hc ha.outside).1
    exact ⟨hp, h.untranslated, h.zero, ⟨hram.words, hram.size, hram.devices⟩, hwords⟩
  · simp only [if_neg hc] at hwords ⊢
    exact ⟨h.hierarchy, h.untranslated, h.zero, ⟨hram.words, hram.size, hram.devices⟩, hwords⟩

/-! ## Steps and runs -/

theorem Holds.fetched {instr : Word} (h : s.Holds b) (hf : s.Fetches 0 s₁ instr) :
    (s₁.fetchPc 0).2.Holds b := by
  obtain ⟨hg, hd⟩ := hf.sameData h.hierarchy.good h.untranslated
  exact h.frame hd hg (by rw [hf.regs]; exact h.zero)

theorem Holds.retired {regs : Isa.Reg → Word} (h : t.Holds b) (hr : Retired t 0 regs s')
    (h0 : regs 0 = 0) : s'.Holds b :=
  h.frame hr.data (hr.hierarchy ▸ h.hierarchy.good) (by rw [hr.regs]; exact h0)

theorem Holds.step_load {instr : Load} (h : s.Holds b) (hf : s.Fetches 0 s₁ instr.encode)
    (ha : Accessible n instr.op.size (instr.address (s.cores 0).regs)) :
    ∃ s', s.step 0 = .ok s' ∧ (s'.cores 0).regs = ((s.cores 0).isaState.write instr.rd
      (instr.op.eval b (instr.address (s.cores 0).regs).toNat)).regs ∧ s'.Holds b := by
  obtain ⟨s', hs', hret⟩ := hf.step_load h.hierarchy.good h.untranslated h.zero h.ram rfl ha.ram
    ha.aligned
  have ht := h.fetched hf
  rw [ht.ramWord ha, extractWord_word instr.op b ha.aligned] at hret
  exact ⟨s', hs', hret.regs, (ht.afterLoad _).retired hret ((State.write_zero _ _).trans h.zero)⟩

theorem Holds.step_store {instr : Store} (h : s.Holds b) (hf : s.Fetches 0 s₁ instr.encode)
    (ha : Accessible n instr.op.size (instr.address (s.cores 0).regs)) :
    ∃ s', s.step 0 = .ok s' ∧ s'.Holds (instr.op.apply b
      (instr.address (s.cores 0).regs).toNat ((s.cores 0).regs instr.rs2)) := by
  obtain ⟨s', hs', hret⟩ := hf.step_store h.hierarchy.good h.untranslated h.zero h.ram rfl ha.ram
    ha.aligned
  exact ⟨s', hs', ((h.fetched hf).afterStore _ _ ha).retired hret h.zero⟩

theorem Holds.quietStep (h : s.Holds b) (hq : s.QuietStep 0 s') : s'.Holds b := by
  have hsound : s.Sound := ⟨h.hierarchy.good, fun i => Subsingleton.elim 0 i ▸ h.untranslated,
    fun i => Subsingleton.elim 0 i ▸ h.zero⟩
  obtain ⟨hs', hd⟩ := hsound.quietStep hq
  exact h.frame hd hs'.good (hs'.zero 0)

theorem byteRun_onByteArray {es : List MemoryEvent} (hrun : ByteRun s es t) (h : s.Holds b) :
    ∃ b', OnByteArray b es b' ∧ t.Holds b' := by
  induction hrun generalizing b with
  | nil s => exact ⟨b, rfl, h⟩
  | quiet hq _ ih => exact ih (h.quietStep hq)
  | load hf ha hstep _ ih =>
    obtain ⟨s', hs', hregs, h'⟩ := h.step_load hf ha
    obtain rfl := Except.ok.inj (hs'.symm.trans hstep)
    obtain ⟨b', hb', ht⟩ := ih h'
    exact ⟨b', ⟨fun hrd => hregs ▸ State.write_self _ _ hrd, hb'⟩, ht⟩
  | store hf ha hstep _ ih =>
    obtain ⟨s', hs', h'⟩ := h.step_store hf ha
    obtain rfl := Except.ok.inj (hs'.symm.trans hstep)
    exact ih h'

/-- Every load of a run returns what an array of bytes would after the preceding
stores, and so does the one that follows. -/
theorem loads_see_byte_array {ddr : DDRMemory} {es : List MemoryEvent} (hs : Starts ddr s)
    (hrun : ByteRun s es t) : ∃ b, OnByteArray s.memory.bytes es b ∧
      ∀ (s₁ : Simulator 1 n) (instr : Load), t.Fetches 0 s₁ instr.encode →
        Accessible n instr.op.size (instr.address (t.cores 0).regs) →
        ∃ t', t.step 0 = .ok t' ∧ (t'.cores 0).regs = ((t.cores 0).isaState.write instr.rd
          (instr.op.eval b (instr.address (t.cores 0).regs).toNat)).regs := by
  obtain ⟨b, hb, ht⟩ := byteRun_onByteArray hrun hs.holds
  refine ⟨b, hb, ?_⟩
  intro s₁ instr hf ha
  obtain ⟨t', ht', hregs, _⟩ := ht.step_load hf ha
  exact ⟨t', ht', hregs⟩

/-! ## A program that has been loaded -/

theorem store32_congr {mem mem' : Nat → Byte} {a c : Nat} (v : Word) (h : mem c = mem' c) :
    store32 mem a v c = store32 mem' a v c := by
  unfold store32
  simp only [Function.update_apply, h]

theorem writeBlock_congr {n k : Nat} (program : List Word) {m : ByteMemory n} {m' : ByteMemory k}
    {x : WordAddr} {c : Nat} (hx : x.toNat + program.length < 2 ^ 30)
    (hn : 4 * (x.toNat + program.length) ≤ n) (hk : 4 * (x.toNat + program.length) ≤ k)
    (h : m.bytes c = m'.bytes c) :
    (m.writeBlock (byteAddr x) program).bytes c = (m'.writeBlock (byteAddr x) program).bytes c := by
  induction program generalizing m m' x with
  | nil => exact h
  | cons w ws ih =>
    rw [List.length_cons] at hx hn hk
    have hnext : (x + 1).toNat = x.toNat + 1 := by
      simp only [BitVec.toNat_add, BitVec.ofNat_eq_ofNat, BitVec.toNat_ofNat]
      omega
    rw [ByteMemory.writeBlock, ByteMemory.writeBlock, byteAddr_add_four]
    refine ih (by omega) (by omega) (by omega) ?_
    rw [ByteMemory.writeWord, ByteMemory.writeWord, byteAddr_toNat, if_pos (by omega),
      if_pos (by omega)]
    exact store32_congr w h

/-- DDR and memory have the same program over zeros, but for the monitor's words,
which are not cached. -/
theorem loaded_starts (program : List Word) {regs : Fin 1 → Isa.Reg → Word}
    (h0 : regs 0 0 = 0) (hlen : 4 * program.length ≤ 0x100000) :
    Starts (ByteMemory.writeBlock ⟨fun _ => 0⟩ 0 program) (loaded 1 0x100000 program regs) where
  empty := rfl
  untranslated := rfl
  zero := h0
  ram := ⟨by decide, by decide, fun dev hdev => by
    obtain rfl := List.mem_singleton.mp hdev
    decide⟩
  contents a _ hc := by
    have hmonitor : ((MultiCoreMonitor.init 1).writeStateToMemory
        (⟨fun _ => 0⟩ : ByteMemory 0x100000)).bytes a.toNat = 0 := by
      have hranges := (hasDataCache_iff a).mp hc
      have hphase : MultiCoreMonitor.initPhaseAddr = 0x98004 := rfl
      have hstates : MultiCoreMonitor.coreStatesAddr = 0x90000 := rfl
      show store32 (store32 (fun _ => 0) MultiCoreMonitor.coreStatesAddr _)
        MultiCoreMonitor.initPhaseAddr _ a.toNat = 0
      rw [store32_other _ _ _ _ (by omega), store32_other _ _ _ _ (by omega)]
    exact writeBlock_congr program (x := 0) (by simp; omega)
      (by simp [ddrSize]; omega) (by simp; omega) hmonitor.symm

def loadByte : Load := ⟨.lb, 7, 5, 0⟩

def storeByte : Store := ⟨.sb, 6, 5, 0⟩

/-- One core about to store the byte 0x80 at `x5` and to load it again. -/
def aboutBytes (addr : Word) : Simulator 1 0x100000 :=
  loaded 1 0x100000 [storeByte.encode, loadByte.encode] fun _ r =>
    if r = 5 then addr else if r = 6 then 0x80 else 0

/-- The state after the store. -/
def afterByte : Simulator 1 0x100000 :=
  (aboutBytes 0x50003).stepped core0

theorem afterByte_eq : (aboutBytes 0x50003).step 0 = .ok afterByte :=
  step_stepped (by decide +kernel)

theorem loads_see_byte_array_byte :
    ∃ b, OnByteArray (aboutBytes 0x50003).memory.bytes [.store .sb 0x50003 0x80] b ∧
      ∃ t', afterByte.step 0 = .ok t' ∧ (t'.cores 0).regs 7 = LoadOp.lb.eval b 0x50003 := by
  have hf₀ : (aboutBytes 0x50003).Fetches 0 ((aboutBytes 0x50003).handleInterrupt 0)
      storeByte.encode := ⟨(loaded_running ..).prepare_eq, by decide +kernel⟩
  have hrun₁ : afterByte.Running 0 := by decide +kernel
  have hf₁ : afterByte.Fetches 0 (afterByte.handleInterrupt 0) loadByte.encode :=
    ⟨hrun₁.prepare_eq, by decide +kernel⟩
  have haddr : loadByte.address (afterByte.cores 0).regs = 0x50003 := by decide +kernel
  have hin : Accessible 0x100000 1 0x50003 := ⟨by decide, by decide, by decide⟩
  obtain ⟨b, hb, hload⟩ := loads_see_byte_array
    (loaded_starts [storeByte.encode, loadByte.encode] rfl (by decide))
    (.store hf₀ hin afterByte_eq (.nil afterByte))
  obtain ⟨t', ht', hregs⟩ := hload _ loadByte hf₁ (haddr ▸ hin)
  rw [haddr] at hregs
  exact ⟨b, hb, t', ht', congrFun hregs 7⟩

end Simulator
end RiscvEmulator.System
