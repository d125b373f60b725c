import RiscvEmulator.System.SequentialConsistency

/-! # Programs in virtual memory

A disciplined program does not see where the page tables put its pages, nor what the
TLBs remember and forget. In whatever order the cores step, each translating its
fetches, loads and stores by tables of its own, the simulator is the machine of the
specification whose memory is the virtual one. -/
namespace RiscvEmulator.System
open Memory Cores Isa Device

/-- What core `i` loads from the address of a word. -/
def Simulator.loadedWord {N n : Nat} (s : Simulator N n) (i : Fin N) (va : Word) : Word :=
  if hasDataCache va then (s.dataRead i va).1
  else match (s.translate i va false false).1 with
    | .ok physAddr => s.readWord physAddr
    | .error _ => 0

theorem Simulator.Represents.loadedWord {N n : Nat} {L : Layout N n} {S : Space L}
    {s : Simulator N n} {m : Machine N} {i : Fin N} {va : Word} (h : Represents S s m)
    (hmay : L.MayLoad i va 4) : s.loadedWord i va = m.memory.word va.toNat := by
  obtain ⟨f, hw⟩ := h.words
  have hused : L.Used va := hmay.used
  have hva : byteAddr (wordOf va) = va := byteAddr_wordOf hmay.1
  rw [← hw.word h.ram hmay]
  unfold Simulator.loadedWord
  cases hc : hasDataCache va with
  | true =>
    have hused' : L.Used (byteAddr (wordOf va)) := Layout.used_wordOf.mpr hused
    obtain ⟨mmus, hread, _⟩ := h.translates.dataRead i hused'
    rw [hva] at hread
    rw [if_pos rfl, if_pos rfl, hread, ← S.phys_byteAddr, hva]
  | false =>
    obtain ⟨mmus, htrans, _⟩ := h.translates.translate i hused false false nofun nofun
    rw [if_neg Bool.false_ne_true, if_neg Bool.false_ne_true, htrans]

namespace Space
variable {N n : Nat} {L : Layout N n} (S : Space L)

/-! ## The virtual memory -/

/-- The byte at a virtual address; it is in DDR if the caches hold its word. -/
def byteAt (ddr : DDRMemory) (memory : ByteMemory n) (va : Word) : Byte :=
  if hasDataCache va ∨ L.useOf va = .code then ddr.bytes (S.phys va).toNat
  else memory.bytes (S.phys va).toNat

/-- The machine with the registers of the simulator and the virtual memory. -/
def machine (ddr : DDRMemory) (s : Simulator N n) : Machine N :=
  { s.machine with memory := fun a => S.byteAt ddr s.memory (BitVec.ofNat 32 a) }

/-- Empty caches over DDR, which has the code that loads find in memory, and MMUs that
translate by the mapping; no interrupts, and the serial port as it is built. -/
structure Mapped (ddr : DDRMemory) (s : Simulator N n) : Prop where
  size : n % 4 = 0 ∧ n ≤ 0x02000000
  empty : s.hierarchy = Hierarchy.init N ddr
  code : ∀ va, L.useOf va = .code → hasDataCache va = false →
    ddr.bytes (S.phys va).toNat = s.memory.bytes (S.phys va).toNat
  zero : ∀ i, (s.cores i).regs 0 = 0
  masked : ∀ i, Masked (s.cores i)
  awake : ∀ i, (s.cores i).isWaitingForInterrupt = false
  translates : S.Translates s
  devices : s.devices = [(Simulator.uartBase, {})]

variable {S} {ddr : DDRMemory} {s : Simulator N n} {x : WordAddr}

/-- The bytes of a word stay together. -/
theorem phys_byte (S : Space L) {k : Nat} (hk : k < 4) :
    (S.phys (BitVec.ofNat 32 (4 * x.toNat + k))).toNat = 4 * (S.place x).toNat + k := by
  obtain ⟨hto, _, hword⟩ := L.byte_of_word (x := x) hk
  have hplace := congrArg BitVec.toNat (S.place_wordOf (BitVec.ofNat 32 (4 * x.toNat + k)))
  have hlow : (S.phys (BitVec.ofNat 32 (4 * x.toNat + k))).toNat % 4 =
      (BitVec.ofNat 32 (4 * x.toNat + k)).toNat % 4 := physical_low
  rw [hword, wordOf_toNat] at hplace
  rw [hto] at hlow
  omega

theorem byteAt_cached (hin : InCaches L x) {k : Nat} (hk : k < 4) (memory : ByteMemory n) :
    S.byteAt ddr memory (BitVec.ofNat 32 (4 * x.toNat + k)) =
      ddr.bytes (4 * (S.place x).toNat + k) := by
  obtain ⟨_, huse, hword⟩ := L.byte_of_word (x := x) hk
  unfold byteAt
  rw [if_pos, S.phys_byte hk]
  rw [huse, ← hasDataCache_wordOf, hword]
  exact hin

theorem Mapped.byteAt_memory (h : S.Mapped ddr s) (hc : hasDataCache (byteAddr x) = false)
    {k : Nat} (hk : k < 4) :
    S.byteAt ddr s.memory (BitVec.ofNat 32 (4 * x.toNat + k)) =
      s.memory.bytes (4 * (S.place x).toNat + k) := by
  obtain ⟨_, huse, hword⟩ := L.byte_of_word (x := x) hk
  have hphys := S.phys_byte (x := x) hk
  have hdata : hasDataCache (BitVec.ofNat 32 (4 * x.toNat + k)) = false := by
    rw [← hasDataCache_wordOf, hword, hc]
  unfold byteAt
  rw [hdata, ← hphys]
  by_cases hcode : L.useOf (BitVec.ofNat 32 (4 * x.toNat + k)) = .code
  · rw [if_pos (.inr hcode)]
    exact h.code _ hcode hdata
  · rw [if_neg (by simp [hcode])]

theorem Mapped.represents (h : S.Mapped ddr s) : s.Represents S (S.machine ddr s) := by
  refine ⟨h.size, ⟨Hierarchy.ddrWords ddr, ⟨?_, ?_, ?_⟩⟩, fun i => rfl, h.zero, h.masked, h.awake,
    h.translates, {}, h.devices, by decide, ?_⟩
  · rw [h.empty]
    exact Hierarchy.init_owned S.owner ddr
  · intro x hx hin
    have hused : L.Used (byteAddr x) := by
      unfold Layout.Used
      rwa [L.useOf_byteAddr]
    have hlt := (Words.owner_place S hused (by rwa [wordOf_byteAddr])).1
    rw [wordOf_byteAddr] at hlt
    have hddr : ddrSize = 0x40000000 := rfl
    have hread : Hierarchy.ddrWords ddr (S.place x) =
        Bytes.word ddr.bytes (4 * (S.place x).toNat) := by
      show ddr.readWord (byteAddr (S.place x)) = _
      rw [ByteMemory.readWord, byteAddr_toNat, if_pos (by omega), load32_eq_word]
    rw [hread]
    exact (Bytes.word_eq_iff ..).mpr fun k hk => (byteAt_cached hin hk s.memory).symm
  · intro x _ hc
    exact (Bytes.word_eq_iff ..).mpr fun k hk => (h.byteAt_memory hc hk).symm
  · unfold machine Simulator.machine Simulator.getDevice
    simp [h.devices]

/-- For a disciplined program in an address space the simulator is the machine with the
virtual memory: every order of steps ends without an abort or a page fault, with the
registers, the program counters, the output and the loadable words that the specification
has after the same steps, and the MMUs still translate by the mapping. -/
theorem virtual_memory (hs : S.Mapped ddr s) (hrun : ∀ i, s.Running i)
    (hd : L.Disciplined (S.machine ddr s)) (order : List (Fin N)) :
    ∃ s' m', s.steps order = .ok s' ∧ (S.machine ddr s).run order = some m' ∧
      (∀ i, (s'.cores i).isaState = m'.harts i) ∧ s'.machine.output = m'.output ∧
      (∀ i va, L.MayLoad i va 4 → s'.loadedWord i va = m'.memory.word va.toNat) ∧
      S.Translates s' := by
  obtain ⟨s', m', hs', hm', h⟩ := hs.represents.steps hrun hd order
  exact ⟨s', m', hs', hm', h.harts, h.output, fun i va hmay => h.loadedWord hmay, h.translates⟩

/-! ## Two page tables -/

/-- The frame of the code, and that of the data. -/
def movedFrame (page : Word) : Word := if page = 0 then 3 else 0x60

/-- Where that puts the blocks of `twoBlocks`. -/
theorem moved_phys {va : Word} (h : Simulator.twoBlocks.Used va) :
    (va.toNat < 64 ∧ va >>> 12 = 0 ∧ (physical movedFrame va).toNat = va.toNat + 0x3000) ∨
      (0x50000 ≤ va.toNat ∧ va.toNat < 0x50080 ∧ va >>> 12 = 0x50 ∧
        (physical movedFrame va).toNat = va.toNat + 0x10000) := by
  have h4096 : (4096 : Word).toNat = 4096 := rfl
  have hpage : (va >>> 12).toNat = va.toNat / 4096 := by
    rw [BitVec.toNat_ushiftRight, Nat.shiftRight_eq_div_pow]
  have hblock := Simulator.twoBlocksUse_used h
  unfold physical movedFrame
  rcases hblock with hb | hb
  · have hzero : va >>> 12 = 0 := BitVec.eq_of_toNat_eq (by rw [hpage]; simp; omega)
    refine .inl ⟨by omega, hzero, ?_⟩
    rw [if_pos hzero, BitVec.toNat_add, BitVec.toNat_umod, h4096]
    have : ((3 : Word) * 4096).toNat = 0x3000 := rfl
    omega
  · have hfifty : va >>> 12 = 0x50 := BitVec.eq_of_toNat_eq (by rw [hpage]; simp; omega)
    refine .inr ⟨by omega, by omega, hfifty, ?_⟩
    rw [if_neg (by rw [hfifty]; decide), BitVec.toNat_add, BitVec.toNat_umod, h4096]
    have : ((0x60 : Word) * 4096).toNat = 0x60000 := rfl
    omega

/-- The owners of the blocks where they are now. -/
def movedOwner (b : Nat) : Option (Fin 2) :=
  if b = 0x1800 then some ⟨0, Nat.zero_lt_two⟩
  else if b = 0x1801 then some ⟨1, Nat.one_lt_two⟩
  else none

theorem moved_cached (va : Word) (h : Simulator.twoBlocks.Used va) :
    (wordOf (physical movedFrame va)).toNat < 0x10000000 ∧
      movedOwner ((wordOf (physical movedFrame va)).toNat / 16) =
        Simulator.twoBlocks.owner (va.toNat / 64) := by
  have hblock := Simulator.twoBlocksUse_used h
  have hphys := moved_phys h
  rw [wordOf_toNat]
  refine ⟨by omega, ?_⟩
  rcases hblock with hb | hb | hb
  · rw [hb, show (physical movedFrame va).toNat / 4 / 16 = 0xC0 by omega]
    rfl
  · rw [hb, show (physical movedFrame va).toNat / 4 / 16 = 0x1800 by omega]
    rfl
  · rw [hb, show (physical movedFrame va).toNat / 4 / 16 = 0x1801 by omega]
    rfl

/-- All of it is cached. -/
theorem moved_dataCache {va : Word} (h : Simulator.twoBlocks.Used va) : hasDataCache va = true := by
  have hphys := moved_phys h
  rw [hasDataCache_iff]
  omega

/-- What is stored to is data. -/
theorem stored_blocks {va : Word} (h : Simulator.twoBlocks.Stored va) : 0x50000 ≤ va.toNat := by
  rcases moved_phys h.used with ⟨hlt, _⟩ | ⟨hle, _⟩
  · have hcode : Simulator.twoBlocks.useOf va = .code := by
      show Simulator.twoBlocksUse (va.toNat / 64) = .code
      rw [show va.toNat / 64 = 0 by omega]
      rfl
    unfold Layout.Stored at h
    rw [hcode] at h
    rcases h with ⟨i, h⟩ | h <;> cases h
  · exact hle

theorem moved_stores (va : Word) (h : Simulator.twoBlocks.Stored va) :
    ¬InWindowLine (wordOf (physical movedFrame va)) ∧
      (inPageTable va = true → physical movedFrame va = va) := by
  have hle := stored_blocks h
  have hphys := moved_phys h.used
  unfold InWindowLine
  rw [wordOf_toNat]
  refine ⟨by omega, fun hin => ?_⟩
  have := (inPageTable_iff va).mp hin
  omega

theorem moved_apart (va va' : Word) (h : Simulator.twoBlocks.Used va)
    (h' : Simulator.twoBlocks.Used va')
    (heq : wordOf (physical movedFrame va') = wordOf (physical movedFrame va)) :
    wordOf va' = wordOf va := by
  have hphys := moved_phys h
  have hphys' := moved_phys h'
  have hnat := congrArg BitVec.toNat heq
  refine BitVec.eq_of_toNat_eq ?_
  rw [wordOf_toNat, wordOf_toNat] at hnat ⊢
  omega

theorem moved_uncached {P : Prop} {va : Word} (h : Simulator.twoBlocks.Used va)
    (hc : hasDataCache va = false) : P := by
  rw [moved_dataCache h] at hc
  cases hc

/-- Nothing goes past the caches, and so anything may be a table. -/
def moved : Space Simulator.twoBlocks where
  frame := movedFrame
  owner := movedOwner
  tables _ := True
  cached va h _ := moved_cached va h
  stores va h _ := moved_stores va h
  memory _ h hc := moved_uncached h hc
  cachedApart va va' h _ h' _ heq := moved_apart va va' h.used h' heq
  memoryApart _ _ h hc _ _ _ := moved_uncached h.used hc
  tablesApart _ _ h hc _ := moved_uncached h.used hc

/-- DDR with the program in its frame. -/
def movedDdr : DDRMemory :=
  ⟨fun a => if 0x3000 ≤ a then Simulator.ownBlocks.memory.bytes (a - 0x3000) else 0⟩

/-- The two cores with a table each, at 0x10000 and 0x11000. -/
def movedBlocks : Simulator 2 0x100000 :=
  { Simulator.ownBlocks with
    memory := Simulator.ownBlocks.memory |>.writeWord 0x10000 0x0C0F |>.writeWord 0x10140 0x1800F
      |>.writeWord 0x11000 0x0C0F |>.writeWord 0x11140 0x1800F
    hierarchy := Hierarchy.init 2 movedDdr
    mmus := fun i => MMU.start mmuConfig (0x10000 + BitVec.ofNat 32 (4096 * i.val)) }

theorem movedBlocks_walk (i : Fin 2) {va : Word} (h : Simulator.twoBlocks.Used va)
    (isWrite isInstruction : Bool) :
    (movedBlocks.mmus i).walk movedBlocks.memory.readWord ⟨va, isWrite, isInstruction⟩ =
      .ok (physical movedFrame va) := by
  have hentries : ∀ i : Fin 2, (movedBlocks.mmus i).pageTableBase ≠ 0 ∧
      (movedBlocks.mmus i).readPageTableEntry movedBlocks.memory.readWord 0 = .ofWord 0x0C0F ∧
      (movedBlocks.mmus i).readPageTableEntry movedBlocks.memory.readWord 0x50000 =
        .ofWord 0x1800F := by
    decide +kernel
  obtain ⟨hon, hcode, hdata⟩ := hentries i
  unfold MMU.walk
  rw [if_neg (by simpa using hon)]
  rcases moved_phys h with ⟨_, hpage, _⟩ | ⟨_, _, hpage, _⟩
  · have hsame : va >>> 12 = (0 : Word) >>> 12 := hpage
    have hframe : movedFrame (va >>> 12) = 3 := if_pos hpage
    rw [MMU.readPageTableEntry_samePage _ _ hsame, hcode, physical, hframe]
    cases isWrite <;> rfl
  · have hsame : va >>> 12 = (0x50000 : Word) >>> 12 := hpage
    have hframe : movedFrame (va >>> 12) = 0x60 := by
      rw [hpage]
      rfl
    rw [MMU.readPageTableEntry_samePage _ _ hsame, hdata, physical, hframe]
    cases isWrite <;> rfl

theorem movedBlocks_mapped : moved.Mapped movedDdr movedBlocks where
  size := by decide
  empty := rfl
  code va h hc := moved_uncached (by rw [Layout.Used, h]; nofun) hc
  zero _ := rfl
  masked _ := masked_of_init rfl
  awake _ := rfl
  translates := {
    maps := fun i => {
      load := fun _ h isInstruction => movedBlocks_walk i h false isInstruction
      store := fun _ h => movedBlocks_walk i h.used true false
      remembered := fun _ _ _ _ ht => MMU.start_mirrors _ _ _ _ _ ht }
    tables := fun _ _ _ _ _ _ => trivial }
  devices := rfl

theorem virtual_memory_moved : ∃ s' m', movedBlocks.steps [0, 1, 1, 0] = .ok s' ∧
    (moved.machine movedDdr movedBlocks).run [0, 1, 1, 0] = some m' ∧
    (∀ i, (s'.cores i).isaState = m'.harts i) ∧ s'.machine.output = m'.output ∧
    (∀ i va, Simulator.twoBlocks.MayLoad i va 4 →
      s'.loadedWord i va = m'.memory.word va.toNat) ∧ moved.Translates s' :=
  virtual_memory movedBlocks_mapped (fun _ => ⟨rfl, rfl, rfl⟩)
    (Simulator.InOwnBlocks.disciplined
      ⟨by decide +kernel, by decide +kernel, by decide +kernel, fun _ => rfl, fun _ => .inl rfl⟩)
    [0, 1, 1, 0]

end Space
end RiscvEmulator.System
