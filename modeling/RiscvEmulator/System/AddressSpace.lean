import RiscvEmulator.Memory.Tlb
import RiscvEmulator.System.CoreStep
import RiscvEmulator.System.Discipline
import RiscvEmulator.System.MappedAccess

/-! # Address spaces

A mapping of virtual to physical addresses that the page tables of all cores have for
the addresses a program uses. The program does not write into the tables, and what it
uses at different addresses stands in different places; then the MMUs go on translating
by the mapping, whatever their TLBs remember and forget. -/
namespace RiscvEmulator.Memory.MMU
variable {config : MMUConfig} {m : MMU config} {readWord readWord' : Word → Word} {vaddr : Word}

/-! ## What a walk looks at -/

/-- Where a walk may read: the entry that would be a leaf of the root, the pointer, and
the entry it points to. -/
def walkReads (m : MMU config) (readWord : Word → Word) (vaddr : Word) : List Word :=
  let vpn1 := (vaddr >>> 22) &&& 0x3FF
  let vpn0 := (vaddr >>> 12) &&& 0x3FF
  let pte1 := readWord (m.pageTableBase + vpn1 * 4)
  [m.pageTableBase + vpn0 * 4, m.pageTableBase + vpn1 * 4,
    ((pte1 >>> 10) &&& 0x3FFFFF) <<< 12 + vpn0 * 4]

theorem readPageTableEntry_congr (h : ∀ a ∈ m.walkReads readWord vaddr, readWord' a = readWord a) :
    m.readPageTableEntry readWord' vaddr = m.readPageTableEntry readWord vaddr := by
  simp only [walkReads, List.mem_cons, List.not_mem_nil, or_false, forall_eq_or_imp,
    forall_eq] at h
  obtain ⟨hdirect, hroot, hleaf⟩ := h
  unfold readPageTableEntry
  simp only [hdirect, hroot, hleaf]

theorem walkReads_congr (h : ∀ a ∈ m.walkReads readWord vaddr, readWord' a = readWord a) :
    m.walkReads readWord' vaddr = m.walkReads readWord vaddr := by
  simp only [walkReads, List.mem_cons, List.not_mem_nil, or_false, forall_eq_or_imp,
    forall_eq] at h
  unfold walkReads
  simp only [h.2.1]

theorem walkReads_base {m' : MMU config} (h : m'.pageTableBase = m.pageTableBase)
    (readWord : Word → Word) (vaddr : Word) :
    m'.walkReads readWord vaddr = m.walkReads readWord vaddr := by
  unfold walkReads
  rw [h]

/-! ## A mapping -/

/-- The MMU has the mapping `phys` for the addresses in use, lets those be stored to that
are, and if there is a page table its TLB remembers nothing else of their pages. -/
structure Maps (m : MMU config) (readWord : Word → Word) (used stored : Word → Prop)
    (phys : Word → Word) : Prop where
  load : ∀ va, used va → ∀ isInstruction,
    m.walk readWord ⟨va, false, isInstruction⟩ = .ok (phys va)
  store : ∀ va, stored va → m.walk readWord ⟨va, true, false⟩ = .ok (phys va)
  remembered : m.pageTableBase ≠ 0 → ∀ va, used va → ∀ t, m.remembers (va >>> 12) t →
    m.pageTable readWord (va >>> 12) = some t

namespace Maps
variable {used stored : Word → Prop} {phys : Word → Word}

/-- An address in use is translated by the mapping, and the MMU goes on doing so. -/
theorem ask (h : m.Maps readWord used stored phys) (call : TranslateCall)
    (hused : used call.vaddr) (hstored : call.isWrite = true → stored call.vaddr)
    (hkind : ¬(call.isWrite = true ∧ call.isInstruction = true)) :
    (m.ask readWord call).1 = .ok (phys call.vaddr) ∧
      (m.ask readWord call).2.Maps readWord used stored phys := by
  obtain ⟨hbase, hrem⟩ := m.ask_remembers readWord call
  have hwalk : ∀ call', (m.ask readWord call).2.walk readWord call' = m.walk readWord call' := by
    intro call'
    unfold walk
    rw [hbase, readPageTableEntry_base hbase]
  have htable : (m.ask readWord call).2.pageTable readWord = m.pageTable readWord := by
    funext page
    unfold pageTable
    rw [readPageTableEntry_base hbase]
  refine ⟨?_, ?_, ?_, ?_⟩
  · have heq : (m.ask readWord call).1 = m.walk readWord call := by
      by_cases hoff : m.pageTableBase = 0
      · unfold MMU.ask walk
        rw [translateAddress_off hoff, hoff]
        rfl
      · exact ask_eq_walk call hkind fun e he =>
          h.remembered hoff _ hused _ (findTlbEntry_remembers he)
    rw [heq]
    obtain ⟨va, isWrite, isInstruction⟩ := call
    cases isWrite with
    | false => exact h.load va hused isInstruction
    | true =>
      cases isInstruction with
      | false => exact h.store va (hstored rfl)
      | true => exact absurd ⟨rfl, rfl⟩ hkind
  · intro va hva isInstruction
    rw [hwalk]
    exact h.load va hva isInstruction
  · intro va hva
    rw [hwalk]
    exact h.store va hva
  · intro hon va hva t ht
    rw [htable]
    rcases hrem _ t ht with hold | ⟨_, hnew⟩
    · exact h.remembered (hbase ▸ hon) va hva t hold
    · exact hnew

/-- The words that walks read decide it, if there are any walks. -/
theorem congr (h : m.Maps readWord used stored phys) (hsub : ∀ va, stored va → used va)
    (hread : m.pageTableBase ≠ 0 →
      ∀ va, used va → ∀ a ∈ m.walkReads readWord va, readWord' a = readWord a) :
    m.Maps readWord' used stored phys := by
  have hwalk : ∀ call, used call.vaddr → m.walk readWord' call = m.walk readWord call := by
    intro call hcall
    unfold walk
    split
    · rfl
    · next hbase =>
      rw [readPageTableEntry_congr (hread (by simpa using hbase) _ hcall)]
  refine ⟨?_, ?_, ?_⟩
  · intro va hva isInstruction
    rw [hwalk _ hva]
    exact h.load va hva isInstruction
  · intro va hva
    rw [hwalk _ (hsub va hva)]
    exact h.store va hva
  · intro hbase va hva t ht
    rw [pageTable_eq, readPageTableEntry_congr (hread hbase va hva), ← pageTable_eq]
    exact h.remembered hbase va hva t ht

/-- Without a page table addresses are their own translations. -/
theorem untranslated (h : m.pageTableBase = 0) (hphys : ∀ va, phys va = va) :
    m.Maps readWord used stored phys where
  load va _ isInstruction := by simp [walk, h, hphys]
  store va _ := by simp [walk, h, hphys]
  remembered hbase := absurd h hbase

end Maps
end RiscvEmulator.Memory.MMU

namespace RiscvEmulator.System
open Memory Cores Isa Device
open Simulator (aligned extractWord insertWord loadDirect storeDirect)

/-- The caches hold the word. -/
def InCaches {N n : Nat} (L : Layout N n) (x : WordAddr) : Prop :=
  hasDataCache (byteAddr x) = true ∨ L.use (x.toNat / 16) = .code

namespace Layout
variable {N n : Nat} (L : Layout N n)

/-- The program uses the address. -/
def Used (va : Word) : Prop := L.useOf va ≠ .unused

/-- The program may store to it. -/
def Stored (va : Word) : Prop := (∃ i, L.useOf va = .data i) ∨ L.useOf va = .shared

variable {L} {va : Word} {i : Fin N} {size : Nat}

theorem Stored.used (h : L.Stored va) : L.Used va := by
  unfold Used
  rcases h with ⟨i, h⟩ | h <;> simp [h]

theorem MayStore.stored (h : L.MayStore i va size) : L.Stored va := h.2.imp (⟨i, ·⟩) id

theorem used_wordOf : L.Used (byteAddr (wordOf va)) ↔ L.Used va := by
  unfold Used
  rw [L.useOf_wordOf]

/-- The bytes of a word are used and cached as it is. -/
theorem byte_of_word (L : Layout N n) {x : WordAddr} {k : Nat} (hk : k < 4) :
    (BitVec.ofNat 32 (4 * x.toNat + k)).toNat = 4 * x.toNat + k ∧
      L.useOf (BitVec.ofNat 32 (4 * x.toNat + k)) = L.use (x.toNat / 16) ∧
      wordOf (BitVec.ofNat 32 (4 * x.toNat + k)) = x := by
  have hto : (BitVec.ofNat 32 (4 * x.toNat + k)).toNat = 4 * x.toNat + k := by
    have := x.isLt
    rw [BitVec.toNat_ofNat]
    omega
  have hword : wordOf (BitVec.ofNat 32 (4 * x.toNat + k)) = x := by
    apply BitVec.eq_of_toNat_eq
    rw [wordOf_toNat, hto]
    omega
  exact ⟨hto, by rw [← L.use_wordOf, hword], hword⟩

theorem stored_wordOf : L.Stored (byteAddr (wordOf va)) ↔ L.Stored va := by
  unfold Stored
  rw [L.useOf_wordOf]

end Layout

/-- Where the frame of its page puts an address. -/
def physical (frame : Word → Word) (va : Word) : Word := frame (va >>> 12) * 4096 + va % 4096

section
variable {frame : Word → Word} {va : Word}

/-- The place in the word stays. -/
theorem physical_low : (physical frame va).toNat % 4 = va.toNat % 4 := by
  have h4096 : (4096 : Word).toNat = 4096 := rfl
  unfold physical
  rw [BitVec.toNat_add, BitVec.toNat_mul, BitVec.toNat_umod, h4096]
  omega

theorem physical_word :
    physical frame (byteAddr (wordOf va)) = byteAddr (wordOf (physical frame va)) := by
  have h4096 : (4096 : Word).toNat = 4096 := rfl
  have hpage : byteAddr (wordOf va) >>> 12 = va >>> 12 := by
    refine BitVec.eq_of_toNat_eq ?_
    rw [BitVec.toNat_ushiftRight, BitVec.toNat_ushiftRight, Nat.shiftRight_eq_div_pow,
      Nat.shiftRight_eq_div_pow, byteAddr_toNat, wordOf_toNat]
    omega
  refine BitVec.eq_of_toNat_eq ?_
  unfold physical
  rw [hpage, byteAddr_toNat, wordOf_toNat, BitVec.toNat_add, BitVec.toNat_add, BitVec.toNat_mul,
    BitVec.toNat_umod, BitVec.toNat_umod, h4096, byteAddr_toNat, wordOf_toNat]
  omega

end

/-- An address space for a layout of virtual addresses: the frames of its pages, the
cores that own the blocks of the caches, and the addresses of the page tables' entries.
Where an address is cached is a matter of its virtual address. -/
structure Space {N n : Nat} (L : Layout N n) where
  frame : Word → Word
  owner : Nat → Option (Fin N)
  tables : Word → Prop
  cached : ∀ va, L.Used va → InCaches L (wordOf va) →
    (wordOf (physical frame va)).toNat < 0x10000000 ∧
      owner ((wordOf (physical frame va)).toNat / 16) = L.owner (va.toNat / 64)
  stores : ∀ va, L.Stored va → hasDataCache va = true →
    ¬InWindowLine (wordOf (physical frame va)) ∧ (inPageTable va = true → physical frame va = va)
  memory : ∀ va, L.Used va → hasDataCache va = false → (physical frame va).toNat < n
  cachedApart : ∀ va va', L.Stored va → hasDataCache va = true → L.Used va' →
    InCaches L (wordOf va') → wordOf (physical frame va') = wordOf (physical frame va) →
    wordOf va' = wordOf va
  memoryApart : ∀ va va', L.Stored va → hasDataCache va = false → L.Used va' →
    hasDataCache va' = false → wordOf (physical frame va') = wordOf (physical frame va) →
    wordOf va' = wordOf va
  tablesApart : ∀ va a, L.Stored va → hasDataCache va = false → tables a →
    a.toNat + 4 ≤ 4 * (wordOf (physical frame va)).toNat ∨
      4 * (wordOf (physical frame va)).toNat + 4 ≤ a.toNat

namespace Space
variable {N n : Nat} {L : Layout N n} (S : Space L)

def phys (va : Word) : Word := physical S.frame va

/-- Where a word stands. -/
def place (x : WordAddr) : WordAddr := wordOf (S.phys (byteAddr x))

theorem phys_byteAddr (x : WordAddr) : S.phys (byteAddr x) = byteAddr (S.place x) := by
  have h : S.phys (byteAddr (wordOf (byteAddr x))) = byteAddr (wordOf (S.phys (byteAddr x))) :=
    physical_word
  rwa [wordOf_byteAddr] at h

theorem place_wordOf (va : Word) : S.place (wordOf va) = wordOf (S.phys va) := by
  have h : S.phys (byteAddr (wordOf va)) = byteAddr (wordOf (S.phys va)) := physical_word
  unfold place
  rw [h, wordOf_byteAddr]

/-! ## Translation -/

/-- The MMUs translate by the mapping, and find it where the tables are to be. -/
structure Translates (S : Space L) (t : Simulator N n) : Prop where
  maps : ∀ i, (t.mmus i).Maps t.memory.readWord L.Used L.Stored S.phys
  tables : ∀ i, (t.mmus i).pageTableBase ≠ 0 → ∀ va, L.Used va →
    ∀ a ∈ (t.mmus i).walkReads t.memory.readWord va, S.tables a

namespace Translates
variable {S} {t t' : Simulator N n} {i : Fin N} {va : Word}

/-- The MMUs and the words of the tables decide it. -/
theorem congr (h : S.Translates t) (hmmus : t'.mmus = t.mmus)
    (hread : ∀ a, S.tables a → t'.memory.readWord a = t.memory.readWord a) : S.Translates t' := by
  have hreads : ∀ i, (t.mmus i).pageTableBase ≠ 0 → ∀ va, L.Used va →
      ∀ a ∈ (t.mmus i).walkReads t.memory.readWord va,
        t'.memory.readWord a = t.memory.readWord a :=
    fun i hon va hva a ha => hread a (h.tables i hon va hva a ha)
  constructor
  · intro i
    rw [hmmus]
    exact (h.maps i).congr (fun _ => Layout.Stored.used) (hreads i)
  · intro i hon va hva a ha
    rw [hmmus] at hon ha
    rw [MMU.walkReads_congr (hreads i hon va hva)] at ha
    exact h.tables i hon va hva a ha

theorem of_eq (h : S.Translates t) (hmmus : t'.mmus = t.mmus) (hmemory : t'.memory = t.memory) :
    S.Translates t' := h.congr hmmus fun a _ => by rw [hmemory]

/-- An address in use translates, and only the TLB of the core changes. -/
theorem translate (h : S.Translates t) (i : Fin N) (hused : L.Used va)
    (isWrite isInstruction : Bool) (hstored : isWrite = true → L.Stored va)
    (hkind : ¬(isWrite = true ∧ isInstruction = true)) :
    ∃ mmus, t.translate i va isWrite isInstruction =
        (.ok (S.phys va), { t with mmus := mmus }) ∧
      S.Translates { t with mmus := mmus } := by
  obtain ⟨hr, hm⟩ := (h.maps i).ask ⟨va, isWrite, isInstruction⟩ hused hstored hkind
  have hbase := ((t.mmus i).ask_remembers t.memory.readWord ⟨va, isWrite, isInstruction⟩).1
  refine ⟨Function.update t.mmus i
    ((t.mmus i).ask t.memory.readWord ⟨va, isWrite, isInstruction⟩).2, Prod.ext hr rfl, ?_, ?_⟩
  · intro j
    by_cases hj : j = i
    · subst hj
      simpa using hm
    · simpa [hj] using h.maps j
  · intro j hon va' hva' a ha
    by_cases hj : j = i
    · subst hj
      simp only [Function.update_self] at hon ha
      rw [MMU.walkReads_base hbase] at ha
      exact h.tables j (hbase ▸ hon) va' hva' a ha
    · simp only [Function.update_of_ne hj] at hon ha
      exact h.tables j hon va' hva' a ha

theorem cacheTranslate (h : S.Translates t) (i : Fin N) (hused : L.Used va)
    (isWrite isInstruction : Bool) (hstored : isWrite = true → L.Stored va)
    (hkind : ¬(isWrite = true ∧ isInstruction = true)) :
    ∃ mmus, t.cacheTranslate i va isWrite isInstruction = (S.phys va, { t with mmus := mmus }) ∧
      S.Translates { t with mmus := mmus } := by
  obtain ⟨mmus, ht, h'⟩ := h.translate i hused isWrite isInstruction hstored hkind
  refine ⟨mmus, ?_, h'⟩
  unfold Simulator.cacheTranslate
  rw [ht]

/-- A read of a word through the data cache. -/
theorem dataRead (h : S.Translates t) (i : Fin N) {x : WordAddr} (hused : L.Used (byteAddr x)) :
    ∃ mmus, t.dataRead i (byteAddr x) =
        ((t.hierarchy.load i (byteAddr (S.place x))).1,
          { t with
            mmus := mmus
            hierarchy := (t.hierarchy.load i (byteAddr (S.place x))).2 }) ∧
      S.Translates
        { t with
          mmus := mmus
          hierarchy := (t.hierarchy.load i (byteAddr (S.place x))).2 } := by
  obtain ⟨mmus, htrans, h'⟩ := h.cacheTranslate i hused false false nofun nofun
  refine ⟨mmus, ?_, h'.of_eq rfl rfl⟩
  unfold Simulator.dataRead
  rw [htrans, S.phys_byteAddr]

/-- A write of a word through it. -/
theorem dataWrite (h : S.Translates t) (i : Fin N) {x : WordAddr}
    (hstored : L.Stored (byteAddr x)) (v : Word) :
    ∃ mmus, t.dataWrite i (byteAddr x) v =
        { t with
          mmus := mmus
          hierarchy := t.hierarchy.store i (byteAddr x) (byteAddr (S.place x)) v } ∧
      S.Translates
        { t with
          mmus := mmus
          hierarchy := t.hierarchy.store i (byteAddr x) (byteAddr (S.place x)) v } := by
  obtain ⟨mmus, htrans, h'⟩ := h.cacheTranslate i hstored.used true false (fun _ => hstored) nofun
  refine ⟨mmus, ?_, h'.of_eq rfl rfl⟩
  unfold Simulator.dataWrite
  rw [htrans, S.phys_byteAddr]

/-- A store past the caches leaves the tables alone. -/
theorem store (h : S.Translates t) (op : StoreOp) (v : Word) (hstored : L.Stored va)
    (hc : hasDataCache va = false) (ha : va.toNat % op.size = 0) :
    S.Translates { t with memory := ⟨op.apply t.memory.bytes (S.phys va).toNat v⟩ } := by
  have hlow : (S.phys va).toNat % 4 = va.toNat % 4 := physical_low
  have hread : ∀ a, S.tables a →
      (⟨op.apply t.memory.bytes (S.phys va).toNat v⟩ : ByteMemory n).readWord a =
        t.memory.readWord a := by
    intro a hta
    have hapart := S.tablesApart va a hstored hc hta
    rw [wordOf_toNat] at hapart
    change a.toNat + 4 ≤ 4 * ((S.phys va).toNat / 4) ∨
      4 * ((S.phys va).toNat / 4) + 4 ≤ a.toNat at hapart
    unfold ByteMemory.readWord
    split
    · refine load32_congr fun k hk => ?_
      simp only [StoreOp.apply, Bytes.store]
      rw [if_neg]
      cases op <;> simp only [StoreOp.size] at ha ⊢ <;> omega
    · rfl
  exact h.congr rfl hread

end Translates

/-! ## The words -/

/-- The words of the caches, of which `f` has the values, and of memory are at their
places those of the virtual memory. -/
structure Words (S : Space L) (h : Hierarchy N) (memory : ByteMemory n) (f : WordAddr → Word)
    (bytes : Bytes) : Prop where
  owned : h.Owned S.owner f
  cached : ∀ x, L.use (x.toNat / 16) ≠ .unused → InCaches L x →
    f (S.place x) = bytes.word (4 * x.toNat)
  memory : ∀ x, L.use (x.toNat / 16) ≠ .unused → hasDataCache (byteAddr x) = false →
    Bytes.word memory.bytes (4 * (S.place x).toNat) = bytes.word (4 * x.toNat)

namespace Words
variable {S} {h : Hierarchy N} {memory : ByteMemory n} {f : WordAddr → Word} {bytes : Bytes}
  {t : Simulator N n} {i : Fin N} {va : Word}

theorem fetch (hw : S.Words h memory f bytes) (i : Fin N) (a : Word) :
    S.Words (h.fetch i a).2 memory f bytes := ⟨hw.owned.fetch i a, hw.cached, hw.memory⟩

/-- Whose block a word of the caches is. -/
theorem owner_place (S : Space L) (hused : L.Used va) (hin : InCaches L (wordOf va)) :
    (S.place (wordOf va)).toNat < 0x10000000 ∧
      S.owner ((S.place (wordOf va)).toNat / 16) = L.owner ((wordOf va).toNat / 16) := by
  obtain ⟨hlt, howner⟩ := S.cached va hused hin
  have hblock : va.toNat / 64 = (wordOf va).toNat / 16 := by
    rw [wordOf_toNat]
    omega
  rw [S.place_wordOf]
  exact ⟨hlt, hblock ▸ howner⟩

/-- The fetched word is the one of the virtual memory. -/
theorem fetched (hw : S.Words h memory f bytes) (hmay : L.MayFetch va) (i : Fin N) :
    (h.fetch i (S.phys va)).1 = bytes.word va.toNat := by
  have hcode : L.use ((wordOf va).toNat / 16) = .code := (L.use_wordOf va).trans hmay.2
  have hphys : S.phys va = byteAddr (S.place (wordOf va)) := by
    rw [← S.phys_byteAddr, byteAddr_wordOf hmay.1]
  have howner := (owner_place S hmay.used (.inr hcode)).2
  rw [Layout.owner_code hcode] at howner
  rw [hphys, hw.owned.fetch_value i howner, hw.cached _ (by rw [hcode]; simp) (.inr hcode),
    ← byteAddr_toNat, byteAddr_wordOf hmay.1]

theorem readable (S : Space L) {size : Nat} (hin : InCaches L (wordOf va))
    (hmay : L.MayLoad i va size) :
    (blockPartition S.owner).Readable i (S.place (wordOf va)) := by
  obtain ⟨_, howner⟩ := owner_place S hmay.used hin
  have hread := hmay.readable
  unfold Lib.LineCache.Partition.Readable at hread ⊢
  exact hread.imp howner.trans howner.trans

theorem used_wordOf (h : L.Used va) : L.use ((wordOf va).toNat / 16) ≠ .unused := by
  rw [L.use_wordOf]
  exact h

/-- The word of an address, wherever it is kept. -/
theorem word (hw : S.Words t.hierarchy t.memory f bytes) (hp : t.PlainRam)
    (hmay : L.MayLoad i va 4) :
    (if hasDataCache va then (t.hierarchy.load i (S.phys va)).1 else t.readWord (S.phys va)) =
      bytes.word va.toNat := by
  have hused : L.Used va := hmay.used
  have hva : byteAddr (wordOf va) = va := byteAddr_wordOf hmay.1
  have hphys : S.phys va = byteAddr (S.place (wordOf va)) := by
    rw [← S.phys_byteAddr, hva]
  have hbyte : 4 * (wordOf va).toNat = va.toNat := by
    rw [← byteAddr_toNat, hva]
  rw [← hbyte]
  cases hc : hasDataCache va with
  | true =>
    have hin : InCaches L (wordOf va) := .inl ((hasDataCache_wordOf va).trans hc)
    rw [if_pos rfl, hphys, (hw.owned.load (readable S hin hmay)).1,
      hw.cached _ (used_wordOf hused) hin]
  | false =>
    have hlt := S.memory va hused hc
    have hword := hw.memory _ (used_wordOf hused) ((hasDataCache_wordOf va).trans hc)
    have hram : t.RamWord (S.place (wordOf va)) := by
      rw [S.place_wordOf]
      exact hp.ramWord_of hlt
    rw [if_neg Bool.false_ne_true, hphys, hram.readWord_eq, hword]

/-- A load takes its value out of the virtual memory. -/
theorem load (hw : S.Words t.hierarchy t.memory f bytes) (ht : S.Translates t) (hp : t.PlainRam)
    {op : LoadOp} (rd : Cores.Reg) (hmay : L.MayLoad i va op.size) :
    ∃ t', t.loadRam i rd va (if op = .lw then va else aligned va)
        (extractWord op va) (loadDirect op) =
          t'.finish i rd (op.eval bytes va.toNat) ∧
      t'.cores = t.cores ∧ t'.devices = t.devices ∧
      S.Words t'.hierarchy t'.memory f bytes ∧ S.Translates t' := by
  have hused : L.Used va := hmay.used
  rw [Simulator.lw_addr hmay.1]
  unfold Simulator.loadRam
  cases hc : hasDataCache va with
  | true =>
    have hin : InCaches L (wordOf va) := .inl ((hasDataCache_wordOf va).trans hc)
    obtain ⟨mmus, htrans, ht'⟩ := ht.cacheTranslate i (Layout.used_wordOf.mpr hused)
      false false nofun nofun
    obtain ⟨hv, howned⟩ := hw.owned.load (readable S hin hmay)
    refine ⟨{ t with
      mmus := mmus
      hierarchy := (t.hierarchy.load i (byteAddr (S.place (wordOf va)))).2 }, ?_, rfl, rfl,
      ⟨howned, hw.cached, hw.memory⟩, ht'.of_eq rfl rfl⟩
    rw [if_pos rfl]
    unfold Simulator.dataRead
    rw [htrans, S.phys_byteAddr]
    simp only
    rw [hv, hw.cached _ (used_wordOf hused) hin, wordOf_toNat,
      Simulator.extractWord_word op bytes hmay.1]
  | false =>
    obtain ⟨mmus, htrans, ht'⟩ := ht.translate i hused false false nofun nofun
    have hlow : (S.phys va).toNat % 4 = va.toNat % 4 := physical_low
    have hram : ({ t with mmus := mmus } : Simulator N n).RamWord (wordOf (S.phys va)) :=
      (hp.ramWord_of (S.memory va hused hc)).devices rfl
    have halign : (S.phys va).toNat % op.size = 0 := by
      rw [← Nat.mod_mod_of_dvd _ op.size_dvd, hlow, Nat.mod_mod_of_dvd _ op.size_dvd, hmay.1]
    refine ⟨{ t with mmus := mmus }, ?_, rfl, rfl, hw, ht'⟩
    rw [if_neg Bool.false_ne_true, htrans]
    simp only
    have hword := hw.memory _ (used_wordOf hused) ((hasDataCache_wordOf va).trans hc)
    rw [S.place_wordOf, wordOf_toNat va] at hword
    rw [hram.loadDirect_eq op halign, hram.readWord_eq, ← Simulator.extractWord_low op hlow, hword,
      Simulator.extractWord_word op bytes hmay.1]

/-- The physical address decides where a store goes, outside the page table region. -/
theorem store_addr (h : Hierarchy N) (i : Fin N) {addr pa : Word}
    (hpa : inPageTable addr = true → addr = pa) (v : Word) :
    h.store i addr pa v = h.store i pa pa v := by
  cases hin : inPageTable addr with
  | true => rw [hpa hin]
  | false =>
    have hthrough : writeThroughAddr addr pa = writeThroughAddr pa pa := by
      unfold writeThroughAddr
      rw [hin]
      cases inPageTable pa <;> simp
    unfold Hierarchy.store Level.write
    rw [hthrough]

/-- A word is stored through the cache of its owner. -/
theorem storeWord (hw : S.Words h memory f bytes) {op : StoreOp} (hmay : L.MayStore i va op.size)
    (hc : hasDataCache va = true) (v : Word) :
    S.Words (h.store i (byteAddr (wordOf va)) (byteAddr (S.place (wordOf va)))
        (insertWord op va (bytes.word (4 * (wordOf va).toNat)) v)) memory
      (Function.update f (S.place (wordOf va))
        (insertWord op va (bytes.word (4 * (wordOf va).toNat)) v))
      (op.apply bytes va.toNat v) := by
  have hstored : L.Stored va := hmay.stored
  have hc' : hasDataCache (byteAddr (wordOf va)) = true := (hasDataCache_wordOf va).trans hc
  obtain ⟨hlt, howner⟩ := owner_place S hmay.used (.inl hc')
  rw [hmay.owner hc] at howner
  obtain ⟨hwindow, htable⟩ := S.stores _ (Layout.stored_wordOf.mpr hstored) hc'
  have hphys : physical S.frame (byteAddr (wordOf va)) = byteAddr (S.place (wordOf va)) :=
    S.phys_byteAddr _
  rw [hphys] at hwindow htable
  rw [wordOf_byteAddr] at hwindow
  rw [store_addr h i (fun hin => (htable hin).symm)]
  have hword := fun y : WordAddr => Simulator.apply_word op bytes v hmay.1 y
  refine ⟨hw.owned.store howner hlt hwindow _, fun y hy hin => ?_, fun y hy hcy => ?_⟩
  · rw [hword]
    by_cases hyx : y = wordOf va
    · rw [if_pos hyx, hyx, Function.update_self]
    · rw [if_neg hyx, Function.update_of_ne]
      · exact hw.cached y hy hin
      · intro hplace
        have hused : L.Used (byteAddr y) := by
          unfold Layout.Used
          rwa [L.useOf_byteAddr]
        have hsame := S.cachedApart va (byteAddr y) hstored hc hused
          (by rwa [wordOf_byteAddr]) (hplace.trans (S.place_wordOf va))
        rw [wordOf_byteAddr] at hsame
        exact hyx hsame
  · rw [hword, if_neg (Simulator.ne_wordOf (by rw [hcy, hc]; decide))]
    exact hw.memory y hy hcy

/-- A word is stored past the caches. -/
theorem storeMemory (hw : S.Words h memory f bytes) {op : StoreOp}
    (hmay : L.MayStore i va op.size) (hc : hasDataCache va = false) (v : Word) :
    S.Words h ⟨op.apply memory.bytes (S.phys va).toNat v⟩ f (op.apply bytes va.toNat v) := by
  have hstored : L.Stored va := hmay.stored
  have hlow : (S.phys va).toNat % 4 = va.toNat % 4 := physical_low
  have halign : (S.phys va).toNat % op.size = 0 := by
    rw [← Nat.mod_mod_of_dvd _ op.size_dvd, hlow, Nat.mod_mod_of_dvd _ op.size_dvd, hmay.1]
  have hword := fun y : WordAddr => Simulator.apply_word op bytes v hmay.1 y
  have hphys := fun y : WordAddr => Simulator.apply_word op memory.bytes v halign y
  refine ⟨hw.owned, fun y hy hin => ?_, fun y hy hcy => ?_⟩
  · -- the stored word is neither cached nor code
    have hne : y ≠ wordOf va := by
      rintro rfl
      rcases hin with hin | hin
      · rw [hasDataCache_wordOf, hc] at hin
        cases hin
      · rw [L.use_wordOf] at hin
        rcases hmay.2 with h | h <;> rw [hin] at h <;> cases h
    rw [hword, if_neg hne]
    exact hw.cached y hy hin
  · rw [hword, hphys, ← S.place_wordOf]
    by_cases hyx : y = wordOf va
    · rw [if_pos hyx, if_pos (congrArg S.place hyx), hw.memory y hy hcy,
        Simulator.insertWord_low op hlow]
    · rw [if_neg hyx, if_neg]
      · exact hw.memory y hy hcy
      · intro hplace
        have hused : L.Used (byteAddr y) := by
          unfold Layout.Used
          rwa [L.useOf_byteAddr]
        have hsame := S.memoryApart va (byteAddr y) hstored hc hused hcy
          (hplace.trans (S.place_wordOf va))
        rw [wordOf_byteAddr] at hsame
        exact hyx hsame

/-- What a store makes of the data cache; parts of a word are loaded first. -/
theorem storeCached (hw : S.Words t.hierarchy t.memory f bytes) (ht : S.Translates t)
    {op : StoreOp} (v : Word) (hmay : L.MayStore i va op.size) (hc : hasDataCache va = true) :
    ∃ mmus h' f',
      (match op with
        | .sw => t.dataWrite i va v
        | .sb | .sh => t.modifyWord i va (insertWord op va · v)) =
          { t with mmus := mmus, hierarchy := h' } ∧
      S.Words h' t.memory f' (op.apply bytes va.toNat v) ∧
      S.Translates { t with mmus := mmus, hierarchy := h' } := by
  have hused : L.Used va := hmay.used
  have hin : InCaches L (wordOf va) := .inl ((hasDataCache_wordOf va).trans hc)
  have hstored := Layout.stored_wordOf.mpr hmay.stored
  cases op with
  | sw =>
    have hva : byteAddr (wordOf va) = va := byteAddr_wordOf hmay.1
    obtain ⟨mmus, hwrite, ht'⟩ := ht.dataWrite i hstored v
    rw [hva] at hwrite ht'
    have hw' := hw.storeWord hmay hc v
    rw [hva] at hw'
    exact ⟨mmus, _, _, hwrite, hw', ht'⟩
  | sb | sh =>
    obtain ⟨mmus, hread, ht₁⟩ := ht.dataRead i hstored.used
    have howns : S.owner ((S.place (wordOf va)).toNat / 16) = some i :=
      (owner_place S hused hin).2.trans (hmay.owner hc)
    obtain ⟨hv, howned⟩ := hw.owned.load (.inr howns)
    have hw₁ : S.Words (t.hierarchy.load i (byteAddr (S.place (wordOf va)))).2 t.memory f bytes :=
      ⟨howned, hw.cached, hw.memory⟩
    obtain ⟨mmus', hwrite, ht'⟩ := ht₁.dataWrite i hstored
      (insertWord _ va (bytes.word (4 * (wordOf va).toNat)) v)
    refine ⟨mmus', _, _, ?_, hw₁.storeWord hmay hc v, ht'⟩
    unfold Simulator.modifyWord
    rw [Simulator.aligned_eq, hread]
    simp only
    rw [hv, hw.cached _ (used_wordOf hused) hin]
    exact hwrite

/-- A store puts its operand into the virtual memory. -/
theorem store (hw : S.Words t.hierarchy t.memory f bytes) (ht : S.Translates t) (hp : t.PlainRam)
    {op : StoreOp} (v : Word) (hmay : L.MayStore i va op.size) :
    ∃ t' f', t.storeRam i va
        (fun t => match op with
          | .sw => t.dataWrite i va v
          | .sb | .sh => t.modifyWord i va (insertWord op va · v))
        (fun t physAddr => storeDirect op t physAddr v) = t'.next i ∧
      t'.cores = t.cores ∧ t'.devices = t.devices ∧
      S.Words t'.hierarchy t'.memory f' (op.apply bytes va.toNat v) ∧ S.Translates t' := by
  have hused : L.Used va := hmay.used
  have hstored : L.Stored va := hmay.stored
  unfold Simulator.storeRam
  cases hc : hasDataCache va with
  | true =>
    obtain ⟨mmus, h', f', heq, hw', ht'⟩ := hw.storeCached ht v hmay hc
    refine ⟨{ t with mmus := mmus, hierarchy := h' }, f', ?_, rfl, rfl, hw', ht'⟩
    rw [if_pos rfl]
    exact congrArg (fun u : Simulator N n => u.next i) heq
  | false =>
    obtain ⟨mmus, htrans, ht'⟩ := ht.translate i hused true false (fun _ => hstored) nofun
    have hlow : (S.phys va).toNat % 4 = va.toNat % 4 := physical_low
    have hram : ({ t with mmus := mmus } : Simulator N n).RamWord (wordOf (S.phys va)) :=
      (hp.ramWord_of (S.memory va hused hc)).devices rfl
    have halign : (S.phys va).toNat % op.size = 0 := by
      rw [← Nat.mod_mod_of_dvd _ op.size_dvd, hlow, Nat.mod_mod_of_dvd _ op.size_dvd, hmay.1]
    refine ⟨{ t with
      mmus := mmus
      memory := ⟨op.apply t.memory.bytes (S.phys va).toNat v⟩ }, f, ?_, rfl, rfl,
      hw.storeMemory hmay hc v, ht'.store op v hstored hc hmay.1⟩
    rw [if_neg Bool.false_ne_true, htrans]
    simp only
    rw [hram.storeDirect_eq op v halign]

end Words

/-! ## Without translation -/

theorem physical_id (va : Word) : physical (fun page => page) va = va := by
  have h4096 : (4096 : Word).toNat = 4096 := rfl
  refine BitVec.eq_of_toNat_eq ?_
  unfold physical
  rw [BitVec.toNat_add, BitVec.toNat_mul, BitVec.toNat_umod, BitVec.toNat_ushiftRight,
    Nat.shiftRight_eq_div_pow, h4096]
  omega

theorem plain_cached (hn : n ≤ 0x02000000) (va : Word) (hused : L.Used va) :
    (wordOf (physical (fun page => page) va)).toNat < 0x10000000 ∧
      L.owner ((wordOf (physical (fun page => page) va)).toNat / 16) = L.owner (va.toNat / 64) := by
  have hlt := Layout.lt_of_used hused
  rw [physical_id, wordOf_toNat]
  refine ⟨by omega, ?_⟩
  congr 1
  omega

theorem plain_stores (va : Word) (hstored : L.Stored va) :
    ¬InWindowLine (wordOf (physical (fun page => page) va)) ∧
      (inPageTable va = true → physical (fun page => page) va = va) := by
  rw [physical_id]
  exact ⟨Layout.outside_window hstored.used, fun _ => rfl⟩

theorem plain_apart (va va' : Word)
    (h : wordOf (physical (fun page => page) va') = wordOf (physical (fun page => page) va)) :
    wordOf va' = wordOf va := by
  rwa [physical_id, physical_id] at h

theorem plain_memory (va : Word) (hused : L.Used va) :
    (physical (fun page => page) va).toNat < n := by
  rw [physical_id]
  exact Layout.lt_of_used hused

/-- Every address is its own translation. -/
def plain (L : Layout N n) (hn : n ≤ 0x02000000) : Space L where
  frame page := page
  owner := L.owner
  tables _ := False
  cached va hused _ := plain_cached hn va hused
  stores va hstored _ := plain_stores va hstored
  memory va hused _ := plain_memory va hused
  cachedApart va va' _ _ _ _ h := plain_apart va va' h
  memoryApart va va' _ _ _ _ h := plain_apart va va' h
  tablesApart _ _ _ _ h := h.elim

section
variable {hn : n ≤ 0x02000000}

theorem plain_phys (va : Word) : (plain L hn).phys va = va := physical_id va

theorem plain_place (x : WordAddr) : (plain L hn).place x = x := by
  unfold place
  rw [plain_phys, wordOf_byteAddr]

theorem plain_translates {t : Simulator N n} (hu : ∀ i, t.Untranslated i) :
    (plain L hn).Translates t :=
  ⟨fun i => .untranslated (hu i) plain_phys, fun i hon => absurd (hu i) hon⟩

end

end Space
end RiscvEmulator.System
