import RiscvEmulator.Memory.CachedWords
import RiscvEmulator.System.ByteArray
import RiscvEmulator.System.Continuation
import RiscvEmulator.System.DecodedStep
import RiscvEmulator.System.OneWord

/-! # The memory that the debugger shows

`Debugger::read_memory_word` and `read_memory_byte` read the simulator's own memory, and
the core's loads go through the data cache to the L2 and DDR where the PMA table says.
The two show the same of a cached word as long as nothing has stored into it. -/
namespace RiscvEmulator.Debug
open RiscvEmulator.System Memory Cores Isa Simulator

variable {N n : Nat}

/-! ## Reading -/

def readMemoryWord (s : Simulator N n) (addr : Word) : Word × Simulator N n :=
  (s.readWord addr, s)

def readMemoryByte (s : Simulator N n) (addr : Word) : Byte × Simulator N n :=
  let (word, s) := readMemoryWord s (addr &&& ~~~0x3#32)
  let byteOffset := addr &&& 0x3
  (((word >>> (byteOffset * 8).toNat) &&& 0xFF).setWidth 8, s)

/-- What a load of the core leaves in `rd`, if it raises no exception. -/
def loads (s : Simulator 1 n) (op : LoadOp) (rd : Cores.Reg) (addr : Word) : Option Word :=
  match s.loadDecoded core0 op rd addr with
  | .done t => some ((t.cores core0).regs rd)
  | .fault _ => none

/-- The debugger reads of RAM what LW and LBU would, and changes nothing. -/
structure Agrees (s : Simulator 1 n) : Prop where
  word : ∀ addr rd, s.RamWord (wordOf addr) → addr.toNat % 4 = 0 → rd ≠ 0 →
    loads s .lw rd addr = some (readMemoryWord s addr).1
  byte : ∀ addr rd, s.RamWord (wordOf addr) → rd ≠ 0 →
    loads s .lbu rd addr = some ((readMemoryByte s addr).1.setWidth 32)
  unchanged : ∀ addr, (readMemoryWord s addr).2 = s ∧ (readMemoryByte s addr).2 = s

section
variable {s : Simulator 1 n} {addr : Word} {rd : Cores.Reg}

theorem readMemoryByte_eq (s : Simulator N n) (addr : Word) :
    (readMemoryByte s addr).1 = byteOf addr (s.readWord (aligned addr)) := by
  show ((s.readWord (aligned addr) >>> ((addr &&& 0x3) * 8).toNat) &&& 0xFF).setWidth 8 =
    (s.readWord (aligned addr) >>> ((addr &&& 0x3) * 8).toNat).setWidth 8
  generalize s.readWord (aligned addr) >>> ((addr &&& 0x3) * 8).toNat = v
  refine BitVec.eq_of_getLsbD_eq fun j hj => ?_
  have hmask : (0xFF : Word).getLsbD j = true := by
    rw [show (0xFF : Word) = BitVec.ofNat 32 (2 ^ 8 - 1) from rfl, getLsbD_mask 8 j (by omega)]
    exact decide_eq_true hj
  rw [BitVec.getLsbD_setWidth, BitVec.getLsbD_setWidth, BitVec.getLsbD_and, hmask, Bool.and_true]

theorem writeback_self (c : Core) (rd : Cores.Reg) (v : Word) :
    (c.writeback rd (some v)).regs rd = v := Function.update_self ..

theorem loadDecoded_eq (s : Simulator N n) (i : Fin N) (op : LoadOp) (rd : Cores.Reg)
    (addr : Word) : s.loadDecoded i op rd addr = s.loadRam i rd addr
      (if op = .lw then addr else aligned addr) (extractWord op addr) (loadDirect op) := by
  cases op <;> rfl

theorem storeDecoded_eq (s : Simulator N n) (i : Fin N) (op : StoreOp) (addr v : Word) :
    s.storeDecoded i op addr v = s.storeRam i addr
      (fun t => match op with
        | .sw => t.dataWrite i addr v
        | .sb | .sh => t.modifyWord i addr (insertWord op addr · v))
      fun t physAddr => storeDirect op t physAddr v := by
  cases op <;> rfl

/-- A load takes its value out of the word it finds. -/
theorem loads_eq (hu : s.Untranslated core0) (hx : s.RamWord (wordOf addr)) (op : LoadOp)
    (ha : addr.toNat % op.size = 0) (rd : Cores.Reg) : loads s op rd addr =
      some (extractWord op addr (s.ramWord core0 (byteAddr (wordOf addr)))) := by
  unfold loads
  rw [loadDecoded_eq, lw_addr ha]
  unfold loadRam ramWord
  rw [hasDataCache_wordOf]
  cases hasDataCache addr with
  | true =>
    simp only [if_true, hu.dataRead_eq, Simulator.finish, setCore_cores_self, writeback_self]
  | false =>
    simp only [Bool.false_eq_true, if_false, hu.translate_eq, Simulator.finish,
      setCore_cores_self, writeback_self, hx.loadDirect_eq op ha]

/-- So the debugger reads the same exactly if it finds the same word. -/
theorem agrees_iff (hu : s.Untranslated core0) :
    Agrees s ↔ ∀ x, s.RamWord x → s.ramWord core0 (byteAddr x) = s.readWord (byteAddr x) := by
  constructor
  · intro h x hx
    have haligned : (byteAddr x).toNat % 4 = 0 := aligned_byteAddr x
    have hx' : s.RamWord (wordOf (byteAddr x)) := by rwa [wordOf_byteAddr]
    have hword := h.word (byteAddr x) 1 hx' haligned (by decide)
    rw [loads_eq hu hx' .lw haligned, wordOf_byteAddr] at hword
    exact Option.some.inj hword
  · intro h
    refine ⟨fun addr rd hx ha _ => ?_, fun addr rd hx _ => ?_, fun _ => ⟨rfl, rfl⟩⟩
    · rw [loads_eq hu hx .lw ha, h _ hx]
      show some (s.readWord (byteAddr (wordOf addr))) = some (s.readWord addr)
      rw [byteAddr_wordOf ha]
    · rw [loads_eq hu hx .lbu (Nat.mod_one _), h _ hx, readMemoryByte_eq, aligned_eq]
      rfl

/-- That is, if the caches show of the cached words what memory has. -/
theorem agrees_iff_cached (hu : s.Untranslated core0) (hg : s.hierarchy.Good) :
    Agrees s ↔ ∀ x, s.RamWord x → hasDataCache (byteAddr x) = true →
      s.hierarchy.coreView x = s.readWord (byteAddr x) := by
  rw [agrees_iff hu]
  constructor
  · intro h x hx hc
    rw [← h x hx, ramWord_cached hc hg]
    rfl
  · intro h x hx
    cases hc : hasDataCache (byteAddr x) with
    | true =>
      rw [← h x hx hc, ramWord_cached hc hg]
      rfl
    | false => exact ramWord_uncached hc core0

end

/-! ## What a step keeps -/

/-- The cached words are as they were, to the core and in memory. -/
structure KeepsCached (s t : Simulator 1 n) : Prop where
  hierarchy : s.hierarchy.KeepsCached t.hierarchy
  memory : ∀ b : Word, hasDataCache b = true → t.memory.bytes b.toNat = s.memory.bytes b.toNat
  windows : t.devices.map Prod.fst = s.devices.map Prod.fst

section
variable {s t u : Simulator 1 n} {addr : Word}

theorem KeepsCached.refl (ho : s.hierarchy.Orderly) : KeepsCached s s :=
  ⟨ho.kept, fun _ _ => rfl, rfl⟩

theorem KeepsCached.trans (h : KeepsCached s t) (h' : KeepsCached t u) : KeepsCached s u :=
  ⟨h.hierarchy.trans h'.hierarchy, fun b hb => (h'.memory b hb).trans (h.memory b hb),
    h'.windows.trans h.windows⟩

/-- Nothing but the caches has changed. -/
theorem KeepsCached.caches (hk : s.hierarchy.KeepsCached t.hierarchy) (hm : t.memory = s.memory)
    (hd : t.devices = s.devices) : KeepsCached s t :=
  ⟨hk, fun _ _ => by rw [hm], by rw [hd]⟩

/-- Nothing has changed that an access goes to. -/
theorem KeepsCached.aside (ho : s.hierarchy.Orderly) (hh : t.hierarchy = s.hierarchy)
    (hm : t.memory = s.memory) (hd : t.devices = s.devices) : KeepsCached s t :=
  .caches (hh ▸ ho.kept) hm hd

theorem any_inDevice (s : Simulator N n) (addr : Word) : s.devices.any (inDevice addr) =
    (s.devices.map Prod.fst).any fun base => inDevice addr (base, {}) := by
  rw [List.any_map]
  rfl

theorem KeepsCached.ramWord (h : KeepsCached s t) {x : WordAddr} (hx : t.RamWord x) :
    s.RamWord x := by
  refine ⟨hx.inside, fun addr haddr => ?_, hx.noClint⟩
  rw [any_inDevice, ← h.windows, ← any_inDevice]
  exact hx.noDevice addr haddr

theorem KeepsCached.ramWord_iff (h : KeepsCached s t) (x : WordAddr) :
    t.RamWord x ↔ s.RamWord x := by
  refine ⟨h.ramWord, fun hx => ⟨hx.inside, fun addr haddr => ?_, hx.noClint⟩⟩
  rw [any_inDevice, h.windows, ← any_inDevice]
  exact hx.noDevice addr haddr

/-- The debugger reads the cached words as before. -/
theorem KeepsCached.readWord (h : KeepsCached s t) {x : WordAddr} (hx : s.RamWord x)
    (hc : hasDataCache (byteAddr x) = true) :
    t.readWord (byteAddr x) = s.readWord (byteAddr x) := by
  rw [hx.readWord_eq, ((h.ramWord_iff x).mpr hx).readWord_eq, ← load32_eq_word, ← load32_eq_word]
  refine load32_congr fun k hk => ?_
  obtain ⟨b, hb, hcb⟩ := cached_byte hc hk
  have hbyte := h.memory b hcb
  rwa [hb] at hbyte

/-! ## Accesses -/

/-- A fetch, translated or not. -/
theorem keeps_fetch (ho : s.hierarchy.Orderly) (addr : Word) :
    KeepsCached s (s.fetch 0 addr).2 := by
  have hacc := s.fetch_accessed 0 addr
  have hh := (s.cacheTranslate_accessed 0 addr false true).2
  refine .caches ?_ hacc.memory hacc.devices
  show s.hierarchy.KeepsCached ((s.cacheTranslate 0 addr false true).2.hierarchy.fetch 0 _).2
  rw [hh]
  exact ho.fetch _

theorem keeps_dataRead (ho : s.hierarchy.Orderly) (hu : s.Untranslated 0) (addr : Word) :
    KeepsCached s (s.dataRead 0 addr).2 := by
  rw [hu.dataRead_eq]
  exact .caches (ho.load addr) rfl rfl

theorem keeps_dataReadWord (ho : s.hierarchy.Orderly) (hu : s.Untranslated 0) (addr : Word) :
    KeepsCached s (s.dataReadWord 0 addr).2 := by
  rw [hu.dataReadWord_eq]
  exact .caches (ho.readWord addr) rfl rfl

/-- The word of an address that is not cached, but is one of DDR. -/
structure Uncached (addr : Word) : Prop where
  uncached : hasDataCache addr = false
  backed : addr.toNat < ddrSize

theorem Uncached.word (h : Uncached addr) : (wordOf addr).toNat < 0x10000000 := by
  have hlt : addr.toNat < 0x40000000 := h.backed
  rw [wordOf_toNat]
  omega

theorem keeps_dataWriteWord (ho : s.hierarchy.Orderly) (hu : s.Untranslated 0)
    (ha : Uncached addr) (v : Word) : KeepsCached s (s.dataWriteWord 0 addr v) := by
  rw [hu.dataWriteWord_eq]
  exact .caches (ho.writeWord ha.uncached ha.word v) rfl rfl

theorem keeps_dataAtomic (ho : s.hierarchy.Orderly) (hu : s.Untranslated 0)
    (ha : Uncached addr) (op : Atomic) : KeepsCached s (s.dataAtomic 0 addr op).2 := by
  rw [hu.dataAtomic_eq]
  exact .caches (ho.atomic ha.uncached ha.word op) rfl rfl

/-- None of `size` bytes is cached. -/
def UncachedBytes (addr : Word) (size : Nat) : Prop :=
  ∀ b : Word, addr.toNat ≤ b.toNat → b.toNat < addr.toNat + size → hasDataCache b = false

theorem UncachedBytes.apart {size : Nat} (h : UncachedBytes addr size) {b : Word}
    (hb : hasDataCache b = true) : b.toNat < addr.toNat ∨ addr.toNat + size ≤ b.toNat := by
  by_contra hin
  rw [h b (by omega) (by omega)] at hb
  cases hb

/-- A device is written where it is. -/
theorem writeDevice_windows (s : Simulator N n) (p : Word × Device.UART → Bool)
    (write : Word × Device.UART → Device.UART) :
    (s.writeDevice p write).devices.map Prod.fst = s.devices.map Prod.fst := by
  show (s.devices.modify (s.devices.findIdx p) _).map Prod.fst = s.devices.map Prod.fst
  generalize s.devices.findIdx p = k
  generalize s.devices = devices
  induction devices generalizing k with
  | nil => cases k <;> rfl
  | cons dev devices ih =>
    cases k with
    | zero => rfl
    | succ k =>
      rw [List.modify_succ_cons, List.map_cons, List.map_cons, ih]

theorem keeps_writeDevice (ho : s.hierarchy.Orderly) (p : Word × Device.UART → Bool)
    (write : Word × Device.UART → Device.UART) : KeepsCached s (s.writeDevice p write) :=
  ⟨ho.kept, fun _ _ => rfl, writeDevice_windows s p write⟩

/-- A store past the caches into bytes that are not cached. -/
theorem keeps_storeDirect (ho : s.hierarchy.Orderly) (op : StoreOp)
    (ha : UncachedBytes addr op.size) (v : Word) : KeepsCached s (storeDirect op s addr v) := by
  have hmemory : ∀ m : ByteMemory n,
      (∀ b : Word, hasDataCache b = true → m.bytes b.toNat = s.memory.bytes b.toNat) →
        KeepsCached s { s with memory := m } :=
    fun m hm => ⟨ho.kept, hm, rfl⟩
  cases op with
  | sb =>
    show KeepsCached s (s.writeByte addr (v.setWidth 8))
    unfold writeByte
    split
    · exact keeps_writeDevice ho _ _
    · refine hmemory _ fun b hb => ?_
      have hapart : b.toNat < addr.toNat ∨ addr.toNat + 1 ≤ b.toNat := ha.apart hb
      unfold ByteMemory.writeByte
      split
      · exact Function.update_of_ne (by omega) _ _
      · rfl
  | sh =>
    show KeepsCached s (s.writeHalfword addr (v.setWidth 16))
    unfold writeHalfword
    split
    · exact keeps_writeDevice ho _ _
    · refine hmemory _ fun b hb => ?_
      have hapart : b.toNat < addr.toNat ∨ addr.toNat + 2 ≤ b.toNat := ha.apart hb
      unfold ByteMemory.writeHalfword store16
      split
      · simp only [Function.update_apply]
        rw [if_neg (by omega), if_neg (by omega)]
      · rfl
  | sw =>
    show KeepsCached s (s.writeWord addr v)
    unfold Simulator.writeWord
    split
    · exact keeps_writeDevice ho _ _
    · split
      · exact .aside ho rfl rfl rfl
      · refine hmemory _ fun b hb => ?_
        exact ByteMemory.writeWord_other _ _ _ (ha.apart hb)

/-! ## Instructions -/

/-- An instruction that stores into no cached byte of RAM. An atomic acts on the word of its
address, in the caches, so that DDR is to have it. -/
def Spares (n : Nat) (regs : Cores.Reg → Word) : Decoded → Prop
  | .store op _ rs1 imm => (regs rs1 + imm).toNat < n → UncachedBytes (regs rs1 + imm) op.size
  | .sc _ rs1 _ => (regs rs1).toNat < n → Uncached (regs rs1)
  | .amo _ _ rs1 _ => (regs rs1).toNat < n → Uncached (regs rs1)
  | _ => True

theorem KeepsCached.setCore (h : KeepsCached s t) (c : Core) : KeepsCached s (t.setCore 0 c) :=
  ⟨h.hierarchy, h.memory, h.windows⟩

/-- A CSR may set up the MMU or clear the counters. -/
theorem KeepsCached.writeCsr (h : KeepsCached s t) (csrAddr : BitVec 12) (v : Word) :
    KeepsCached s (t.writeCsr 0 csrAddr v) := by
  unfold Simulator.writeCsr
  simp only
  split
  · exact ⟨h.hierarchy, h.memory, h.windows⟩
  · split <;> exact ⟨h.hierarchy, h.memory, h.windows⟩

section
variable (h : KeepsCached s t)
include h

theorem KeepsCached.finish (rd : Cores.Reg) (v : Word) :
    KeepsCached s (exitState (t.finish 0 rd v)) := h.setCore _

theorem KeepsCached.next : KeepsCached s (exitState (t.next 0)) := h.setCore _

theorem KeepsCached.fault (ex : ExceptionType) : KeepsCached s (exitState (t.fault 0 ex)) :=
  h.setCore _

end

section
variable (ho : s.hierarchy.Orderly) (hu : s.Untranslated 0)
include ho hu

theorem keeps_load (op : LoadOp) (rd : Cores.Reg) (addr : Word) :
    KeepsCached s (exitState (s.loadDecoded 0 op rd addr)) := by
  rw [loadDecoded_eq]
  unfold loadRam
  split
  · exact (keeps_dataRead ho hu _).finish rd _
  · rw [hu.translate_eq]
    exact (KeepsCached.refl ho).finish rd _

omit hu in
theorem keeps_loadMmio (rd : Cores.Reg) (funct3 : BitVec 3) (addr : Word) :
    KeepsCached s (exitState (s.loadMmio 0 rd funct3 addr)) := by
  have hs := KeepsCached.refl ho
  unfold loadMmio
  split
  · exact hs.finish rd _
  · split
    · exact hs.finish rd _
    · split
      · exact hs.finish rd _
      · exact hs.fault _

theorem keeps_store (op : StoreOp) (ha : UncachedBytes addr op.size) (v : Word) :
    KeepsCached s (exitState (s.storeDecoded 0 op addr v)) := by
  have hpos : 0 < op.size := by cases op <;> decide
  have hnot : ¬hasDataCache addr = true := by
    rw [ha addr (Nat.le_refl _) (by omega)]
    exact Bool.false_ne_true
  rw [storeDecoded_eq]
  unfold storeRam
  rw [if_neg hnot, hu.translate_eq]
  exact (keeps_storeDirect ho op ha v).next

omit hu in
/-- Beyond RAM a store reaches a device, the CLINT or nothing. -/
theorem keeps_storeMmio (funct3 : BitVec 3) (haddr : n ≤ addr.toNat) (v : Word) :
    KeepsCached s (exitState (s.storeMmio 0 funct3 addr v)) := by
  unfold storeMmio
  split
  · exact (keeps_writeDevice ho _ _).next
  · split
    · refine KeepsCached.next ?_
      unfold Simulator.writeWord
      split
      · exact keeps_writeDevice ho _ _
      · split
        · exact .aside ho rfl rfl rfl
        · refine .aside ho rfl ?_ rfl
          exact if_neg (by omega)
    · exact (KeepsCached.refl ho).fault _

/-- An atomic in RAM, or none. -/
theorem keeps_atomicAt (rd rs1 : Cores.Reg)
    {ram : Simulator 1 n → Word → Exit (Simulator 1 n)}
    (hram : ((s.cores 0).regs rs1).toNat < n →
      KeepsCached s (exitState (ram s ((s.cores 0).regs rs1)))) :
    KeepsCached s (exitState (s.atomicAt 0 rd rs1 ram)) := by
  unfold atomicAt
  simp only [hu.translate_eq]
  split
  · next hlt => exact hram hlt
  · exact (KeepsCached.refl ho).finish rd 0

theorem keeps_amo (ha : Uncached addr) (op : AmoOp) (rd : Cores.Reg) (v : Word) :
    KeepsCached s (exitState (s.amoDecoded 0 op rd addr v)) := by
  have hcache : ∀ a, KeepsCached s (exitState (s.amoCache 0 rd addr a)) :=
    fun a => (keeps_dataAtomic ho hu ha a).finish rd _
  have hselect : ∀ keeps, KeepsCached s (exitState (s.amoSelect 0 rd addr v keeps)) := by
    intro keeps
    have hread := keeps_dataReadWord ho hu addr
    have hu' : (s.dataReadWord 0 addr).2.Untranslated 0 := by
      rw [hu.dataReadWord_eq]
      exact hu
    exact (hread.trans (keeps_dataWriteWord hread.hierarchy.orderly hu' ha _)).finish rd _
  cases op with
  | add => exact hcache (.add v)
  | swap => exact hcache (.swap v)
  | and => exact hcache (.fetchAndAnd v)
  | or => exact hcache (.fetchAndOr v)
  | xor => exact hcache (.fetchAndXor v)
  | min => exact hselect fun oldVal v => oldVal.slt v
  | max => exact hselect fun oldVal v => v.slt oldVal
  | minu => exact hselect fun oldVal v => oldVal < v
  | maxu => exact hselect fun oldVal v => v < oldVal

omit hu in
theorem keeps_csr (op : CsrOp) (rd : Cores.Reg) (csrAddr : BitVec 12)
    (operand : Simulator 1 n → Word) :
    KeepsCached s (exitState (s.csrDecoded 0 op rd csrAddr operand)) := by
  have hread : KeepsCached s (s.readCsr 0 csrAddr).2 := (KeepsCached.refl ho).setCore _
  exact ((hread.setCore _).writeCsr csrAddr _).next

theorem keeps_run {d : Decoded} {e : Exit (Simulator 1 n)}
    (hd : Spares n (s.cores 0).regs d) (h : s.run 0 d = .ok e) : KeepsCached s (exitState e) := by
  have hs := KeepsCached.refl ho
  have hcomputes : ∀ rd v, s.computes 0 rd v = .ok e → KeepsCached s (exitState e) := by
    intro rd v hv
    cases v with
    | error a => cases hv
    | ok v =>
      cases hv
      exact hs.setCore _
  cases d with
  | imm | shift | op | mulDiv | lui | auipc => exact hcomputes _ _ h
  | load op rd rs1 imm =>
    cases h
    split
    · exact keeps_load ho hu op rd _
    · exact keeps_loadMmio ho rd _ _
  | store op rs2 rs1 imm =>
    cases h
    split
    · next hlt => exact keeps_store ho hu op (hd hlt) _
    · next hlt => exact keeps_storeMmio ho _ (Nat.not_lt.mp hlt) _
  | lr rd rs1 =>
    cases h
    exact keeps_atomicAt ho hu rd rs1 fun _ => (keeps_dataReadWord ho hu _).finish rd _
  | sc rd rs1 rs2 =>
    cases h
    exact keeps_atomicAt ho hu rd rs1 fun hlt =>
      (keeps_dataWriteWord ho hu (hd hlt) _).finish rd _
  | amo op rd rs1 rs2 =>
    cases h
    exact keeps_atomicAt ho hu rd rs1 fun hlt => keeps_amo ho hu (hd hlt) op rd _
  | csr | csrImm =>
    cases h
    exact keeps_csr ho _ _ _ _
  | strayLoad rd rs1 imm =>
    cases h
    split
    · exact hs.finish rd _
    · exact keeps_loadMmio ho rd _ _
  | strayStore rs2 rs1 imm =>
    cases h
    split
    · exact hs.next
    · next hlt => exact keeps_storeMmio ho _ (Nat.not_lt.mp hlt) _
  | strayAmo rd rs1 =>
    cases h
    exact keeps_atomicAt ho hu rd rs1 fun _ => (hs.setCore _).next
  | jal | jalr | branch | ecall | mret | fence | skip | straySystem =>
    cases h
    exact .aside ho rfl rfl rfl

end

/-! ## Runs -/

/-- The instruction that the step fetches, if it fetches one, spares the cached bytes. -/
def SparesCached (s : Simulator 1 n) : Prop :=
  ∀ s₁ instr, s.Fetches core0 s₁ instr → Spares n (s.cores core0).regs (decode instr)

theorem keeps_step (ho : s.hierarchy.Orderly) (hu : s.Untranslated 0) (hs : SparesCached s)
    (h : s.step 0 = .ok t) : KeepsCached s t := by
  rcases step_cases h with hp | ⟨s₁, instr, e, hf, he, rfl⟩
  · obtain ⟨hdata, hh⟩ := (SameButGate.prepare hp).sameData
    exact .aside ho hh hdata.memory hdata.devices
  · obtain ⟨hdata, hh⟩ := (SameButGate.prepare hf.prepared).sameData
    have hgate : KeepsCached s s₁ := .aside ho hh hdata.memory hdata.devices
    have hfetch : KeepsCached s (s₁.fetchPc 0).2 :=
      hgate.trans (keeps_fetch hgate.hierarchy.orderly (s₁.cores 0).pc)
    rw [execute_decode] at he
    have hspares : Spares n (((s₁.fetchPc 0).2).cores 0).regs (decode instr) := by
      rw [hf.regs]
      exact hs s₁ instr hf
    have hrun := hfetch.trans (keeps_run hfetch.hierarchy.orderly (hf.untranslated hu) hspares he)
    cases e with
    | fault t => exact hrun
    | done t => exact ⟨hrun.hierarchy, hrun.memory, hrun.windows⟩

/-- What can happen in debug mode: the parts of a turn of the core, where the debugger may ask
for a command before the step, and those of the end of a cycle. Each step spares the cached
bytes. -/
inductive Proceeds (s : Simulator 1 n) : Simulator 1 n → Prop
  | mark : Proceeds s (s.marked core0)
  | step {t : Simulator 1 n} (hu : s.Untranslated core0) (hs : SparesCached s)
    (h : s.step core0 = .ok t) : Proceeds s t
  | check : Proceeds s (s.checkInfiniteLoop core0)
  | ends {t : Simulator 1 n} (h : EndMove s t) : Proceeds s t

abbrev Session : Simulator 1 n → Simulator 1 n → Prop := Relation.ReflTransGen Proceeds

theorem keeps_checkInfiniteLoop (ho : s.hierarchy.Orderly) :
    KeepsCached s (s.checkInfiniteLoop 0) := by
  have hfetch := keeps_fetch ho (s.cores 0).pc
  unfold checkInfiniteLoop
  simp only
  split
  · exact hfetch.setCore _
  · exact hfetch

/-- The states of the cores are not in cached words. -/
theorem keeps_releaseCores (ho : s.hierarchy.Orderly) : KeepsCached s s.releaseCores := by
  refine ⟨ho.kept, fun b hb => ?_, rfl⟩
  have hranges := (hasDataCache_iff b).mp hb
  have hwrite : ∀ (m : MultiCoreMonitor 1) (l : List (Fin 1)) (memory : ByteMemory n),
      (l.foldl (fun memory i => m.writeCoreStateToMemory memory i) memory).bytes b.toNat =
        memory.bytes b.toNat := by
    intro m l
    induction l with
    | nil => exact fun _ => rfl
    | cons i l ih =>
      intro memory
      have haddr : MultiCoreMonitor.coreStatesAddr = 0x90000 := rfl
      have hi : i.val = 0 := Nat.lt_one_iff.mp i.isLt
      rw [List.foldl_cons, ih]
      unfold MultiCoreMonitor.writeCoreStateToMemory
      simp only
      split
      · exact store32_other _ _ _ _ (by omega)
      · rfl
  unfold releaseCores
  simp only
  split
  · exact hwrite _ _ _
  · rfl

theorem Proceeds.keeps (h : Proceeds s t) (ho : s.hierarchy.Orderly) : KeepsCached s t := by
  cases h with
  | mark => exact (KeepsCached.refl ho).setCore _
  | step hu hs h => exact keeps_step ho hu hs h
  | check => exact keeps_checkInfiniteLoop ho
  | ends h =>
    cases h with
    | tick => exact .aside ho rfl rfl rfl
    | releaseAllCores => exact .aside ho rfl rfl rfl
    | releaseCores => exact keeps_releaseCores ho

theorem session_keeps (h : Session s t) (ho : s.hierarchy.Orderly) : KeepsCached s t := by
  induction h with
  | refl => exact .refl ho
  | tail _ hmove ih => exact ih.trans (hmove.keeps ih.hierarchy.orderly)

/-- The cycles of the simulator are such runs. -/
theorem cycle_session {e e' : Emulation 1 n} {signal : Bool} (h : e.Cycle signal e')
    (hu : e.Untranslated core0) (hs : SparesCached (e.marked core0)) :
    Session e.toSimulator e'.toSimulator := by
  obtain ⟨u, hu', hends⟩ := h.ends
  have hturn : e.executeCoreStep 0 = .ok u := by
    rw [← hu']
    show _ = e.executeCoreStep 0 >>= pure
    rw [bind_pure]
  have hends' : Session u e'.toSimulator := Relation.ReflTransGen.mono (fun _ _ => .ends) _ _ hends
  refine Relation.ReflTransGen.trans ?_ hends'
  rcases executeCoreStep_cases hturn with ⟨_, rfl⟩ | ⟨v, hstep, rfl⟩
  · exact .refl
  · have hmark : Session e.toSimulator (e.marked core0) := .single .mark
    exact (hmark.tail (.step hu hs hstep)).tail .check

/-! ## The debugger and the core -/

/-- A word stored through the data cache stays out of memory. -/
theorem step_storesCached {s₁ : Simulator 1 n} {instr : Word} {rs2 rs1 : Cores.Reg} {imm : Word}
    {x : WordAddr} (ho : s.hierarchy.Orderly) (hu : s.Untranslated 0)
    (hf : s.Fetches 0 s₁ instr) (hd : decode instr = .store .sw rs2 rs1 imm)
    (haddr : (s.cores 0).regs rs1 + imm = byteAddr x) (hx : s.RamWord x)
    (hc : hasDataCache (byteAddr x) = true) (h : s.step 0 = .ok t) :
    t.hierarchy.Good ∧ t.Untranslated 0 ∧ t.hierarchy.coreView x = (s.cores 0).regs rs2 ∧
      t.memory = s.memory ∧ t.devices = s.devices := by
  obtain ⟨hdata, hh⟩ := (SameButGate.prepare hf.prepared).sameData
  have hgate : KeepsCached s s₁ := .aside ho hh hdata.memory hdata.devices
  have hfetch := keeps_fetch hgate.hierarchy.orderly (s₁.cores 0).pc
  have hacc := s₁.fetch_accessed 0 (s₁.cores 0).pc
  have hu' := hf.untranslated hu
  have hregs := hf.regs
  have hstep := hf.step_eq
  rw [execute_decode, hd] at hstep
  change KeepsCached s₁ (s₁.fetchPc 0).2 at hfetch
  change CacheAccessed s₁ (s₁.fetchPc 0).2 at hacc
  generalize (s₁.fetchPc 0).2 = u at hfetch hacc hu' hregs hstep
  have hlt : (byteAddr x).toNat < n := ramWord_lt hx
  have hstore : u.run 0 (.store .sw rs2 rs1 imm) =
      .ok ((u.setHierarchy (u.hierarchy.store 0 (byteAddr x) (byteAddr x)
        ((s.cores 0).regs rs2))).next 0) := by
    show Except.ok (if ((u.cores 0).regs rs1 + imm).toNat < n then _ else _) = _
    rw [hregs, haddr, if_pos hlt, storeDecoded_eq]
    unfold storeRam
    rw [if_pos hc]
    simp only [hu'.dataWrite_eq]
    rfl
  rw [hstore, h] at hstep
  obtain ⟨hg, hview⟩ := store_wordAt hfetch.hierarchy.orderly.good 0 x ((s.cores 0).regs rs2)
    (fun _ => rfl) (hasDataCache_word hc)
  obtain rfl := Except.ok.inj hstep
  exact ⟨hg, hu', hview, hacc.memory.trans hdata.memory, hacc.devices.trans hdata.devices⟩

/-- In a run whose steps spare the cached bytes of RAM, the debugger agrees with the core exactly
if DDR has begun with what memory has in the cached words. A word stored into one of them ends
the agreement, unless it is the word that memory has. -/
theorem memory_view_iff {ddr : DDRMemory} (hempty : s.hierarchy = Hierarchy.init 1 ddr)
    (hrun : Session s t) (hu : t.Untranslated core0) :
    (Agrees t ↔ ∀ x, s.RamWord x → hasDataCache (byteAddr x) = true →
      ddr.readWord (byteAddr x) = s.readWord (byteAddr x)) ∧
    ∀ (u t₁ : Simulator 1 n) (instr : Word) (rs2 rs1 : Cores.Reg) (imm : Word) (x : WordAddr),
      t.Fetches core0 t₁ instr → decode instr = .store .sw rs2 rs1 imm →
      (t.cores core0).regs rs1 + imm = byteAddr x → s.RamWord x →
      hasDataCache (byteAddr x) = true → t.step core0 = .ok u → Agrees u →
      (t.cores core0).regs rs2 = s.readWord (byteAddr x) := by
  have ho : s.hierarchy.Orderly := hempty ▸ Hierarchy.Orderly.init ddr
  have hk := session_keeps hrun ho
  have hddr : ∀ x, s.hierarchy.coreView x = ddr.readWord (byteAddr x) := by
    intro x
    rw [hempty]
    exact Hierarchy.init_memory (N := 1) ddr x
  constructor
  · rw [agrees_iff_cached hu hk.hierarchy.orderly.good]
    refine forall_congr' fun x => ?_
    rw [hk.ramWord_iff]
    refine forall_congr' fun hx => forall_congr' fun hc => ?_
    rw [hk.hierarchy.view x hc, hk.readWord hx hc, hddr]
  · intro u t₁ instr rs2 rs1 imm x hf hd haddr hx hc hstep hagrees
    have hxt := (hk.ramWord_iff x).mpr hx
    obtain ⟨hg, hu', hview, hm, hdev⟩ :=
      step_storesCached hk.hierarchy.orderly hu hf hd haddr hxt hc hstep
    have hxu : u.RamWord x := hxt.devices hdev
    have hcore := (agrees_iff_cached hu' hg).mp hagrees x hxu hc
    rw [hview, hxu.readWord_eq, hm, ← hxt.readWord_eq, hk.readWord hx hc] at hcore
    exact hcore

end

/-! ## A store that the debugger does not see -/

theorem aboutWord_fetches (addr : Word)
    (h : (((aboutWord addr .add).handleInterrupt core0).fetchPc core0).1 = storeWord.encode) :
    (aboutWord addr .add).Fetches core0 ((aboutWord addr .add).handleInterrupt core0)
      storeWord.encode := ⟨(loaded_running ..).prepare_eq, h⟩

theorem decode_storeWord : decode storeWord.encode = .store .sw 6 5 0 := by decide

theorem aboutWord_starts (addr : Word) : Starts
    (ByteMemory.writeBlock ⟨fun _ => 0⟩ 0 [storeWord.encode, (amoWord .add).encode])
    (aboutWord addr .add) :=
  loaded_starts _ rfl (by decide)

/-- The store of a word that is not cached. -/
theorem memory_view_uncached :
    Agrees ((aboutWord 0x4F000 .add).stepped core0) ↔
      ∀ x, (aboutWord 0x4F000 .add).RamWord x → hasDataCache (byteAddr x) = true →
        ByteMemory.readWord (n := ddrSize)
          (.writeBlock ⟨fun _ => 0⟩ 0 [storeWord.encode, (amoWord .add).encode]) (byteAddr x) =
            (aboutWord 0x4F000 .add).readWord (byteAddr x) := by
  have hstart := aboutWord_starts 0x4F000
  have hspares : SparesCached (aboutWord 0x4F000 .add) := by
    intro s₁ instr hf
    have hfetch := aboutWord_fetches 0x4F000 (by decide +kernel)
    have hprep := hf.prepared.symm.trans hfetch.prepared
    obtain rfl : s₁ = (aboutWord 0x4F000 .add).handleInterrupt core0 := by
      injection hprep with hpair
      exact congrArg Prod.snd hpair
    obtain rfl : storeWord.encode = instr := hfetch.fetched.symm.trans hf.fetched
    rw [decode_storeWord]
    intro _ b hlow hhigh
    change 0x4F000 ≤ b.toNat at hlow
    change b.toNat < 0x4F000 + 4 at hhigh
    rw [← Bool.not_eq_true, hasDataCache_iff]
    omega
  have hstep : (aboutWord 0x4F000 .add).step core0 =
      .ok ((aboutWord 0x4F000 .add).stepped core0) := step_stepped (by decide +kernel)
  exact (memory_view_iff hstart.empty (.single (.step hstart.untranslated hspares hstep))
    (by decide +kernel)).1

/-- After 5 has been stored at 0x50000 the core loads 5, and the debugger reads 0. -/
theorem stored_word_not_shown : ∃ (ddr : DDRMemory) (s t : Simulator 1 0x100000),
    s.hierarchy = Hierarchy.init 1 ddr ∧
      (∀ x, s.RamWord x → hasDataCache (byteAddr x) = true →
        ddr.readWord (byteAddr x) = s.readWord (byteAddr x)) ∧
      s.Untranslated core0 ∧ s.step core0 = .ok t ∧ t.Untranslated core0 ∧ ¬Agrees t := by
  have hstart := aboutWord_starts 0x50000
  refine ⟨_, aboutWord 0x50000 .add, (aboutWord 0x50000 .add).stepped core0, hstart.empty,
    fun x hx hc => hstart.readWord (by have := hx.inside; omega) hc, hstart.untranslated,
    step_stepped (by decide +kernel), by decide +kernel, fun h => ?_⟩
  have hx : ((aboutWord 0x50000 .add).stepped core0).RamWord (wordOf 0x50000) := by
    have hx : (aboutWord 0x50000 .add).RamWord (wordOf 0x50000) :=
      hstart.ram.ramWord_of (by decide)
    obtain ⟨-, -, -, -, hdevices⟩ := step_storesCached (hstart.empty ▸ .init _)
      hstart.untranslated (aboutWord_fetches 0x50000 (by decide +kernel)) decode_storeWord
      (by decide) hx (by decide) (step_stepped (by decide +kernel))
    exact hx.devices hdevices
  have hword := h.word 0x50000 7 hx (by decide) (by decide)
  revert hword
  decide +kernel

end RiscvEmulator.Debug
