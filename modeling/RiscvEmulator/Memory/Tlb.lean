import RiscvEmulator.Lib.Memo
import RiscvEmulator.Memory.Mmu

/-! # The TLB in front of the page walk

The TLB remembers, page by page, what the walk has found. As long as base and
memory stay, it remembers nothing else, whatever it evicts, and translation is
the same with it and without it. -/
namespace RiscvEmulator.Memory
open Lib.Memo

/-- What the TLB keeps of an entry of the page table. -/
structure Translation where
  frame : Word
  writable : Bool
  user : Bool
deriving DecidableEq, Repr

def TLBEntry.translation (e : TLBEntry) : Translation := ⟨e.physicalFrame, e.writable, e.user⟩

def PageTableEntry.translation (pte : PageTableEntry) : Translation :=
  ⟨pte.frame, pte.writable, pte.user⟩

/-- The entry of the TLB answers as the entry of the page table: both refuse a
store, or both give the address. -/
def TLBEntry.Agrees (config : MMUConfig) (e : TLBEntry) (pte : PageTableEntry)
    (isWrite : Bool) : Prop :=
  if isWrite = true ∧ e.writable = false then pte.present = false ∨ pte.writable = false
  else pte.present = true ∧ (isWrite = true → pte.writable = true) ∧
    e.physicalFrame * config.pageSize = pte.frame * config.pageSize

instance (config : MMUConfig) (e : TLBEntry) (pte : PageTableEntry) (isWrite : Bool) :
    Decidable (e.Agrees config pte isWrite) :=
  inferInstanceAs (Decidable (ite _ _ _))

/-- One call of `translate_address`. -/
structure TranslateCall where
  vaddr : Word
  isWrite : Bool
  isInstruction : Bool
deriving DecidableEq, Repr

namespace MMU
variable {config : MMUConfig} {m : MMU config} {readWord : Word → Word} {vaddr : Word}

/-! ## The walk alone -/

/-- What the walk finds for a page. -/
def pageTable (m : MMU config) (readWord : Word → Word) (page : Word) : Option Translation :=
  let pte := m.readPageTableEntry readWord (page <<< 12)
  if pte.present then some pte.translation else none

/-- Translation by the walk, without a TLB. -/
def walk (m : MMU config) (readWord : Word → Word) (call : TranslateCall) :
    Except ExceptionType Word :=
  if m.pageTableBase == 0 then .ok call.vaddr
  else
    let pte := m.readPageTableEntry readWord call.vaddr
    if !pte.present then
      .error (if call.isInstruction then .instructionPageFault
        else if call.isWrite then .storeAmoPageFault else .loadPageFault)
    else if call.isWrite && !pte.writable then .error .storeAmoPageFault
    else .ok (getPhysicalAddress config pte.frame (getPageOffset config call.vaddr))

def ask (readWord : Word → Word) (m : MMU config) (call : TranslateCall) :
    Except ExceptionType Word × MMU config :=
  m.translateAddress readWord call.vaddr call.isWrite call.isInstruction

/-- Clearing the offset of an address does not change its page number. -/
theorem clearOffset_shift (vaddr : Word) {k : Nat} (hk : 12 ≤ k) :
    ((vaddr >>> 12) <<< 12) >>> k = vaddr >>> k := by
  refine BitVec.eq_of_getLsbD_eq fun j _ => ?_
  rw [BitVec.getLsbD_ushiftRight, BitVec.getLsbD_shiftLeft, BitVec.getLsbD_ushiftRight,
    BitVec.getLsbD_ushiftRight]
  have hlow : ¬k + j < 12 := by omega
  have hbit : 12 + (k + j - 12) = k + j := by omega
  by_cases hlt : k + j < 32
  · simp only [hlt, hlow, hbit, decide_true, decide_false, Bool.not_false, Bool.true_and]
  · rw [hbit, BitVec.getLsbD_of_ge vaddr (k + j) (by omega), Bool.and_false]

/-- The walk looks at the page number only, not at the offset. -/
theorem readPageTableEntry_page (m : MMU config) (readWord : Word → Word) (vaddr : Word) :
    m.readPageTableEntry readWord ((vaddr >>> 12) <<< 12) =
      m.readPageTableEntry readWord vaddr := by
  unfold readPageTableEntry
  rw [clearOffset_shift vaddr (by decide), clearOffset_shift vaddr (by decide)]

/-- The walk depends on the MMU only through the base. -/
theorem readPageTableEntry_base {config' : MMUConfig} {m' : MMU config'}
    (h : m'.pageTableBase = m.pageTableBase) (readWord : Word → Word) (vaddr : Word) :
    m'.readPageTableEntry readWord vaddr = m.readPageTableEntry readWord vaddr := by
  unfold readPageTableEntry
  rw [h]

theorem pageTable_eq (m : MMU config) (readWord : Word → Word) (vaddr : Word) :
    m.pageTable readWord (vaddr >>> 12) =
      if (m.readPageTableEntry readWord vaddr).present then
        some (m.readPageTableEntry readWord vaddr).translation
      else none := by
  unfold pageTable
  rw [readPageTableEntry_page]

/-! ## What the TLB remembers -/

def remembers (m : MMU config) (page : Word) (t : Translation) : Prop :=
  ∃ k, (m.tlbEntries k).valid = true ∧ (m.tlbEntries k).virtualPage = page ∧
    (m.tlbEntries k).translation = t

/-- The TLB remembers nothing but what the walk would find. -/
def Mirrors (m : MMU config) (readWord : Word → Word) : Prop :=
  Faithful m.remembers (m.pageTable readWord)

theorem updateTlbLru_entries (m : MMU config) (k : Fin config.tlbEntries) :
    (m.updateTlbLru k).tlbEntries = m.tlbEntries ∧
      (m.updateTlbLru k).pageTableBase = m.pageTableBase := by
  unfold updateTlbLru
  split <;> exact ⟨rfl, rfl⟩

theorem findTlbEntry_entries (m : MMU config) (vaddr : Word) :
    (m.findTlbEntry vaddr).2.tlbEntries = m.tlbEntries ∧
      (m.findTlbEntry vaddr).2.pageTableBase = m.pageTableBase := by
  unfold findTlbEntry
  simp only
  split
  · split
    · exact m.updateTlbLru_entries _
    · exact ⟨rfl, rfl⟩
  · exact ⟨rfl, rfl⟩

theorem findTlbEntry_remembers {e : TLBEntry} (h : (m.findTlbEntry vaddr).1 = some e) :
    m.remembers (vaddr >>> 12) e.translation := by
  unfold findTlbEntry at h
  simp only at h
  split at h
  · split at h
    · next k hk =>
      obtain rfl := Option.some.inj h
      have hfound := List.find?_some hk
      rw [Bool.and_eq_true, beq_iff_eq] at hfound
      exact ⟨k, hfound.1, hfound.2, rfl⟩
    · cases h
  · cases h

theorem allocateTlbEntry_entries (m : MMU config) (vaddr : Word) :
    m.allocateTlbEntry vaddr = (none, m) ∨ ∃ k e m', m.allocateTlbEntry vaddr = (some k, m') ∧
      m'.tlbEntries = Function.update m.tlbEntries k e ∧ m'.pageTableBase = m.pageTableBase := by
  unfold allocateTlbEntry
  simp only
  split
  · split
    · -- a free entry
      next k _ =>
      obtain ⟨hentries, hbase⟩ := updateTlbLru_entries
        (m.setTlbEntry k { m.tlbEntries k with virtualPage := vaddr >>> 12, valid := true }) k
      exact .inr ⟨k, _, _, rfl, hentries, hbase⟩
    · split
      · -- the least recently used one
        exact .inr ⟨_, _, _, rfl, rfl, rfl⟩
      · exact .inl rfl
  · exact .inl rfl

/-- Loading an entry replaces at most one, and by the given one. -/
theorem loadTlbEntry_entries (m : MMU config) (vaddr : Word) (pte : PageTableEntry) :
    (m.loadTlbEntry vaddr pte).pageTableBase = m.pageTableBase ∧
      ((m.loadTlbEntry vaddr pte).tlbEntries = m.tlbEntries ∨
        ∃ k, (m.loadTlbEntry vaddr pte).tlbEntries = Function.update m.tlbEntries k
          { virtualPage := vaddr >>> 12, physicalFrame := pte.frame
            writable := pte.writable, user := pte.user, valid := true }) := by
  unfold loadTlbEntry
  split
  · exact ⟨rfl, .inl rfl⟩
  · rcases m.allocateTlbEntry_entries vaddr with h | ⟨k, e, m', h, hentries, hbase⟩
    · rw [h]
      exact ⟨rfl, .inl rfl⟩
    · rw [h]
      refine ⟨hbase, .inr ⟨k, ?_⟩⟩
      simp only [setTlbEntry, hentries, Function.update_idem]

/-- What is remembered after an entry has been loaded was remembered before, or is
the entry. -/
theorem loadTlbEntry_remembers {vaddr page : Word} {pte : PageTableEntry} {t : Translation}
    (h : (m.loadTlbEntry vaddr pte).remembers page t) :
    m.remembers page t ∨ (page = vaddr >>> 12 ∧ pte.translation = t) := by
  rcases (m.loadTlbEntry_entries vaddr pte).2 with he | ⟨k, he⟩
  · left
    unfold remembers at h ⊢
    rwa [he] at h
  · obtain ⟨k', hvalid, hpage, ht⟩ := h
    simp only [he, Function.update_apply] at hvalid hpage ht
    by_cases hk : k' = k
    · rw [if_pos hk] at hpage ht
      exact .inr ⟨hpage.symm, ht⟩
    · rw [if_neg hk] at hvalid hpage ht
      exact .inl ⟨k', hvalid, hpage, ht⟩

/-! ## Translation with the TLB -/

/-- What is remembered after a call was remembered before, or is what the walk
finds for the page of the call. -/
theorem ask_remembers (m : MMU config) (readWord : Word → Word) (call : TranslateCall) :
    (m.ask readWord call).2.pageTableBase = m.pageTableBase ∧
      ∀ page t, (m.ask readWord call).2.remembers page t → m.remembers page t ∨
        (page = call.vaddr >>> 12 ∧ m.pageTable readWord page = some t) := by
  have hold : ∀ m' : MMU config, m'.tlbEntries = m.tlbEntries → ∀ page t,
      m'.remembers page t → m.remembers page t := by
    intro m' he page t hr
    unfold remembers at hr ⊢
    rwa [he] at hr
  obtain ⟨hfe, hfb⟩ := m.findTlbEntry_entries call.vaddr
  unfold ask translateAddress
  split
  · exact ⟨rfl, fun page t h => .inl h⟩
  · simp only
    split
    · next e m' hfind =>
      rw [hfind] at hfe hfb
      split <;> exact ⟨hfb, fun page t h => .inl (hold m' hfe page t h)⟩
    · next m' hfind =>
      rw [hfind] at hfe hfb
      have hread := readPageTableEntry_base hfb readWord call.vaddr
      split
      · exact ⟨hfb, fun page t h => .inl (hold m' hfe page t h)⟩
      · split
        · exact ⟨hfb, fun page t h => .inl (hold m' hfe page t h)⟩
        · next hpresent _ =>
          refine ⟨(loadTlbEntry_entries ..).1.trans hfb, ?_⟩
          intro page t hr
          rcases loadTlbEntry_remembers hr with hr' | ⟨rfl, ht⟩
          · exact .inl (hold m' hfe page t hr')
          · -- the entry just loaded
            refine .inr ⟨rfl, ?_⟩
            rw [hread] at ht hpresent
            have hp : (m.readPageTableEntry readWord call.vaddr).present = true := by
              simpa using hpresent
            rw [pageTable_eq, if_pos hp, ht]

/-- A call keeps the base and remembers only what the walk finds. -/
theorem Mirrors.ask (h : m.Mirrors readWord) (call : TranslateCall) :
    (m.ask readWord call).2.Mirrors readWord := by
  obtain ⟨hbase, hrem⟩ := m.ask_remembers readWord call
  have hsame : (m.ask readWord call).2.pageTable readWord = m.pageTable readWord := by
    funext page
    unfold pageTable
    rw [readPageTableEntry_base hbase]
  unfold Mirrors
  rw [hsame]
  exact h.learn fun page t hr => (hrem page t hr).imp_right (·.2)

/-- Without an entry, whatever the access is. -/
theorem ask_miss {call : TranslateCall} (hmiss : (m.findTlbEntry call.vaddr).1 = none) :
    (m.ask readWord call).1 = m.walk readWord call := by
  obtain ⟨_, hfb⟩ := m.findTlbEntry_entries call.vaddr
  unfold ask translateAddress walk
  split
  · rfl
  · simp only
    split
    · next e m' hfound =>
      rw [hfound] at hmiss
      cases hmiss
    · next m' hfound =>
      rw [hfound] at hfb
      rw [readPageTableEntry_base hfb]
      split
      · rfl
      · split <;> rfl

/-- With an entry for the page, the answer is read off it, and no entry changes. -/
theorem ask_hit {call : TranslateCall} {e : TLBEntry}
    (h : (m.findTlbEntry call.vaddr).1 = some e) :
    (m.ask readWord call).1 = (if m.pageTableBase == 0 then .ok call.vaddr
      else if call.isWrite && !e.writable then
        .error (if call.isInstruction then .instructionPageFault else .storeAmoPageFault)
      else .ok (getPhysicalAddress config e.physicalFrame (getPageOffset config call.vaddr))) ∧
      (m.ask readWord call).2.tlbEntries = m.tlbEntries := by
  have hpair : m.findTlbEntry call.vaddr = (some e, (m.findTlbEntry call.vaddr).2) :=
    Prod.ext h rfl
  have hentries := (m.findTlbEntry_entries call.vaddr).1
  unfold ask translateAddress
  rw [hpair]
  split
  · exact ⟨rfl, rfl⟩
  · simp only
    split <;> exact ⟨rfl, hentries⟩

/-- A translation that finds no entry, or the right one, is the walk's. -/
theorem ask_eq_walk (call : TranslateCall)
    (hkind : ¬(call.isWrite = true ∧ call.isInstruction = true))
    (hfind : ∀ e, (m.findTlbEntry call.vaddr).1 = some e →
      m.pageTable readWord (call.vaddr >>> 12) = some e.translation) :
    (m.ask readWord call).1 = m.walk readWord call := by
  cases hfound : (m.findTlbEntry call.vaddr).1 with
  | none => exact ask_miss hfound
  | some e =>
    have hwalk := hfind e hfound
    rw [(ask_hit hfound).1]
    unfold walk
    split
    · rfl
    · simp only
      rw [pageTable_eq] at hwalk
      split at hwalk
      · next hp =>
        obtain ⟨hframe, hwritable, _⟩ := Translation.mk.injEq .. ▸ Option.some.inj hwalk
        rw [hframe, hwritable, hp]
        cases hw : call.isWrite with
        | false => rfl
        | true =>
          have hi : call.isInstruction = false := by
            cases hi : call.isInstruction with
            | false => rfl
            | true => exact absurd ⟨hw, hi⟩ hkind
          rw [hi]
          cases e.writable <;> rfl
      · cases hwalk

/-- A translation is the walk's exactly if the entry it finds agrees. -/
theorem ask_eq_walk_iff (hon : m.pageTableBase ≠ 0) (call : TranslateCall)
    (hkind : ¬(call.isWrite = true ∧ call.isInstruction = true)) :
    (m.ask readWord call).1 = m.walk readWord call ↔
      ∀ e, (m.findTlbEntry call.vaddr).1 = some e →
        e.Agrees config (m.readPageTableEntry readWord call.vaddr) call.isWrite := by
  cases hfound : (m.findTlbEntry call.vaddr).1 with
  | none => exact iff_of_true (ask_miss hfound) nofun
  | some e =>
    have hbase : (m.pageTableBase == 0) = false := beq_eq_false_iff_ne.mpr hon
    simp only [Option.some.injEq, forall_eq']
    rw [(ask_hit hfound).1]
    unfold walk
    rw [hbase]
    simp only [Bool.false_eq_true, if_false]
    generalize m.readPageTableEntry readWord call.vaddr = pte
    unfold TLBEntry.Agrees
    by_cases hrefuse : call.isWrite = true ∧ e.writable = false
    · -- the entry refuses a store
      obtain ⟨hw, he⟩ := hrefuse
      have hi : call.isInstruction = false := by
        cases hi : call.isInstruction with
        | false => rfl
        | true => exact absurd ⟨hw, hi⟩ hkind
      rw [hw, he, hi]
      cases pte.present <;> cases pte.writable <;> simp
    · have hcond : (call.isWrite && !e.writable) = false := by
        cases hw : call.isWrite with
        | false => rfl
        | true =>
          cases he : e.writable with
          | true => rfl
          | false => exact absurd ⟨hw, he⟩ hrefuse
      rw [if_neg hrefuse, hcond]
      unfold getPhysicalAddress
      cases pte.present <;> cases pte.writable <;> cases call.isWrite <;> simp

theorem Mirrors.ask_eq (h : m.Mirrors readWord) (call : TranslateCall)
    (hkind : ¬(call.isWrite = true ∧ call.isInstruction = true)) :
    (m.ask readWord call).1 = m.walk readWord call :=
  ask_eq_walk call hkind fun _ he => h _ _ (findTlbEntry_remembers he)

/-! ## Calls of one page -/

theorem findTlbEntry_page (m : MMU config) {va va' : Word} (h : va' >>> 12 = va >>> 12) :
    m.findTlbEntry va' = m.findTlbEntry va := by
  unfold findTlbEntry
  rw [h]

theorem readPageTableEntry_samePage (m : MMU config) (readWord : Word → Word) {va va' : Word}
    (h : va' >>> 12 = va >>> 12) :
    m.readPageTableEntry readWord va' = m.readPageTableEntry readWord va := by
  rw [← readPageTableEntry_page m readWord va', h, readPageTableEntry_page]

/-- Addresses of one page lie in the frame as they lie in the page. -/
theorem getPhysicalAddress_page (hsize : config.pageSize = 4096) {va va' : Word}
    (h : va' >>> 12 = va >>> 12) (frame : Word) :
    getPhysicalAddress config frame (getPageOffset config va') =
      getPhysicalAddress config frame (getPageOffset config va) - va + va' := by
  have hpage := congrArg BitVec.toNat h
  rw [BitVec.toNat_ushiftRight, BitVec.toNat_ushiftRight, Nat.shiftRight_eq_div_pow,
    Nat.shiftRight_eq_div_pow] at hpage
  unfold getPhysicalAddress getPageOffset
  rw [hsize]
  generalize frame * 4096 = base
  have hoffset : va' % 4096 = va % 4096 - va + va' := by
    have h4096 : (4096 : Word).toNat = 4096 := rfl
    refine BitVec.eq_of_toNat_eq ?_
    rw [BitVec.toNat_add, BitVec.toNat_sub, BitVec.toNat_umod, BitVec.toNat_umod, h4096]
    omega
  rw [hoffset]
  bv_omega

theorem ask_page (hsize : config.pageSize = 4096) {va va' pa : Word} {isWrite isInstruction : Bool}
    (hpage : va' >>> 12 = va >>> 12)
    (h : (m.ask readWord ⟨va, isWrite, isInstruction⟩).1 = .ok pa) :
    (m.ask readWord ⟨va', isWrite, isInstruction⟩).1 = .ok (pa - va + va') := by
  unfold ask translateAddress at h ⊢
  simp only [findTlbEntry_page m hpage] at h ⊢
  split
  · next hoff =>
    rw [if_pos hoff] at h
    obtain rfl := Except.ok.inj h
    refine congrArg Except.ok ?_
    bv_omega
  · next hoff =>
    rw [if_neg hoff] at h
    split at h
    · split at h
      · cases h
      · next hw =>
        rw [if_neg hw]
        obtain rfl := Except.ok.inj h
        exact congrArg Except.ok (getPhysicalAddress_page hsize hpage _)
    · simp only [readPageTableEntry_samePage _ readWord hpage] at h ⊢
      split at h
      · cases h
      · next hp =>
        rw [if_neg hp]
        split at h
        · cases h
        · next hw =>
          rw [if_neg hw]
          obtain rfl := Except.ok.inj h
          exact congrArg Except.ok (getPhysicalAddress_page hsize hpage _)

/-- A translation is the address itself, or lies in a frame. -/
theorem ask_ok {call : TranslateCall} {pa : Word} (h : (m.ask readWord call).1 = .ok pa) :
    pa = call.vaddr ∨
      ∃ frame, pa = getPhysicalAddress config frame (getPageOffset config call.vaddr) := by
  unfold ask translateAddress at h
  split at h
  · exact .inl (Except.ok.inj h).symm
  · simp only at h
    split at h
    · split at h
      · cases h
      · exact .inr ⟨_, (Except.ok.inj h).symm⟩
    · split at h
      · cases h
      · split at h
        · cases h
        · exact .inr ⟨_, (Except.ok.inj h).symm⟩

/-- It keeps the place in the word. -/
theorem ask_low (hsize : config.pageSize = 4096) {call : TranslateCall} {pa : Word}
    (h : (m.ask readWord call).1 = .ok pa) : pa.toNat % 4 = call.vaddr.toNat % 4 := by
  have h4096 : (4096 : Word).toNat = 4096 := rfl
  rcases ask_ok h with rfl | ⟨frame, rfl⟩
  · rfl
  · unfold getPhysicalAddress getPageOffset
    rw [hsize, BitVec.toNat_add, BitVec.toNat_mul, BitVec.toNat_umod, h4096]
    omega

/-- The word of an address is translated to the word of its translation. -/
theorem ask_word (hsize : config.pageSize = 4096) {va pa : Word} {isWrite isInstruction : Bool}
    (h : (m.ask readWord ⟨va, isWrite, isInstruction⟩).1 = .ok pa) :
    (m.ask readWord ⟨byteAddr (wordOf va), isWrite, isInstruction⟩).1 =
      .ok (byteAddr (wordOf pa)) := by
  have hlow : pa.toNat % 4 = va.toNat % 4 := ask_low hsize h
  have hva : (byteAddr (wordOf va)).toNat = 4 * (va.toNat / 4) := by
    rw [byteAddr_toNat, wordOf_toNat]
  have hpa : (byteAddr (wordOf pa)).toNat = 4 * (pa.toNat / 4) := by
    rw [byteAddr_toNat, wordOf_toNat]
  have hpage : byteAddr (wordOf va) >>> 12 = va >>> 12 := by
    refine BitVec.eq_of_toNat_eq ?_
    rw [BitVec.toNat_ushiftRight, BitVec.toNat_ushiftRight, Nat.shiftRight_eq_div_pow,
      Nat.shiftRight_eq_div_pow, hva]
    omega
  rw [ask_page hsize hpage h]
  refine congrArg Except.ok (BitVec.eq_of_toNat_eq ?_)
  rw [BitVec.toNat_add, BitVec.toNat_sub, hva, hpa]
  omega

/-- Without an entry for a page nothing is remembered of it. -/
theorem findTlbEntry_none (hon : config.enableTlb = true) (h : (m.findTlbEntry vaddr).1 = none)
    (t : Translation) : ¬m.remembers (vaddr >>> 12) t := by
  rintro ⟨k, hvalid, hpage, _⟩
  unfold findTlbEntry at h
  simp only [hon, if_true] at h
  split at h
  · cases h
  · next hfind =>
    have hk := List.find?_eq_none.mp hfind k (List.mem_finRange k)
    rw [hvalid, hpage] at hk
    simp at hk

theorem findTlbEntry_congr {m m' : MMU config} (h : m'.tlbEntries = m.tlbEntries) (vaddr : Word) :
    (m'.findTlbEntry vaddr).1 = (m.findTlbEntry vaddr).1 := by
  unfold findTlbEntry
  rw [h]
  simp only
  split
  · split <;> rfl
  · rfl

/-- A call changes no answer for its own page. -/
theorem ask_again (hon : config.enableTlb = true) (call call' : TranslateCall)
    (hpage : call'.vaddr >>> 12 = call.vaddr >>> 12)
    (hkind : ¬(call'.isWrite = true ∧ call'.isInstruction = true)) :
    ((m.ask readWord call).2.ask readWord call').1 = (m.ask readWord call').1 := by
  obtain ⟨hbase, hrem⟩ := m.ask_remembers readWord call
  cases hfound : (m.findTlbEntry call.vaddr).1 with
  | none =>
    have hmiss : (m.findTlbEntry call'.vaddr).1 = none := by
      rw [findTlbEntry_page m hpage, hfound]
    rw [ask_miss hmiss, ask_eq_walk call' hkind]
    · unfold walk
      rw [hbase, readPageTableEntry_base hbase]
    · intro e he
      have hold := findTlbEntry_none hon hfound e.translation
      rcases hrem _ _ (findTlbEntry_remembers he) with hr | ⟨_, hr⟩
      · rw [hpage] at hr
        exact absurd hr hold
      · unfold pageTable at hr ⊢
        rw [readPageTableEntry_base hbase]
        exact hr
  | some e =>
    have hhit : (m.findTlbEntry call'.vaddr).1 = some e := by
      rw [findTlbEntry_page m hpage, hfound]
    have hentries : (m.ask readWord call).2.tlbEntries = m.tlbEntries := (ask_hit hfound).2
    rw [(ask_hit hhit).1, (ask_hit ((findTlbEntry_congr hentries _).trans hhit)).1, hbase]

/-! ## Transparency -/

/-- An MMU just built, with a page table. -/
def start (config : MMUConfig) (base : Word) : MMU config := (init config).setPageTableBase base

theorem start_mirrors (config : MMUConfig) (base : Word) (readWord : Word → Word) :
    (start config base).Mirrors readWord := by
  rintro page t ⟨k, hvalid, _⟩
  cases hvalid

/-- The invariant of an MMU between calls. -/
structure Serves (m : MMU config) (readWord : Word → Word) (base : Word) : Prop where
  mirrors : m.Mirrors readWord
  base : m.pageTableBase = base

theorem Serves.ask {base : Word} (h : m.Serves readWord base) (call : TranslateCall) :
    (m.ask readWord call).2.Serves readWord base :=
  ⟨h.mirrors.ask call, (m.ask_remembers readWord call).1.trans h.base⟩

theorem afterAsking_mirrors (hm : m.Mirrors readWord) (calls : List TranslateCall) :
    (afterAsking (ask readWord) m calls).Mirrors readWord ∧
      (afterAsking (ask readWord) m calls).pageTableBase = m.pageTableBase := by
  have hask : ∀ (m' : MMU config) (call : TranslateCall), m'.Serves readWord m.pageTableBase →
      (m'.ask readWord call).2.Serves readWord m.pageTableBase := fun m' call h => h.ask call
  obtain ⟨hmirrors, hbase⟩ := afterAsking_inv hask calls ⟨hm, rfl⟩
  exact ⟨hmirrors, hbase⟩

/-- With base and memory fixed, the answers of an MMU are those of the walk. -/
theorem answers_eq_walk (hm : m.Mirrors readWord) (calls : List TranslateCall)
    (hcalls : ∀ call ∈ calls, ¬(call.isWrite = true ∧ call.isInstruction = true)) :
    answers (ask readWord) m calls = calls.map (m.walk readWord) := by
  have hask : ∀ (m' : MMU config) (call : TranslateCall), m'.Serves readWord m.pageTableBase →
      (m'.ask readWord call).2.Serves readWord m.pageTableBase := fun m' call h => h.ask call
  have hanswer : ∀ (m' : MMU config) (call : TranslateCall), m'.Serves readWord m.pageTableBase →
      ¬(call.isWrite = true ∧ call.isInstruction = true) →
      (m'.ask readWord call).1 = m.walk readWord call := by
    intro m' call h hcall
    rw [h.mirrors.ask_eq call hcall]
    unfold walk
    rw [h.base, readPageTableEntry_base h.base]
  exact answers_eq_map hask hanswer calls hcalls ⟨hm, rfl⟩

/-- The TLB changes no answer, whatever its size. -/
theorem tlb_transparent (config : MMUConfig) (base : Word) (readWord : Word → Word)
    (calls : List TranslateCall)
    (hcalls : ∀ call ∈ calls, ¬(call.isWrite = true ∧ call.isInstruction = true)) :
    answers (ask readWord) (start { config with enableTlb := true } base) calls =
      answers (ask readWord) (start { config with enableTlb := false } base) calls := by
  rw [answers_eq_walk (start_mirrors _ _ readWord) calls hcalls,
    answers_eq_walk (start_mirrors _ _ readWord) calls hcalls]
  rfl

/-- A page that is read, written, and found again after the other. -/
theorem tlb_transparent_two_pages :
    answers (ask fun _ => 0xC7) (start { tlbEntries := 1, enableTlb := true } 0x1000)
        [⟨0x3004, false, false⟩, ⟨0x3008, true, false⟩, ⟨0x400000, false, true⟩] =
      answers (ask fun _ => 0xC7) (start { tlbEntries := 1, enableTlb := false } 0x1000)
        [⟨0x3004, false, false⟩, ⟨0x3008, true, false⟩, ⟨0x400000, false, true⟩] :=
  tlb_transparent { tlbEntries := 1 } 0x1000 (fun _ => 0xC7) _ (by decide)

end MMU
end RiscvEmulator.Memory
