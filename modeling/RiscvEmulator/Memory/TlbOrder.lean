import RiscvEmulator.Lib.Recency
import RiscvEmulator.Memory.Tlb

/-! # The entries of the TLB

Between calls the replacement order lists every entry once, no page has two entries,
and the entry at the end is the one whose page was hit or loaded least recently: it
is the one a full TLB gives up. -/
namespace RiscvEmulator.Memory
open Lib.Recency

/-- The calls that move the TLB; the memory may have changed from one to the next. -/
inductive MmuCall where
  | translateAddress (readWord : Word → Word) (call : TranslateCall)
  | setPageTableBase (base : Word)
  | flushTlb

namespace MMU
variable {config : MMUConfig} {m : MMU config} {past : List Word} {vaddr : Word}
  {k : Fin config.tlbEntries}

def apply (m : MMU config) : MmuCall → MMU config
  | .translateAddress readWord call => (m.ask readWord call).2
  | .setPageTableBase base => m.setPageTableBase base
  | .flushTlb => m.flushTlb

/-- The page that an entry holds. -/
def page (m : MMU config) (k : Fin config.tlbEntries) : Option Word :=
  if (m.tlbEntries k).valid then some (m.tlbEntries k).virtualPage else none

/-- The page that a call hits or loads: an entry holds it when translation is on and the
call is over. -/
def usedPage (m : MMU config) : MmuCall → List Word
  | .translateAddress readWord call =>
    if m.pageTableBase ≠ 0 ∧ ∃ k, (m.ask readWord call).2.page k = some (call.vaddr >>> 12) then
      [call.vaddr >>> 12]
    else []
  | _ => []

/-- A run from a new MMU, with the pages used in it. -/
def run (config : MMUConfig) (calls : List MmuCall) : MMU config × List Word :=
  calls.foldl (fun s call => (s.1.apply call, s.2 ++ s.1.usedPage call)) (init config, [])

/-- The invariant between calls. -/
structure InOrder (past : List Word) (m : MMU config) : Prop where
  perm : m.tlbLru.Perm (List.finRange config.tlbEntries)
  distinct : ∀ j k, m.page j = m.page k → (m.page j).isSome → j = k
  recent : ByUse past m.page m.tlbLru

/-! ## What a translation does to the TLB -/

theorem page_eq_some {p : Word} : m.page k = some p ↔
    (m.tlbEntries k).valid = true ∧ (m.tlbEntries k).virtualPage = p := by
  unfold page
  split <;> simp_all

theorem page_eq_none : m.page k = none ↔ (m.tlbEntries k).valid = false := by
  unfold page
  split <;> simp_all

/-- A lookup finds the entry that holds the page and moves it to the front. -/
theorem findTlbEntry_cases (hon : config.enableTlb = true) (m : MMU config) (vaddr : Word) :
    (m.findTlbEntry vaddr = (none, m) ∧ ∀ k, m.page k ≠ some (vaddr >>> 12)) ∨
    ∃ k, m.findTlbEntry vaddr = (some (m.tlbEntries k), m.updateTlbLru k) ∧
      m.page k = some (vaddr >>> 12) := by
  unfold findTlbEntry
  simp only [hon, if_true]
  split
  · next k hk =>
    have hfound := List.find?_some hk
    rw [Bool.and_eq_true, beq_iff_eq] at hfound
    exact .inr ⟨k, rfl, page_eq_some.mpr hfound⟩
  · next hnone =>
    refine .inl ⟨rfl, fun k hk => ?_⟩
    obtain ⟨hvalid, hpage⟩ := page_eq_some.mp hk
    have := List.find?_eq_none.mp hnone k (List.mem_finRange k)
    simp [hvalid, hpage] at this

/-- What the new entry of a page is, whichever entry it replaces. -/
def newEntry (vaddr : Word) (pte : PageTableEntry) : TLBEntry where
  virtualPage := vaddr >>> 12
  physicalFrame := pte.frame
  writable := pte.writable
  user := pte.user
  valid := true

/-- A page goes to an entry that holds none, or replaces the one at the end of the order,
and comes to the front either way. -/
theorem loadTlbEntry_cases (hon : config.enableTlb = true) (m : MMU config) (vaddr : Word)
    {pte : PageTableEntry} (hpte : pte.present = true) :
    (∃ k, (m.page k = none ∨ (∀ j, m.page j ≠ none) ∧ m.tlbLru.getLast? = some k) ∧
      (m.loadTlbEntry vaddr pte).tlbEntries = Function.update m.tlbEntries k (newEntry vaddr pte) ∧
      (m.loadTlbEntry vaddr pte).tlbLru =
        k :: (if m.page k = none then m.tlbLru.filter (· != k) else m.tlbLru.dropLast)) ∨
    m.tlbLru = [] ∧ m.loadTlbEntry vaddr pte = m := by
  have hfree : ∀ k, (!(m.tlbEntries k).valid) = true ↔ m.page k = none := fun k => by
    rw [page_eq_none, Bool.not_eq_true']
  unfold loadTlbEntry allocateTlbEntry
  simp only [hon, hpte, Bool.not_true, Bool.or_false, Bool.false_eq_true, if_false, if_true]
  cases hfind : (List.finRange config.tlbEntries).find? fun k => !(m.tlbEntries k).valid with
  | some k =>
    have hsome := List.find?_some hfind
    have hk : m.page k = none := (hfree k).mp (by simpa using hsome)
    refine .inl ⟨k, .inl hk, ?_, ?_⟩
    · simp only [setTlbEntry, updateTlbLru, hon, if_true, Function.update_idem, newEntry]
    · simp only [setTlbEntry, updateTlbLru, hon, if_true, hk]
  | none =>
    have hfull : ∀ j, m.page j ≠ none := fun j hj =>
      List.find?_eq_none.mp hfind j (List.mem_finRange j) ((hfree j).mpr hj)
    cases hlast : m.tlbLru.getLast? with
    | some k =>
      refine .inl ⟨k, .inr ⟨hfull, rfl⟩, ?_, ?_⟩
      · simp only [setTlbEntry, Function.update_idem, newEntry]
      · simp only [setTlbEntry, if_neg (hfull k)]
    | none => exact .inr ⟨List.getLast?_eq_none_iff.mp hlast, rfl⟩

/-- A translation leaves the TLB alone, hits an entry of the page, or loads one. -/
theorem ask_cases (hon : config.enableTlb = true) (m : MMU config) (readWord : Word → Word)
    (call : TranslateCall) :
    ((m.ask readWord call).2 = m ∧ (m.pageTableBase = 0 ∨
      (∀ k, m.page k ≠ some (call.vaddr >>> 12)) ∧ (m.ask readWord call).1.isOk = false)) ∨
    (m.pageTableBase ≠ 0 ∧ ∃ k, m.page k = some (call.vaddr >>> 12) ∧
      (m.ask readWord call).2 = m.updateTlbLru k) ∨
    (m.pageTableBase ≠ 0 ∧ (∀ k, m.page k ≠ some (call.vaddr >>> 12)) ∧
      (m.ask readWord call).1.isOk = true ∧ ∃ pte : PageTableEntry,
        pte.present = true ∧ (m.ask readWord call).2 = m.loadTlbEntry call.vaddr pte) := by
  unfold ask translateAddress
  by_cases hbase : m.pageTableBase = 0
  · simp [hbase]
  · have hneq : (m.pageTableBase == 0) = false := by simpa using hbase
    simp only [hneq, Bool.false_eq_true, if_false]
    rcases findTlbEntry_cases hon m call.vaddr with ⟨hfind, hmiss⟩ | ⟨k, hfind, hk⟩
    · rw [hfind]
      simp only
      split
      · exact .inl ⟨rfl, .inr ⟨hmiss, rfl⟩⟩
      · next hpresent =>
        split
        · exact .inl ⟨rfl, .inr ⟨hmiss, rfl⟩⟩
        · exact .inr (.inr ⟨hbase, hmiss, rfl, _, by simpa using hpresent, rfl⟩)
    · rw [hfind]
      simp only
      split <;> exact .inr (.inl ⟨hbase, k, hk, rfl⟩)

/-! ## Every call keeps the order -/

theorem InOrder.init (config : MMUConfig) : InOrder [] (MMU.init config) where
  perm := List.Perm.refl _
  distinct j k _ hsome := by simp [page, MMU.init] at hsome
  recent := ByUse.of_empty (fun k => by simp [page, MMU.init]) _

theorem InOrder.nodup (h : InOrder past m) : m.tlbLru.Nodup :=
  h.perm.nodup_iff.mpr (List.nodup_finRange _)

theorem InOrder.mem (h : InOrder past m) (k : Fin config.tlbEntries) : k ∈ m.tlbLru :=
  h.perm.mem_iff.mpr (List.mem_finRange k)

/-- An entry whose page is used comes to the front of the others. -/
theorem InOrder.use {m' : MMU config} {p : Word} (h : InOrder past m)
    (hlru : m'.tlbLru = k :: m.tlbLru.filter (· != k)) (hpage : m'.page k = some p)
    (hothers : ∀ j, j ≠ k → m'.page j = m.page j) (hnew : ∀ j, j ≠ k → m.page j ≠ some p) :
    InOrder (past ++ [p]) m' where
  perm := hlru ▸ front_perm h.nodup fun j _ => h.mem j
  distinct := by
    have hk : ∀ j, m'.page j = some p → j = k := fun j hj => by
      by_contra hne
      exact hnew j hne (hothers j hne ▸ hj)
    intro j j' heq hsome
    by_cases hj : j = k
    · exact hj.trans (hk j' (heq ▸ hj ▸ hpage)).symm
    · by_cases hj' : j' = k
      · exact absurd (hk j (heq.trans (hj' ▸ hpage))) hj
      · rw [hothers j hj, hothers j' hj'] at heq
        rw [hothers j hj] at hsome
        exact h.distinct j j' heq hsome
  recent := hlru ▸ h.recent.use hpage hothers hnew

theorem InOrder.updateTlbLru (h : InOrder past m) (hon : config.enableTlb = true) {p : Word}
    (hk : m.page k = some p) : InOrder (past ++ [p]) (m.updateTlbLru k) := by
  refine h.use ?_ ?_ (fun j _ => ?_) fun j hj hp => hj (h.distinct j k (hp.trans hk.symm) ?_)
  · simp only [MMU.updateTlbLru, hon, if_true]
  · rw [← hk, page, page, (m.updateTlbLru_entries k).1]
  · rw [page, page, (m.updateTlbLru_entries k).1]
  · rw [hp]
    rfl

/-- The page of an entry after a new one has been put at `k`. -/
theorem page_of_update {m' : MMU config} {pte : PageTableEntry}
    (h : m'.tlbEntries = Function.update m.tlbEntries k (newEntry vaddr pte)) :
    m'.page k = some (vaddr >>> 12) ∧ ∀ j, j ≠ k → m'.page j = m.page j := by
  refine ⟨?_, fun j hj => ?_⟩
  · rw [page_eq_some, h, Function.update_self]
    exact ⟨rfl, rfl⟩
  · rw [page, page, h, Function.update_of_ne hj]

theorem InOrder.loadTlbEntry (h : InOrder past m) (hon : config.enableTlb = true)
    {pte : PageTableEntry} (hpte : pte.present = true)
    (hmiss : ∀ k, m.page k ≠ some (vaddr >>> 12)) :
    (InOrder (past ++ [vaddr >>> 12]) (m.loadTlbEntry vaddr pte) ∧
      ∃ k, (m.loadTlbEntry vaddr pte).page k = some (vaddr >>> 12)) ∨
    m.loadTlbEntry vaddr pte = m := by
  rcases loadTlbEntry_cases hon m vaddr hpte with ⟨k, hk, hentries, hlru⟩ | ⟨_, hsame⟩
  · obtain ⟨hpage, hothers⟩ := page_of_update hentries
    refine .inl ⟨h.use ?_ hpage hothers fun j _ => hmiss j, k, hpage⟩
    rw [hlru]
    split
    · rfl
    · next hheld =>
      rw [dropLast_eq_filter h.nodup (hk.resolve_left hheld).2]
  · exact .inr hsame

theorem InOrder.translate (h : InOrder past m) (hon : config.enableTlb = true)
    (readWord : Word → Word) (call : TranslateCall) :
    InOrder (past ++ m.usedPage (.translateAddress readWord call)) (m.ask readWord call).2 := by
  have hunused : (m.ask readWord call).2 = m →
      (m.pageTableBase = 0 ∨ ∀ k, m.page k ≠ some (call.vaddr >>> 12)) →
      InOrder (past ++ m.usedPage (.translateAddress readWord call)) (m.ask readWord call).2 := by
    intro hsame hnone
    have hcond : ¬ (m.pageTableBase ≠ 0 ∧
        ∃ k, (m.ask readWord call).2.page k = some (call.vaddr >>> 12)) := by
      rintro ⟨hbase, k, hk⟩
      rw [hsame] at hk
      exact hnone.resolve_left hbase k hk
    rw [usedPage, if_neg hcond, List.append_nil, hsame]
    exact h
  have hused : m.pageTableBase ≠ 0 →
      (∃ k, (m.ask readWord call).2.page k = some (call.vaddr >>> 12)) →
      InOrder (past ++ [call.vaddr >>> 12]) (m.ask readWord call).2 →
      InOrder (past ++ m.usedPage (.translateAddress readWord call)) (m.ask readWord call).2 := by
    intro hbase hsome hin
    rw [usedPage, if_pos ⟨hbase, hsome⟩]
    exact hin
  rcases ask_cases hon m readWord call with ⟨hsame, hnone⟩ | ⟨hbase, k, hk, hafter⟩ |
    ⟨hbase, hmiss, _, pte, hpte, hafter⟩
  · exact hunused hsame (hnone.imp_right And.left)
  · refine hused hbase ⟨k, ?_⟩ (hafter ▸ h.updateTlbLru hon hk)
    rw [hafter, ← hk, page, page, (m.updateTlbLru_entries k).1]
  · rcases h.loadTlbEntry hon hpte hmiss with ⟨hin, hsome⟩ | hsame
    · exact hused hbase (hafter ▸ hsome) (hafter ▸ hin)
    · exact hunused (hafter.trans hsame) (.inr hmiss)

theorem InOrder.apply (h : InOrder past m) (hon : config.enableTlb = true) (call : MmuCall) :
    InOrder (past ++ m.usedPage call) (m.apply call) := by
  cases call with
  | translateAddress readWord call => exact h.translate hon readWord call
  | setPageTableBase base =>
    have hnone : m.usedPage (.setPageTableBase base) = [] := rfl
    rw [hnone, List.append_nil]
    exact ⟨h.perm, h.distinct, h.recent⟩
  | flushTlb =>
    have hnone : ∀ k, m.flushTlb.page k = none := fun k => by
      rw [page_eq_none]
      rfl
    have hunused : m.usedPage .flushTlb = [] := rfl
    rw [hunused, List.append_nil]
    refine ⟨List.Perm.refl _, fun j k _ hsome => ?_, ByUse.of_empty hnone _⟩
    rw [MMU.apply, hnone j] at hsome
    cases hsome

theorem run_inOrder (hon : config.enableTlb = true) (calls : List MmuCall) :
    InOrder (run config calls).2 (run config calls).1 :=
  List.foldlRecOn calls _ (motive := fun s : MMU config × List Word => InOrder s.2 s.1)
    (InOrder.init config) fun _ h call _ => h.apply hon call

/-- A page comes in for the page used least recently; no other entry changes. -/
def ReplacesOldest (past : List Word) (m m' : MMU config) (p : Word) : Prop :=
  ∃ k e, m'.tlbEntries = Function.update m.tlbEntries k e ∧ e.virtualPage = p ∧ e.valid = true ∧
    ∀ j, j ≠ k → UsedSince past (m.tlbEntries j).virtualPage (m.tlbEntries k).virtualPage

/-- A call of a full TLB replaces an entry if it translates a page that is not held. -/
theorem InOrder.full (h : InOrder past m) (hon : config.enableTlb = true)
    (hsome : 0 < config.tlbEntries) (hfull : ∀ k, (m.tlbEntries k).valid = true)
    (readWord : Word → Word) (call : TranslateCall) :
    if m.pageTableBase ≠ 0 ∧ (∀ k, (m.tlbEntries k).virtualPage ≠ call.vaddr >>> 12) ∧
        (m.ask readWord call).1.isOk = true then
      ReplacesOldest past m (m.ask readWord call).2 (call.vaddr >>> 12)
    else (m.ask readWord call).2.tlbEntries = m.tlbEntries := by
  have hpage : ∀ k, m.page k = some (m.tlbEntries k).virtualPage := fun k => if_pos (hfull k)
  have hheld : ∀ k p, m.page k = some p ↔ (m.tlbEntries k).virtualPage = p := fun k p => by
    rw [hpage, Option.some_inj]
  rcases ask_cases hon m readWord call with ⟨hsame, hnone⟩ | ⟨hbase, k, hk, hafter⟩ |
    ⟨hbase, hmiss, hok, pte, hpte, hafter⟩
  · rw [if_neg, hsame]
    rintro ⟨hbase, _, hok⟩
    rw [(hnone.resolve_left hbase).2] at hok
    cases hok
  · rw [if_neg, hafter, (m.updateTlbLru_entries k).1]
    rintro ⟨_, hmiss, _⟩
    exact hmiss k ((hheld k _).mp hk)
  · rw [if_pos ⟨hbase, fun k hk => hmiss k ((hheld k _).mpr hk), hok⟩, hafter]
    rcases loadTlbEntry_cases hon m call.vaddr hpte with ⟨k, hk, hentries, _⟩ | ⟨hnil, _⟩
    · have hlast : m.tlbLru.getLast? = some k :=
        (hk.resolve_left fun hnone => by rw [hpage k] at hnone; cases hnone).2
      exact ⟨k, _, hentries, rfl, rfl, fun j hj =>
        h.recent.last hlast (h.mem j) hj (hpage j) (hpage k)⟩
    · have hmem := h.mem ⟨0, hsome⟩
      rw [hnil] at hmem
      cases hmem

/-- Between any calls the order lists every entry once and no page is held twice, and a
full TLB gives up the entry that was hit or loaded least recently. -/
theorem tlb_order (hon : config.enableTlb = true) (hsome : 0 < config.tlbEntries)
    (calls : List MmuCall) :
    let m := (run config calls).1
    let past := (run config calls).2
    m.tlbLru.Perm (List.finRange config.tlbEntries) ∧
      (∀ j k, (m.tlbEntries j).valid = true → (m.tlbEntries k).valid = true →
        (m.tlbEntries j).virtualPage = (m.tlbEntries k).virtualPage → j = k) ∧
      ((∀ k, (m.tlbEntries k).valid = true) → ∀ (readWord : Word → Word) (call : TranslateCall),
        if m.pageTableBase ≠ 0 ∧ (∀ k, (m.tlbEntries k).virtualPage ≠ call.vaddr >>> 12) ∧
            (m.ask readWord call).1.isOk = true then
          ReplacesOldest past m (m.ask readWord call).2 (call.vaddr >>> 12)
        else (m.ask readWord call).2.tlbEntries = m.tlbEntries) := by
  intro m past
  have h : InOrder past m := run_inOrder hon calls
  refine ⟨h.perm, fun j k hj hk heq => ?_, fun hfull => h.full hon hsome hfull⟩
  have hpages : m.page j = m.page k := by rw [page, page, if_pos hj, if_pos hk, heq]
  exact h.distinct j k hpages (by rw [page, if_pos hj]; rfl)

/-- Two entries, and a memory that is full of the same leaf. -/
def twoEntries : MMUConfig := { tlbEntries := 2 }

def leafWord (_ : Word) : Word := 0x40F

def loadFrom (vaddr : Word) : TranslateCall := ⟨vaddr, false, false⟩

/-- Page 1 was hit after page 2 had been loaded: it stays and page 2 goes. -/
theorem tlb_order_twoEntries :
    let calls := [.setPageTableBase 0x1000, .translateAddress leafWord (loadFrom 0x1000),
      .translateAddress leafWord (loadFrom 0x2000), .translateAddress leafWord (loadFrom 0x1008)]
    let m := (run twoEntries calls).1
    m.page (0 : Fin 2) = some 1 ∧ m.page (1 : Fin 2) = some 2 ∧
      ReplacesOldest (run twoEntries calls).2 m (m.ask leafWord (loadFrom 0x3000)).2 3 ∧
      (m.ask leafWord (loadFrom 0x3000)).2.page (0 : Fin 2) = some 1 := by
  intro calls m
  have h := (@tlb_order twoEntries rfl (by decide) calls).2.2 (by decide) leafWord
    (loadFrom 0x3000)
  rw [if_pos (by decide)] at h
  exact ⟨by decide, by decide, h, by decide⟩

end MMU
end RiscvEmulator.Memory
