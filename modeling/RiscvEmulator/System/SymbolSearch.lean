import RiscvEmulator.System.ElfFile

/-! # When the search for a symbol stays in the file

The search visits the offsets that are multiples of the entry size, modulo 2^32, up to one
past the table or one whose symbol has the name. -/
namespace RiscvEmulator.System
open Memory

namespace FileBuffer
variable {buffer : FileBuffer} {t : SymbolTables} {name : List Byte} {o : Nat} {offset : Word}

/-! ## Names -/

/-- `name` stands at `o`. -/
def NameAt (buffer : FileBuffer) (o : Nat) (name : List Byte) : Prop :=
  ∀ j, j < name.length → buffer.byte (o + j) = name.getD j 0

/-- The bytes at `o` that are compared with `name` lie in the file: those up to the first that
differs. -/
def ComparesInFile (buffer : FileBuffer) (o : Nat) (name : List Byte) : Prop :=
  ∀ j, j < name.length → (∀ i, i < j → buffer.byte (o + i) = name.getD i 0) →
    o + j < buffer.length

theorem nameAt_cons {c : Byte} : NameAt buffer o (c :: name) ↔
    buffer.byte o = c ∧ NameAt buffer (o + 1) name := by
  constructor
  · intro h
    refine ⟨h 0 (Nat.succ_pos _), fun j hj => ?_⟩
    have hnext := h (j + 1) (Nat.succ_lt_succ hj)
    rwa [List.getD_cons_succ, ← Nat.add_assoc, Nat.add_right_comm] at hnext
  · rintro ⟨hc, h⟩ j hj
    cases j with
    | zero => exact hc
    | succ j =>
      rw [List.getD_cons_succ, ← Nat.add_assoc, Nat.add_right_comm]
      exact h j (Nat.lt_of_succ_lt_succ hj)

theorem comparesInFile_cons {c : Byte} : ComparesInFile buffer o (c :: name) ↔
    o < buffer.length ∧ (buffer.byte o = c → ComparesInFile buffer (o + 1) name) := by
  constructor
  · intro h
    refine ⟨h 0 (Nat.succ_pos _) nofun, fun hc j hj hbefore => ?_⟩
    have hin := h (j + 1) (Nat.succ_lt_succ hj) ?_
    · omega
    · intro i hi
      cases i with
      | zero => exact hc
      | succ i =>
        rw [List.getD_cons_succ, ← Nat.add_assoc, Nat.add_right_comm]
        exact hbefore i (Nat.lt_of_succ_lt_succ hi)
  · rintro ⟨ho, h⟩ j hj hbefore
    cases j with
    | zero => exact ho
    | succ j =>
      have hin := h (hbefore 0 (Nat.succ_pos _)) j (Nat.lt_of_succ_lt_succ hj) ?_
      · omega
      · intro i hi
        have hnext := hbefore (i + 1) (Nat.succ_lt_succ hi)
        rwa [List.getD_cons_succ, ← Nat.add_assoc, Nat.add_right_comm] at hnext

/-- The comparison returns exactly if it stays in the file, and then it is right. -/
theorem nameIs_eq_ok_iff {found : Bool} : buffer.nameIs o name = .ok found ↔
    ComparesInFile buffer o name ∧ (found = true ↔ NameAt buffer o name) := by
  induction name generalizing o with
  | nil =>
    have hin : ComparesInFile buffer o [] := fun j hj => absurd hj j.not_lt_zero
    have hat : NameAt buffer o [] := fun j hj => absurd hj j.not_lt_zero
    rw [nameIs, and_iff_right hin, iff_true_right hat, Except.ok.injEq]
    exact eq_comm
  | cons c name ih =>
    rw [nameIs, comparesInFile_cons, nameAt_cons]
    by_cases ho : buffer.length ≤ o
    · rw [if_pos ho]
      exact iff_of_false (by simp) fun h => absurd h.1.1 (Nat.not_lt.mpr ho)
    · rw [if_neg ho, and_iff_right (Nat.lt_of_not_le ho)]
      by_cases hc : buffer.byte o = c
      · rw [if_pos hc, forall_prop_of_true hc, and_iff_right hc]
        exact ih
      · rw [if_neg hc, and_iff_right fun h => absurd h hc, Except.ok.injEq]
        cases found with
        | false => exact iff_of_true rfl (iff_of_false Bool.false_ne_true fun h => hc h.1)
        | true => exact iff_of_false Bool.false_ne_true fun h => hc (h.mp rfl).1

theorem comparesInFile_iff :
    ComparesInFile buffer o name ↔ ∃ found, buffer.nameIs o name = .ok found := by
  constructor
  · intro h
    by_cases hname : NameAt buffer o name
    · exact ⟨true, nameIs_eq_ok_iff.mpr ⟨h, iff_of_true rfl hname⟩⟩
    · exact ⟨false, nameIs_eq_ok_iff.mpr ⟨h, iff_of_false nofun hname⟩⟩
  · rintro ⟨found, hok⟩
    exact (nameIs_eq_ok_iff.mp hok).1

/-! ## Symbols -/

/-- An entry begins at the offset and ends in the table. -/
def InTable (t : SymbolTables) (offset : Word) : Prop :=
  offset.toNat + symSize ≤ t.symtabSize.toNat

/-- The symbol at the offset. -/
abbrev symbol (buffer : FileBuffer) (t : SymbolTables) (offset : Word) : Sym :=
  buffer.symAt (t.symtabOffset.toNat + offset.toNat)

/-- Where the name of the symbol stands. -/
abbrev nameOffset (buffer : FileBuffer) (t : SymbolTables) (offset : Word) : Nat :=
  t.strtabOffset.toNat + (buffer.symbol t offset).name.toNat

/-- The symbol is the one looked for. -/
def Found (buffer : FileBuffer) (t : SymbolTables) (name : List Byte) (offset : Word) : Prop :=
  (buffer.symbol t offset).name < t.strtabSize ∧ NameAt buffer (buffer.nameOffset t offset) name

/-- The entry lies in the file, and so does what is compared of its name, if the name begins in
the string table. -/
def ReadsInFile (buffer : FileBuffer) (t : SymbolTables) (name : List Byte) (offset : Word) :
    Prop :=
  t.symtabOffset.toNat + offset.toNat + symSize ≤ buffer.length ∧
    ((buffer.symbol t offset).name < t.strtabSize →
      ComparesInFile buffer (buffer.nameOffset t offset) name)

/-- The search ends at the offset: the table does, or the symbol is found. -/
def Leaves (buffer : FileBuffer) (t : SymbolTables) (name : List Byte) (offset : Word) : Prop :=
  InTable t offset → Found buffer t name offset

/-- A turn of the search returns, if it stays in the file: it ends the search, or goes on with
the next offset. -/
theorem searchSymbol_succ_ok {fuel : Nat} :
    (∃ v, buffer.searchSymbol t name (fuel + 1) offset = .ok v) ↔
      (InTable t offset → ReadsInFile buffer t name offset) ∧
        (Leaves buffer t name offset ∨
          ∃ v, buffer.searchSymbol t name fuel (offset + t.symtabEntsize) = .ok v) := by
  rw [searchSymbol]
  by_cases hin : offset.toNat + symSize ≤ t.symtabSize.toNat
  · -- where the search goes on, what it returns is what the rest returns
    have hrest : ReadsInFile buffer t name offset → ¬Found buffer t name offset →
        ((∃ v, buffer.searchSymbol t name fuel (offset + t.symtabEntsize) = .ok v) ↔
          (InTable t offset → ReadsInFile buffer t name offset) ∧ (Leaves buffer t name offset ∨
            ∃ v, buffer.searchSymbol t name fuel (offset + t.symtabEntsize) = .ok v)) := by
      intro hreads hfound
      rw [and_iff_right fun _ => hreads, or_iff_right fun h => hfound (h hin)]
    rw [if_pos hin]
    simp only
    by_cases hfile : buffer.length < t.symtabOffset.toNat + offset.toNat + symSize
    · rw [if_pos hfile]
      exact iff_of_false (by simp) fun h => absurd (h.1 hin).1 (Nat.not_le.mpr hfile)
    · rw [if_neg hfile]
      by_cases hnamed : (buffer.symbol t offset).name < t.strtabSize
      · rw [if_pos hnamed]
        cases hcompare : buffer.nameIs (buffer.nameOffset t offset) name with
        | error e =>
          refine iff_of_false (by simp [bind, Except.bind]) fun h => ?_
          obtain ⟨found, hok⟩ := comparesInFile_iff.mp ((h.1 hin).2 hnamed)
          rw [hcompare] at hok
          cases hok
        | ok found =>
          obtain ⟨hcompares, hname⟩ := nameIs_eq_ok_iff.mp hcompare
          have hreads : ReadsInFile buffer t name offset :=
            ⟨Nat.le_of_not_lt hfile, fun _ => hcompares⟩
          cases found with
          | true =>
            exact iff_of_true ⟨_, rfl⟩ ⟨fun _ => hreads, .inl fun _ => ⟨hnamed, hname.mp rfl⟩⟩
          | false => exact hrest hreads fun h => Bool.false_ne_true (hname.mpr h.2)
      · rw [if_neg hnamed]
        exact hrest ⟨Nat.le_of_not_lt hfile, fun h => absurd h hnamed⟩ fun h => hnamed h.1
  · rw [if_neg hin]
    exact iff_of_true ⟨0, rfl⟩ ⟨fun h => absurd h hin, .inl fun h => absurd h hin⟩

/-! ## The search -/

/-- The offset that the search visits in its turn `k`. -/
def visited (t : SymbolTables) (k : Nat) : Word := BitVec.ofNat 32 k * t.symtabEntsize

/-- The search comes to an offset where it ends, and stays in the file up to there. -/
def SearchInFile (buffer : FileBuffer) (t : SymbolTables) (name : List Byte) : Prop :=
  ∃ last, Leaves buffer t name (visited t last) ∧
    ∀ k, k ≤ last → InTable t (visited t k) → ReadsInFile buffer t name (visited t k)

theorem visited_succ (t : SymbolTables) (k : Nat) :
    visited t k + t.symtabEntsize = visited t (k + 1) := by
  unfold visited
  rw [BitVec.ofNat_add, BitVec.add_mul, BitVec.one_mul]

theorem visited_mod (t : SymbolTables) (k : Nat) : visited t (k % 2 ^ 32) = visited t k := by
  unfold visited
  congr 1
  exact BitVec.eq_of_toNat_eq (by simp)

theorem searchSymbol_ok_iff {fuel k : Nat} :
    (∃ v, buffer.searchSymbol t name fuel (visited t k) = .ok v) ↔
      ∃ last, k ≤ last ∧ last < k + fuel ∧ Leaves buffer t name (visited t last) ∧
        ∀ j, k ≤ j → j ≤ last →
          InTable t (visited t j) → ReadsInFile buffer t name (visited t j) := by
  induction fuel generalizing k with
  | zero =>
    refine iff_of_false ?_ ?_
    · rintro ⟨v, hv⟩
      cases hv
    · rintro ⟨last, hk, hlast, _⟩
      omega
  | succ fuel ih =>
    rw [searchSymbol_succ_ok, visited_succ, ih]
    constructor
    · rintro ⟨hreads, hleaves | ⟨last, hk, hlast, hleaves, hrest⟩⟩
      · refine ⟨k, Nat.le_refl k, by omega, hleaves, fun j hkj hj => ?_⟩
        obtain rfl := Nat.le_antisymm hkj hj
        exact hreads
      · refine ⟨last, by omega, by omega, hleaves, fun j hkj hj => ?_⟩
        rcases Nat.eq_or_lt_of_le hkj with rfl | hlt
        · exact hreads
        · exact hrest j hlt hj
    · rintro ⟨last, hk, hlast, hleaves, hreads⟩
      refine ⟨hreads k (Nat.le_refl k) hk, ?_⟩
      rcases Nat.eq_or_lt_of_le hk with rfl | hlt
      · exact .inl hleaves
      · exact .inr ⟨last, hlt, by omega, hleaves, fun j hkj hj => hreads j (by omega) hj⟩

/-- As many turns as there are offsets are enough: a search that ends at all ends in them. -/
theorem searchSymbol_returns_iff :
    (∃ v, buffer.searchSymbol t name (2 ^ 32) 0 = .ok v) ↔ SearchInFile buffer t name := by
  have hzero : (0 : Word) = visited t 0 := (BitVec.zero_mul).symm
  rw [hzero, searchSymbol_ok_iff]
  constructor
  · rintro ⟨last, _, _, hleaves, hreads⟩
    exact ⟨last, hleaves, fun k hk => hreads k (Nat.zero_le k) hk⟩
  · rintro ⟨last, hleaves, hreads⟩
    have hmod : last % 2 ^ 32 ≤ last := Nat.mod_le ..
    refine ⟨last % 2 ^ 32, Nat.zero_le _, ?_, ?_, fun j _ hj => hreads j (hj.trans hmod)⟩
    · rw [Nat.zero_add]
      exact Nat.mod_lt _ (by decide)
    · rwa [visited_mod]

/-- The file has no symbols, or the search among them stays in it. -/
def SymbolsInReach (buffer : FileBuffer) (ehdr : Ehdr) (name : List Byte) : Prop :=
  let t := buffer.symbolTables ehdr
  ehdr.shoff = 0 ∨ ehdr.shnum = 0 ∨ t.symtabOffset = 0 ∨ t.symtabEntsize = 0 ∨
    SearchInFile buffer t name

theorem findSymbolStart_returns_iff (ehdr : Ehdr) :
    (∃ v, buffer.findSymbolStart ehdr name = .ok v) ↔ SymbolsInReach buffer ehdr name := by
  unfold findSymbolStart SymbolsInReach
  by_cases hheader : ehdr.shoff = 0 ∨ ehdr.shnum = 0
  · rw [if_pos hheader]
    exact iff_of_true ⟨0, rfl⟩ (hheader.imp_right .inl)
  · rw [if_neg hheader]
    obtain ⟨hshoff, hshnum⟩ := not_or.mp hheader
    simp only
    rw [or_iff_right hshoff, or_iff_right hshnum]
    by_cases htable : (buffer.symbolTables ehdr).symtabOffset = 0 ∨
        (buffer.symbolTables ehdr).symtabEntsize = 0
    · rw [if_pos htable]
      exact iff_of_true ⟨0, rfl⟩ (htable.imp_right .inl)
    · rw [if_neg htable, searchSymbol_returns_iff]
      obtain ⟨hoffset, hentsize⟩ := not_or.mp htable
      rw [or_iff_right hoffset, or_iff_right hentsize]

end FileBuffer
end RiscvEmulator.System
