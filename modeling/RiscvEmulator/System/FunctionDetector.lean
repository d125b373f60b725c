import RiscvEmulator.Lib.Fold
import RiscvEmulator.Lib.InputStream
import RiscvEmulator.System.SymbolSearch

/-! # The functions of an ELF file

`extract_functions_from_elf` of the profiler reads the section headers, the symbols and their
names through a stream into tables of the sizes that the file gives. -/
namespace RiscvEmulator.System
open Memory Lib

namespace FunctionDetector

/-- An access outside the tables: the header of the section names does not exist, a name
does not end in its string table, or a read into the symbols is longer than their table. -/
inductive ExtractFault where
  | headerIndex | nameEnd | tableOverflow
deriving DecidableEq, Repr

structure Ehdr where
  /-- The first four bytes of `e_ident`. -/
  ident : List Byte
  shoff : Word
  shnum : BitVec 16
  shstrndx : BitVec 16
deriving DecidableEq, Repr

structure Shdr where
  name : Word
  type : Word
  offset : Word
  size : Word
deriving DecidableEq, Repr

structure Sym where
  name : Word
  value : Word
  info : Byte
deriving DecidableEq, Repr

def elfMagic : List Byte := [0x7f, 0x45, 0x4c, 0x46]

/-- `".strtab"`. -/
def strtabName : List Byte := [0x2e, 0x73, 0x74, 0x72, 0x74, 0x61, 0x62]

def ehdrOf (bytes : Nat → Byte) : Ehdr where
  ident := [bytes 0, bytes 1, bytes 2, bytes 3]
  shoff := load32 bytes 32
  shnum := load16 bytes 48
  shstrndx := load16 bytes 50

/-- Entry `i` of the section headers. -/
def shdrAt (headers : List Byte) (i : Nat) : Shdr :=
  let bytes j := headers.getD j 0
  { name := load32 bytes (i * shdrSize)
    type := load32 bytes (i * shdrSize + 4)
    offset := load32 bytes (i * shdrSize + 16)
    size := load32 bytes (i * shdrSize + 20) }

/-- Entry `k` of the symbols. -/
def symAt (symtab : List Byte) (k : Nat) : Sym :=
  let bytes j := symtab.getD j 0
  { name := load32 bytes (k * symSize)
    value := load32 bytes (k * symSize + 4)
    info := bytes (k * symSize + 12) }

/-- The string that begins at `o`. -/
def cstring (table : List Byte) (o : Nat) : Except ExtractFault (List Byte) :=
  if 0 ∈ table.drop o then .ok ((table.drop o).takeWhile (· ≠ 0)) else .error .nameEnd

/-- Read `count` bytes at `offset` of the file into a table of `size` zeros. -/
def readTable (file : InputStream Byte) (offset size count : Nat) :
    Except ExtractFault (List Byte × InputStream Byte) :=
  let (bytes, file) := (file.seekg offset).read count
  if size < bytes.length then .error .tableOverflow else .ok (InputStream.fill 0 size bytes, file)

/-! ## The loops -/

/-- A turn of the loop that looks for the symbols and their names. -/
def sectionTurn (headers shstrtab : List Byte) (found : Nat × Nat) (i : Nat) :
    Except ExtractFault (Nat × Nat) :=
  let shdr := shdrAt headers i
  if shdr.type = 2 then .ok (i, found.2)
  else if shdr.type = 3 then
    (cstring shstrtab shdr.name.toNat).map fun name =>
      if name = strtabName then (found.1, i) else found
  else .ok found

/-- Where the symbols and their names are, 0 where there are none. -/
def findTables (headers shstrtab : List Byte) (shnum : Nat) : Except ExtractFault (Nat × Nat) :=
  (List.range shnum).foldlM (sectionTurn headers shstrtab) (0, 0)

/-- The beginnings of names that are left out, and how many characters are compared with
them. -/
def excluded : List (Nat × List Byte) :=
  [(4, [0x67, 0x63, 0x63, 0x5f]), (3, [0x5f, 0x5f, 0x63]), (4, [0x5f, 0x5f, 0x73, 0x74]),
    (5, [0x66, 0x72, 0x61, 0x6d, 0x65]), (4, [0x5f, 0x5f, 0x69]), (3, [0x5f, 0x5f, 0x76]),
    (4, [0x5f, 0x5f, 0x74])]

def isUserFunction (name : List Byte) : Bool :=
  name ≠ [] && excluded.all fun (length, beginning) => name.take length ≠ beginning

abbrev Functions := Word → Option (List Byte)

/-- The symbol is that of a function. -/
def Sym.isFunction (sym : Sym) : Bool := sym.info &&& 0xf == 2

/-- A turn of the loop over the symbols. -/
def symbolTurn (symtab strtab : List Byte) (functions : Functions) (k : Nat) :
    Except ExtractFault Functions :=
  let sym := symAt symtab k
  if sym.isFunction then
    (cstring strtab sym.name.toNat).map fun name =>
      if isUserFunction name then Function.update functions sym.value (some name) else functions
  else .ok functions

/-- How many whole symbols there are. -/
def symCount (symbols : Shdr) : Nat := symbols.size.toNat / symSize

/-- The last part: the symbols, their names, and the functions among them. -/
def extractSymbols (file : InputStream Byte) (symbols strings : Shdr) :
    Except ExtractFault Functions := do
  let (symtab, file) ←
    readTable file symbols.offset.toNat (symCount symbols * symSize) symbols.size.toNat
  let (strtab, _) ← readTable file strings.offset.toNat strings.size.toNat strings.size.toNat
  (List.range (symCount symbols)).foldlM (symbolTurn symtab strtab) fun _ => none

/-- From the section headers on. -/
def extractSections (file : InputStream Byte) (ehdr : Ehdr) : Except ExtractFault Functions := do
  let shnum := ehdr.shnum.toNat
  let (headers, file) ← readTable file ehdr.shoff.toNat (shdrSize * shnum) (shdrSize * shnum)
  if shnum ≤ ehdr.shstrndx.toNat then .error .headerIndex
  else
    let names := shdrAt headers ehdr.shstrndx.toNat
    let (shstrtab, file) ← readTable file names.offset.toNat names.size.toNat names.size.toNat
    let (symtabIdx, strtabIdx) ← findTables headers shstrtab shnum
    if symtabIdx = 0 ∨ strtabIdx = 0 then .ok fun _ => none
    else extractSymbols file (shdrAt headers symtabIdx) (shdrAt headers strtabIdx)

/-- `stack` is what the header holds before it is read. -/
def extractFunctionsFromElf (buffer : FileBuffer) (stack : Nat → Byte) :
    Except ExtractFault Functions :=
  let (bytes, file) := (InputStream.ofList buffer).read ehdrSize
  let ehdr := ehdrOf fun j => bytes.getD j (stack j)
  if ehdr.ident ≠ elfMagic then .ok fun _ => none else extractSections file ehdr

/-! ## What the file says -/

/-- The last number below `m` that has the property, 0 if there is none. -/
def lastIndex (p : Nat → Bool) : Nat → Nat
  | 0 => 0
  | m + 1 => if p m then m else lastIndex p m

/-- A string that begins at `o` ends in the table. -/
def NameEnds (table : List Byte) (o : Nat) : Prop :=
  ∃ j, o ≤ j ∧ j < table.length ∧ table.getD j 0 = 0

/-- `size` bytes of the file from `offset` on, with zeros past the end, all zero if a read
has failed before. -/
def tableAt (buffer : FileBuffer) (failed : Bool) (offset size : Nat) : List Byte :=
  InputStream.view 0 ⟨buffer, 0, failed⟩ offset size

/-- A read of `size` bytes at `offset` finds fewer. -/
def fallsShort (buffer : FileBuffer) (offset size : Nat) : Bool :=
  decide (buffer.length - offset < size)

/-- The headers and tables in a file. -/
structure Contents where
  ehdr : Ehdr
  headers : List Byte
  shstrtab : List Byte
  symtabIdx : Nat
  strtabIdx : Nat
  /-- Some read before that of the symbols has failed. -/
  failed : Bool
  symtab : List Byte
  strtab : List Byte

def sectionName (headers shstrtab : List Byte) (i : Nat) : List Byte :=
  (shstrtab.drop (shdrAt headers i).name.toNat).takeWhile (· ≠ 0)

def isSymtab (headers : List Byte) (i : Nat) : Bool := (shdrAt headers i).type == 2

def isStrtab (headers shstrtab : List Byte) (i : Nat) : Bool :=
  (shdrAt headers i).type == 3 && sectionName headers shstrtab i == strtabName

def contents (buffer : FileBuffer) (stack : Nat → Byte) : Contents :=
  let ehdr := ehdrOf fun j => buffer.getD j (stack j)
  let size := shdrSize * ehdr.shnum.toNat
  let headers := tableAt buffer (fallsShort buffer 0 ehdrSize) ehdr.shoff.toNat size
  let failed := fallsShort buffer 0 ehdrSize || fallsShort buffer ehdr.shoff.toNat size
  let names := shdrAt headers ehdr.shstrndx.toNat
  let shstrtab := tableAt buffer failed names.offset.toNat names.size.toNat
  let failed := failed || fallsShort buffer names.offset.toNat names.size.toNat
  let symtabIdx := lastIndex (isSymtab headers) ehdr.shnum.toNat
  let strtabIdx := lastIndex (isStrtab headers shstrtab) ehdr.shnum.toNat
  let symbols := shdrAt headers symtabIdx
  let strings := shdrAt headers strtabIdx
  { ehdr, headers, shstrtab, symtabIdx, strtabIdx, failed
    symtab := tableAt buffer failed symbols.offset.toNat (symCount symbols * symSize)
    strtab := tableAt buffer
      (failed || fallsShort buffer symbols.offset.toNat symbols.size.toNat)
      strings.offset.toNat strings.size.toNat }

/-- The reader stays in its tables: the header of the section names exists, the names of
string tables and functions end, and the file has no more bytes for the symbols than
their table, which has room for whole symbols only. -/
structure StaysInTables (buffer : FileBuffer) (c : Contents) : Prop where
  headerIndex : c.ehdr.shstrndx.toNat < c.ehdr.shnum.toNat
  sections : ∀ i, i < c.ehdr.shnum.toNat → (shdrAt c.headers i).type = 3 →
    NameEnds c.shstrtab (shdrAt c.headers i).name.toNat
  symbols : c.symtabIdx ≠ 0 → c.strtabIdx ≠ 0 →
    let symbols := shdrAt c.headers c.symtabIdx
    (c.failed = false → min symbols.size.toNat (buffer.length - symbols.offset.toNat) ≤
      symCount symbols * symSize) ∧
    ∀ k, k < symCount symbols → (symAt c.symtab k).isFunction = true →
      NameEnds c.strtab (symAt c.symtab k).name.toNat

/-! ## Strings and tables -/

theorem zero_mem_drop_iff (table : List Byte) (o : Nat) : 0 ∈ table.drop o ↔ NameEnds table o := by
  rw [List.mem_iff_getElem]
  simp only [List.length_drop, List.getElem_drop]
  constructor
  · rintro ⟨j, hj, hzero⟩
    refine ⟨o + j, Nat.le_add_right .., by omega, ?_⟩
    rw [List.getD_eq_getElem _ _ (by omega)]
    exact hzero
  · rintro ⟨j, ho, hj, hzero⟩
    refine ⟨j - o, by omega, ?_⟩
    rw [List.getD_eq_getElem _ _ hj] at hzero
    simpa [Nat.add_sub_cancel' ho] using hzero

theorem cstring_eq {table : List Byte} {o : Nat} (h : NameEnds table o) :
    cstring table o = .ok ((table.drop o).takeWhile (· ≠ 0)) :=
  if_pos ((zero_mem_drop_iff table o).mpr h)

theorem cstring_error {table : List Byte} {o : Nat} (h : ¬NameEnds table o) :
    cstring table o = .error .nameEnd :=
  if_neg fun hmem => h ((zero_mem_drop_iff table o).mp hmem)

section
variable {file : InputStream Byte} {buffer : FileBuffer} (offset : Nat) {size count : Nat}

/-- A read that fits leaves in the table what the file has there. -/
theorem readTable_ok (hdata : file.data = buffer) (hsize : size ≤ count)
    (hfits : file.failed = false → min count (buffer.length - offset) ≤ size) :
    ∃ file', readTable file offset size count =
      .ok (tableAt buffer file.failed offset size, file') ∧ file'.data = buffer ∧
        file'.failed = (file.failed || fallsShort buffer offset count) := by
  have hlength := file.length_seekg_read offset count
  rw [hdata] at hlength
  have hle : ((file.seekg offset).read count).1.length ≤ size := by
    rw [hlength]
    cases hfailed : file.failed with
    | true => exact Nat.zero_le _
    | false => exact hfits hfailed
  refine ⟨_, ?_, (file.seekg_read_data offset count).trans hdata, ?_⟩
  · unfold readTable
    simp only
    rw [if_neg (Nat.not_lt.mpr hle), file.fill_seekg_read 0 offset count size hsize hle]
    unfold tableAt InputStream.view
    rw [hdata]
  · rw [file.seekg_read_failed, hdata]
    rfl

theorem readTable_overflow (hdata : file.data = buffer) (hfailed : file.failed = false)
    (hover : size < min count (buffer.length - offset)) :
    readTable file offset size count = .error .tableOverflow := by
  have hlength := file.length_seekg_read offset count
  rw [hfailed, hdata] at hlength
  unfold readTable
  simp only
  rw [if_pos (by rw [hlength]; exact hover)]

end

/-! ## Loops -/

theorem cstring_returns (table : List Byte) (o : Nat) :
    (∃ name, cstring table o = .ok name) ↔ NameEnds table o := by
  by_cases h : NameEnds table o
  · exact iff_of_true ⟨_, cstring_eq h⟩ h
  · rw [cstring_error h]
    exact iff_of_false (fun ⟨_, h⟩ => nomatch h) h

theorem map_returns {α β : Type} {x : Except ExtractFault α} {f : α → β} :
    (∃ b, x.map f = .ok b) ↔ ∃ a, x = .ok a := by
  cases x with
  | error e => exact iff_of_false (fun ⟨_, h⟩ => nomatch h) fun ⟨_, h⟩ => nomatch h
  | ok a => exact iff_of_true ⟨_, rfl⟩ ⟨a, rfl⟩

variable (headers shstrtab symtab strtab : List Byte)

theorem sectionTurn_returns (found : Nat × Nat) (i : Nat) :
    (∃ r, sectionTurn headers shstrtab found i = .ok r) ↔
      ((shdrAt headers i).type = 3 → NameEnds shstrtab (shdrAt headers i).name.toNat) := by
  unfold sectionTurn
  simp only
  split
  · next h2 =>
    refine iff_of_true ⟨_, rfl⟩ fun h3 => ?_
    rw [h2] at h3
    exact absurd h3 (by decide)
  · split
    · next h3 => rw [map_returns, cstring_returns, forall_prop_of_true h3]
    · next h3 => exact iff_of_true ⟨_, rfl⟩ fun h => absurd h h3

/-- A turn notes the section if it is of one of the two kinds. -/
theorem sectionTurn_eq (found : Nat × Nat) {i : Nat} (h : (shdrAt headers i).type = 3 →
      NameEnds shstrtab (shdrAt headers i).name.toNat) :
    sectionTurn headers shstrtab found i = .ok (if isSymtab headers i then i else found.1,
      if isStrtab headers shstrtab i then i else found.2) := by
  unfold sectionTurn isSymtab isStrtab sectionName
  simp only
  generalize shdrAt headers i = shdr at h ⊢
  by_cases h2 : shdr.type = 2
  · have h3 : (shdr.type == 3) = false := by
      rw [h2]
      rfl
    rw [if_pos h2, h3, h2]
    rfl
  · by_cases h3 : shdr.type = 3
    · have h2' : (shdr.type == 2) = false := by
        rw [h3]
        rfl
      have h3' : (shdr.type == 3) = true := by
        rw [h3]
        rfl
      rw [if_neg h2, if_pos h3, cstring_eq (h h3), h2', h3', Bool.true_and]
      simp only [Except.map, Bool.false_eq_true, if_false, beq_iff_eq]
      split <;> rfl
    · have h2' : (shdr.type == 2) = false := beq_eq_false_iff_ne.mpr h2
      have h3' : (shdr.type == 3) = false := beq_eq_false_iff_ne.mpr h3
      rw [if_neg h2, if_neg h3, h2', h3']
      rfl

theorem findTables_returns (m : Nat) : (∃ r, findTables headers shstrtab m = .ok r) ↔
    ∀ i, i < m → (shdrAt headers i).type = 3 →
      NameEnds shstrtab (shdrAt headers i).name.toNat := by
  unfold findTables
  rw [Fold.foldlM_returns_iff (sectionTurn_returns headers shstrtab)]
  simp only [List.mem_range]

/-- What the loop finds is the last section of each kind. -/
theorem findTables_eq {m : Nat} {r : Nat × Nat} (h : findTables headers shstrtab m = .ok r) :
    r = (lastIndex (isSymtab headers) m, lastIndex (isStrtab headers shstrtab) m) := by
  have hends := (findTables_returns headers shstrtab m).mp ⟨r, h⟩
  have hrun : ∃ t, findTables headers shstrtab m = .ok t ∧
      t = (lastIndex (isSymtab headers) m, lastIndex (isStrtab headers shstrtab) m) := by
    refine Fold.foldlM_range_ok
      (P := fun k t =>
        t = (lastIndex (isSymtab headers) k, lastIndex (isStrtab headers shstrtab) k))
      rfl ?_
    rintro k hk t rfl
    exact ⟨_, sectionTurn_eq headers shstrtab _ (hends k hk), rfl⟩
  obtain ⟨t, ht, heq⟩ := hrun
  rw [h] at ht
  exact (Except.ok.inj ht).trans heq

theorem symbolTurn_returns (functions : Functions) (k : Nat) :
    (∃ r, symbolTurn symtab strtab functions k = .ok r) ↔
      ((symAt symtab k).isFunction = true → NameEnds strtab (symAt symtab k).name.toNat) := by
  unfold symbolTurn
  simp only
  split
  · next hfunc => rw [map_returns, cstring_returns, forall_prop_of_true hfunc]
  · next hfunc => exact iff_of_true ⟨_, rfl⟩ fun h => absurd h hfunc

/-- The symbols stay in their tables, where a read has failed or not. -/
theorem extractSymbols_returns {file : InputStream Byte} {buffer : FileBuffer}
    (hdata : file.data = buffer) (symbols strings : Shdr) :
    let symtab := tableAt buffer file.failed symbols.offset.toNat (symCount symbols * symSize)
    let strtab := tableAt buffer
      (file.failed || fallsShort buffer symbols.offset.toNat symbols.size.toNat)
      strings.offset.toNat strings.size.toNat
    (∃ functions, extractSymbols file symbols strings = .ok functions) ↔
      (file.failed = false → min symbols.size.toNat (buffer.length - symbols.offset.toNat) ≤
        symCount symbols * symSize) ∧
      ∀ k, k < symCount symbols → (symAt symtab k).isFunction = true →
        NameEnds strtab (symAt symtab k).name.toNat := by
  intro symtab strtab
  unfold extractSymbols
  by_cases hfits : file.failed = false →
      min symbols.size.toNat (buffer.length - symbols.offset.toNat) ≤ symCount symbols * symSize
  · have hwhole : symCount symbols * symSize ≤ symbols.size.toNat := Nat.div_mul_le_self ..
    obtain ⟨file', hsymtab, hdata', hfailed'⟩ :=
      readTable_ok symbols.offset.toNat hdata hwhole hfits
    obtain ⟨file'', hstrtab, _, _⟩ := readTable_ok strings.offset.toNat hdata'
      (Nat.le_refl strings.size.toNat) fun _ => Nat.min_le_left ..
    rw [and_iff_right hfits, hsymtab]
    show (∃ functions, (readTable file' strings.offset.toNat strings.size.toNat
      strings.size.toNat >>= _) = .ok functions) ↔ _
    rw [hstrtab, hfailed']
    refine (Fold.foldlM_returns_iff (symbolTurn_returns symtab strtab) _ _).trans ?_
    simp only [List.mem_range]
  · rw [readTable_overflow _ hdata (Classical.not_imp.mp hfits).1
      (Nat.lt_of_not_le (Classical.not_imp.mp hfits).2)]
    exact iff_of_false (fun ⟨_, h⟩ => nomatch h) fun h => hfits h.1

theorem extractSections_returns {file : InputStream Byte} {buffer : FileBuffer}
    (hdata : file.data = buffer) (stack : Nat → Byte)
    (hfailed : file.failed = fallsShort buffer 0 ehdrSize) :
    let c := contents buffer stack
    (∃ functions, extractSections file c.ehdr = .ok functions) ↔ StaysInTables buffer c := by
  intro c
  obtain ⟨file₁, hheaders, hdata₁, hfailed₁⟩ := readTable_ok c.ehdr.shoff.toNat hdata
    (Nat.le_refl (shdrSize * c.ehdr.shnum.toNat)) fun _ => Nat.min_le_left ..
  rw [hfailed] at hheaders hfailed₁
  let names := shdrAt c.headers c.ehdr.shstrndx.toNat
  obtain ⟨file₂, hnames, hdata₂, hfailed₂⟩ := readTable_ok names.offset.toNat hdata₁
    (Nat.le_refl names.size.toNat) fun _ => Nat.min_le_left ..
  rw [hfailed₁] at hnames hfailed₂
  have hheaders' : readTable file c.ehdr.shoff.toNat (shdrSize * c.ehdr.shnum.toNat)
      (shdrSize * c.ehdr.shnum.toNat) = .ok (c.headers, file₁) := hheaders
  have hnames' : readTable file₁ names.offset.toNat names.size.toNat names.size.toNat =
      .ok (c.shstrtab, file₂) := hnames
  unfold extractSections
  simp only [hheaders', bind, Except.bind]
  by_cases hindex : c.ehdr.shnum.toNat ≤ c.ehdr.shstrndx.toNat
  · rw [if_pos hindex]
    exact iff_of_false (fun ⟨_, h⟩ => nomatch h) fun h =>
      absurd h.headerIndex (Nat.not_lt.mpr hindex)
  · rw [if_neg hindex, hnames']
    simp only
    cases htables : findTables c.headers c.shstrtab c.ehdr.shnum.toNat with
    | error e =>
      refine iff_of_false (fun ⟨_, h⟩ => nomatch h) fun h => ?_
      obtain ⟨r, hr⟩ := (findTables_returns c.headers c.shstrtab _).mpr h.sections
      rw [htables] at hr
      cases hr
    | ok r =>
      have hsections := (findTables_returns c.headers c.shstrtab _).mp ⟨r, htables⟩
      obtain rfl := findTables_eq c.headers c.shstrtab htables
      have hsymbols := extractSymbols_returns hdata₂ (shdrAt c.headers c.symtabIdx)
        (shdrAt c.headers c.strtabIdx)
      rw [hfailed₂] at hsymbols
      by_cases hnone : c.symtabIdx = 0 ∨ c.strtabIdx = 0
      · refine iff_of_true ⟨_, if_pos hnone⟩ ⟨Nat.lt_of_not_le hindex, hsections, ?_⟩
        intro hsymtab hstrtab
        exact absurd hnone (not_or.mpr ⟨hsymtab, hstrtab⟩)
      · obtain ⟨hsymtab, hstrtab⟩ := not_or.mp hnone
        show (∃ functions, (if c.symtabIdx = 0 ∨ c.strtabIdx = 0 then _ else extractSymbols file₂
          (shdrAt c.headers c.symtabIdx) (shdrAt c.headers c.strtabIdx)) = .ok functions) ↔ _
        rw [if_neg hnone]
        refine hsymbols.trans ?_
        exact ⟨fun h => ⟨Nat.lt_of_not_le hindex, hsections, fun _ _ => h⟩,
          fun h => h.symbols hsymtab hstrtab⟩

theorem ehdrOf_congr {f g : Nat → Byte} (h : ∀ j, j < ehdrSize → f j = g j) :
    ehdrOf f = ehdrOf g := by
  have hsize : ehdrSize = 52 := rfl
  unfold ehdrOf load32 load16
  simp (disch := omega) only [h]

/-- The extraction stays in its tables exactly if the file is not taken for ELF, or its headers
and tables let it. -/
theorem extract_returns_iff (buffer : FileBuffer) (stack : Nat → Byte) :
    (∃ functions, extractFunctionsFromElf buffer stack = .ok functions) ↔
      ((contents buffer stack).ehdr.ident = elfMagic →
        StaysInTables buffer (contents buffer stack)) := by
  have hfile := (InputStream.ofList buffer).seekg_read_data 0 ehdrSize
  have hfailed := (InputStream.ofList buffer).seekg_read_failed 0 ehdrSize
  have hehdr : ehdrOf (fun j => ((InputStream.ofList buffer).read ehdrSize).1.getD j (stack j)) =
      (contents buffer stack).ehdr := by
    show _ = ehdrOf fun j => buffer.getD j (stack j)
    refine ehdrOf_congr fun j hj => ?_
    show ((buffer.drop 0).take ehdrSize).getD j (stack j) = buffer.getD j (stack j)
    simp [List.getD_eq_getElem?_getD, hj]
  unfold extractFunctionsFromElf
  simp only
  rw [hehdr]
  by_cases hident : (contents buffer stack).ehdr.ident = elfMagic
  · rw [if_neg (not_not_intro hident), forall_prop_of_true hident]
    exact extractSections_returns hfile stack hfailed
  · rw [if_pos hident]
    exact iff_of_true ⟨_, rfl⟩ fun h => absurd h hident

/-- On any file, both readers of symbols return and read nothing outside the file and their
tables exactly if the search stays in the file and the extraction in its tables. -/
theorem symbol_readers_iff (buffer : FileBuffer) (ehdr : System.Ehdr) (symbolName : List Byte)
    (stack : Nat → Byte) :
    ((∃ v, buffer.findSymbolStart ehdr symbolName = .ok v) ∧
      ∃ functions, extractFunctionsFromElf buffer stack = .ok functions) ↔
    FileBuffer.SymbolsInReach buffer ehdr symbolName ∧
      ((contents buffer stack).ehdr.ident = elfMagic →
        StaysInTables buffer (contents buffer stack)) :=
  and_congr (buffer.findSymbolStart_returns_iff ehdr) (extract_returns_iff buffer stack)

/-- An ELF header without section headers. -/
def stripped : FileBuffer := elfMagic ++ List.replicate 48 0

/-- The extraction asks for the first of them. -/
theorem stripped_faults : ¬ ∀ (buffer : FileBuffer) (ehdr : System.Ehdr)
    (symbolName : List Byte) (stack : Nat → Byte),
    (∃ v, buffer.findSymbolStart ehdr symbolName = .ok v) ∧
      ∃ functions, extractFunctionsFromElf buffer stack = .ok functions := by
  intro hall
  have hextract := (hall stripped stripped.ehdr startName fun _ => 0).2
  have hstays := (extract_returns_iff stripped fun _ => 0).mp hextract (by decide)
  exact absurd hstays.headerIndex (by decide)

end FunctionDetector
end RiscvEmulator.System
