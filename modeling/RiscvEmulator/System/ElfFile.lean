import RiscvEmulator.Memory.ByteMemory

/-! # ELF files

The headers the loader reads from a file, and its search for a symbol. A read
past the end of the file is `fileRead`, a search that never ends is `endless`. -/
namespace RiscvEmulator.System
open Memory

abbrev FileBuffer := List Byte

/-- The byte at an offset. Offsets past the end are never accessed. -/
def FileBuffer.byte (buffer : FileBuffer) (o : Nat) : Byte := buffer.getD o 0

/-! ## Headers -/

structure Ehdr where
  /-- `e_ident[4]`. -/
  identClass : Byte
  entry : Word
  phoff : Word
  shoff : Word
  phentsize : BitVec 16
  phnum : BitVec 16
  shentsize : BitVec 16
  shnum : BitVec 16
deriving DecidableEq, Repr

structure Phdr where
  type : Word
  offset : Word
  paddr : Word
  filesz : Word
  memsz : Word
deriving DecidableEq, Repr

structure Shdr where
  type : Word
  offset : Word
  size : Word
  link : Word
  entsize : Word
deriving DecidableEq, Repr

structure Sym where
  name : Word
  value : Word
deriving DecidableEq, Repr

def ehdrSize : Nat := 52
def phdrSize : Nat := 32
def shdrSize : Nat := 40
def symSize : Nat := 16

def ptLoad : Word := 1
def shtSymtab : Word := 2

namespace FileBuffer
variable (buffer : FileBuffer)

def ehdr : Ehdr where
  identClass := buffer.byte 4
  entry := load32 buffer.byte 24
  phoff := load32 buffer.byte 28
  shoff := load32 buffer.byte 32
  phentsize := load16 buffer.byte 42
  phnum := load16 buffer.byte 44
  shentsize := load16 buffer.byte 46
  shnum := load16 buffer.byte 48

def phdrAt (o : Nat) : Phdr where
  type := load32 buffer.byte o
  offset := load32 buffer.byte (o + 4)
  paddr := load32 buffer.byte (o + 12)
  filesz := load32 buffer.byte (o + 16)
  memsz := load32 buffer.byte (o + 20)

def shdrAt (o : Nat) : Shdr where
  type := load32 buffer.byte (o + 4)
  offset := load32 buffer.byte (o + 16)
  size := load32 buffer.byte (o + 20)
  link := load32 buffer.byte (o + 24)
  entsize := load32 buffer.byte (o + 36)

def symAt (o : Nat) : Sym where
  name := load32 buffer.byte o
  value := load32 buffer.byte (o + 4)

def isElf : Bool :=
  16 ≤ buffer.length && buffer.byte 0 == 0x7f && buffer.byte 1 == 0x45 &&
    buffer.byte 2 == 0x4c && buffer.byte 3 == 0x46

end FileBuffer

namespace Ehdr

/-- Where entry `i` of the program header table begins. The product is an `int`
of the source, taken modulo 2^32. -/
def phdrOffset (ehdr : Ehdr) (i : Nat) : Word :=
  ehdr.phoff + BitVec.ofNat 32 i * ehdr.phentsize.setWidth 32

def shdrOffset (ehdr : Ehdr) (i : Word) : Word :=
  ehdr.shoff + i * ehdr.shentsize.setWidth 32

end Ehdr

/-! ## The search for a symbol -/

inductive SymbolFault where
  | fileRead | endless
deriving DecidableEq, Repr

/-- The symbol table and its string table, all zero where there is none. -/
structure SymbolTables where
  symtabOffset : Word := 0
  symtabSize : Word := 0
  symtabEntsize : Word := 0
  strtabOffset : Word := 0
  strtabSize : Word := 0

namespace FileBuffer
variable (buffer : FileBuffer)

/-- Section header `i` lies in the file and is a symbol table. -/
def isSymtab (ehdr : Ehdr) (i : Nat) : Bool :=
  let o := (ehdr.shdrOffset (BitVec.ofNat 32 i)).toNat
  o + shdrSize ≤ buffer.length && (buffer.shdrAt o).type == shtSymtab

/-- What the first symbol table of the section headers says. -/
def symbolTables (ehdr : Ehdr) : SymbolTables :=
  match (List.range ehdr.shnum.toNat).find? (buffer.isSymtab ehdr) with
  | none => {}
  | some i =>
    let shdr := buffer.shdrAt (ehdr.shdrOffset (BitVec.ofNat 32 i)).toNat
    let tables : SymbolTables :=
      { symtabOffset := shdr.offset, symtabSize := shdr.size, symtabEntsize := shdr.entsize }
    let o := (ehdr.shdrOffset shdr.link).toNat
    if o + shdrSize ≤ buffer.length then
      { tables with
        strtabOffset := (buffer.shdrAt o).offset, strtabSize := (buffer.shdrAt o).size }
    else tables

/-- `std::strncmp`: the bytes from `o` on are those of `name`. It reads up to the
first that differs. -/
def nameIs (o : Nat) : List Byte → Except SymbolFault Bool
  | [] => .ok true
  | c :: name =>
    if buffer.length ≤ o then .error .fileRead
    else if buffer.byte o = c then nameIs (o + 1) name
    else .ok false

/-- The loop over the symbols from `offset` on. The offset takes at most 2^32
values, so a loop that is not over after as many turns is never over. -/
def searchSymbol (t : SymbolTables) (name : List Byte) : Nat → Word → Except SymbolFault Word
  | 0, _ => .error .endless
  | fuel + 1, offset =>
    if offset.toNat + symSize ≤ t.symtabSize.toNat then
      let o := t.symtabOffset.toNat + offset.toNat
      if buffer.length < o + symSize then .error .fileRead
      else
        let sym := buffer.symAt o
        if sym.name < t.strtabSize then do
          if ← buffer.nameIs (t.strtabOffset.toNat + sym.name.toNat) name then .ok sym.value
          else searchSymbol t name fuel (offset + t.symtabEntsize)
        else searchSymbol t name fuel (offset + t.symtabEntsize)
    else .ok 0

/-- The value of the symbol, 0 where there is none. `symbolName` ends in a NUL. -/
def findSymbolStart (ehdr : Ehdr) (symbolName : List Byte) : Except SymbolFault Word :=
  if ehdr.shoff = 0 ∨ ehdr.shnum = 0 then .ok 0
  else
    let tables := buffer.symbolTables ehdr
    if tables.symtabOffset = 0 ∨ tables.symtabEntsize = 0 then .ok 0
    else buffer.searchSymbol tables symbolName (2 ^ 32) 0

end FileBuffer

/-- `"_start"`. -/
def startName : List Byte := [0x5f, 0x73, 0x74, 0x61, 0x72, 0x74, 0]

/-! ## Searches that return -/

namespace FileBuffer
variable {buffer : FileBuffer}

/-- The symbol table has whole entries and lies in the file, and so does its string
table, whose last name ends. -/
structure SymbolsInFile (buffer : FileBuffer) (t : SymbolTables) : Prop where
  entsize : symSize ≤ t.symtabEntsize.toNat
  whole : t.symtabEntsize.toNat ∣ t.symtabSize.toNat
  symtab : t.symtabOffset.toNat + t.symtabSize.toNat ≤ buffer.length
  strtab : t.strtabOffset.toNat + t.strtabSize.toNat ≤ buffer.length
  ends : buffer.byte (t.strtabOffset.toNat + t.strtabSize.toNat - 1) = 0

/-- A comparison that begins before a NUL ends at it or before. -/
theorem nameIs_returns {o stop : Nat} (ho : o < stop) (hstop : stop ≤ buffer.length)
    (hnul : buffer.byte (stop - 1) = 0) {name : List Byte} (hname : ∀ c ∈ name, c ≠ 0) :
    ∃ found, buffer.nameIs o (name ++ [0]) = .ok found := by
  induction name generalizing o with
  | nil =>
    rw [List.nil_append, nameIs, if_neg (by omega)]
    split
    · exact ⟨true, rfl⟩
    · exact ⟨false, rfl⟩
  | cons c name ih =>
    rw [List.cons_append, nameIs, if_neg (by omega)]
    split
    case isTrue hc =>
      have hne : o ≠ stop - 1 := by
        rintro rfl
        exact hname c (List.mem_cons_self ..) (hc.symm.trans hnul)
      exact ih (by omega) fun d hd => hname d (List.mem_cons_of_mem _ hd)
    case isFalse => exact ⟨false, rfl⟩

theorem searchSymbol_returns {t : SymbolTables} (h : buffer.SymbolsInFile t) {name : List Byte}
    (hname : ∀ c ∈ name, c ≠ 0) {fuel : Nat} {offset : Word}
    (hoffset : t.symtabEntsize.toNat ∣ offset.toNat) (hle : offset.toNat ≤ t.symtabSize.toNat)
    (hfuel : t.symtabSize.toNat < offset.toNat + fuel) :
    ∃ v, buffer.searchSymbol t (name ++ [0]) fuel offset = .ok v := by
  have hentsize := h.entsize
  have hsymtab := h.symtab
  have hsym : symSize = 16 := rfl
  induction fuel generalizing offset with
  | zero => omega
  | succ fuel ih =>
    rw [searchSymbol]
    by_cases hmore : offset.toNat + symSize ≤ t.symtabSize.toNat
    · -- whole entries: the next one begins at the end of the table or before
      have hstride : t.symtabEntsize.toNat ≤ t.symtabSize.toNat - offset.toNat :=
        Nat.le_of_dvd (by omega) (Nat.dvd_sub h.whole hoffset)
      have hsize := t.symtabSize.isLt
      have hnext : (offset + t.symtabEntsize).toNat = offset.toNat + t.symtabEntsize.toNat :=
        BitVec.toNat_add_of_lt (by omega)
      have hrest : ∃ v, buffer.searchSymbol t (name ++ [0]) fuel (offset + t.symtabEntsize) =
          .ok v := ih (hnext ▸ Nat.dvd_add hoffset (Nat.dvd_refl _)) (by omega) (by omega)
      rw [if_pos hmore]
      simp only
      rw [if_neg (by omega)]
      split
      case isTrue hnamed =>
        have hlt := BitVec.lt_def.mp hnamed
        obtain ⟨found, hfound⟩ := nameIs_returns (o := t.strtabOffset.toNat +
          (buffer.symAt (t.symtabOffset.toNat + offset.toNat)).name.toNat) (by omega) h.strtab
          h.ends hname
        rw [hfound]
        cases found with
        | true => exact ⟨_, rfl⟩
        | false => exact hrest
      case isFalse => exact hrest
    · rw [if_neg hmore]
      exact ⟨0, rfl⟩

/-- The search returns in a file without symbols, or with well-formed ones. -/
theorem findSymbolStart_returns {ehdr : Ehdr} {name : List Byte} (hname : ∀ c ∈ name, c ≠ 0)
    (h : let t := buffer.symbolTables ehdr
      ehdr.shoff = 0 ∨ ehdr.shnum = 0 ∨ t.symtabOffset = 0 ∨ t.symtabEntsize = 0 ∨
        buffer.SymbolsInFile t) :
    ∃ v, buffer.findSymbolStart ehdr (name ++ [0]) = .ok v := by
  unfold findSymbolStart
  split
  case isTrue => exact ⟨0, rfl⟩
  case isFalse hheader =>
    simp only
    split
    case isTrue => exact ⟨0, rfl⟩
    case isFalse htable =>
      obtain ⟨hshoff, hshnum⟩ := not_or.mp hheader
      obtain ⟨hoffset, hentsize⟩ := not_or.mp htable
      have hin := (((h.resolve_left hshoff).resolve_left hshnum).resolve_left hoffset).resolve_left
        hentsize
      have hzero : (0 : Word).toNat = 0 := rfl
      have hfuel : (buffer.symbolTables ehdr).symtabSize.toNat < (0 : Word).toNat + 2 ^ 32 := by
        rw [hzero, Nat.zero_add]
        exact (buffer.symbolTables ehdr).symtabSize.isLt
      exact searchSymbol_returns hin hname (Nat.dvd_zero _) (Nat.zero_le _) hfuel

theorem start_returns {ehdr : Ehdr} (h : let t := buffer.symbolTables ehdr
      ehdr.shoff = 0 ∨ ehdr.shnum = 0 ∨ t.symtabOffset = 0 ∨ t.symtabEntsize = 0 ∨
        buffer.SymbolsInFile t) :
    ∃ v, buffer.findSymbolStart ehdr startName = .ok v := by
  have hname : ∀ c ∈ ([0x5f, 0x73, 0x74, 0x61, 0x72, 0x74] : List Byte), c ≠ 0 := by decide
  have hstart : startName = [0x5f, 0x73, 0x74, 0x61, 0x72, 0x74] ++ [0] := rfl
  rw [hstart]
  exact findSymbolStart_returns hname h

end FileBuffer
end RiscvEmulator.System
