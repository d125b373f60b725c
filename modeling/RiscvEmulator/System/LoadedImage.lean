import RiscvEmulator.System.LoaderBounds

/-! # The loaded image

What `memory` and DDR hold after an ELF file is loaded into a fresh simulator. The
second pass writes whole words, so the last word of a segment also clears up to
three bytes behind it. -/
namespace RiscvEmulator.System
open Memory Lib.Fold

variable {n : Nat} {buffer : FileBuffer}

/-! ## Words of a segment -/

/-- One more byte of a word. -/
theorem load32_limit_succ (byte : Nat → Byte) (j : Nat) {k : Nat} (hk : k < 4) :
    load32 (fun x => if x < j + (k + 1) then byte x else 0) j =
      load32 (fun x => if x < j + k then byte x else 0) j |||
        (byte (j + k)).setWidth 32 <<< (k * 8) := by
  have hcases : k = 0 ∨ k = 1 ∨ k = 2 ∨ k = 3 := by omega
  have hnot : ∀ d, ¬ j + d < j := fun d => by omega
  rcases hcases with rfl | rfl | rfl | rfl <;> simp [load32, hnot]

/-- The bytes past the end count as 0. -/
theorem gatherWord_eq {readByte : Nat → Except LoadFault Byte} (byte : Nat → Byte) {size : Nat}
    (h : ∀ k < size, readByte k = .ok (byte k)) (j : Nat) :
    gatherWord readByte j size = .ok (load32 (fun k => if k < size then byte k else 0) j) := by
  have hnot : ∀ d, ¬ j + d < j := fun d => by omega
  have hstart : (0 : Word) = load32 (fun x => if x < j + 0 then byte x else 0) j := by
    simp [load32, hnot]
  have hbody : ∀ k < min 4 (size - j), ∀ word : Word,
      word = load32 (fun x => if x < j + k then byte x else 0) j →
      ∃ word', (do
          let b ← readByte (j + k)
          return word ||| b.setWidth 32 <<< (k * 8) : Except LoadFault Word) = .ok word' ∧
        word' = load32 (fun x => if x < j + (k + 1) then byte x else 0) j := by
    rintro k hk word rfl
    exact ⟨_, by rw [h (j + k) (by omega)]; rfl, (load32_limit_succ byte j (by omega)).symm⟩
  obtain ⟨word, hrun, hword⟩ := foldlM_range_ok hstart hbody
  rw [gatherWord, hrun, hword]
  refine congrArg _ (load32_congr fun k hk => ?_)
  by_cases hin : j + k < size
  · rw [if_pos (by omega), if_pos hin]
  · rw [if_neg (by omega), if_neg hin]

theorem writeWord_load32 (m : ByteMemory n) (addr : Word) (byte : Nat → Byte) (j x : Nat) :
    (m.writeWord addr (load32 byte j)).bytes x =
      if addr.toNat ≤ x ∧ x < addr.toNat + 4 ∧ addr.toNat + 4 ≤ n then
        byte (j + (x - addr.toNat))
      else m.bytes x := by
  unfold ByteMemory.writeWord
  by_cases hfit : addr.toNat + 4 ≤ n
  · rw [if_pos hfit]
    show store32 m.bytes addr.toNat (load32 byte j) x = _
    rw [store32_load32]
    simp only [hfit, and_true]
  · rw [if_neg hfit, if_neg fun h => hfit h.2.2]

namespace Phdr

def Contains (phdr : Phdr) (x : Nat) : Prop :=
  phdr.paddr.toNat ≤ x ∧ x < phdr.paddr.toNat + phdr.memsz.toNat

/-- The address lies in the part of the segment that is in the file. -/
def InFile (phdr : Phdr) (x : Nat) : Prop :=
  phdr.paddr.toNat ≤ x ∧ x < phdr.paddr.toNat + phdr.filesz.toNat

/-- What the segment has at an address. -/
def byteAt (buffer : FileBuffer) (phdr : Phdr) (x : Nat) : Byte :=
  if x < phdr.paddr.toNat + phdr.filesz.toNat then
    buffer.byte (phdr.offset.toNat + (x - phdr.paddr.toNat))
  else 0

/-- Where the word of the segment that has the byte at `x` begins. Words are counted
from the start of the segment. -/
def wordOf (phdr : Phdr) (x : Nat) : Nat :=
  phdr.paddr.toNat + (x - phdr.paddr.toNat) / 4 * 4

/-- The second pass writes a word over `x`, to a memory of `limit` bytes. -/
def Covers (phdr : Phdr) (limit x : Nat) : Prop :=
  phdr.paddr.toNat ≤ x ∧ phdr.wordOf x < phdr.paddr.toNat + phdr.filesz.toNat ∧
    phdr.wordOf x + 4 ≤ limit

/-- It writes the padding of the last word there. -/
def Pads (phdr : Phdr) (limit x : Nat) : Prop :=
  phdr.Covers limit x ∧ phdr.paddr.toNat + phdr.filesz.toNat ≤ x

instance (phdr : Phdr) (x : Nat) : Decidable (phdr.Contains x) :=
  inferInstanceAs (Decidable (_ ∧ _))

instance (phdr : Phdr) (x : Nat) : Decidable (phdr.InFile x) :=
  inferInstanceAs (Decidable (_ ∧ _))

instance (phdr : Phdr) (limit x : Nat) : Decidable (phdr.Covers limit x) :=
  inferInstanceAs (Decidable (_ ∧ _ ∧ _))

instance (phdr : Phdr) (limit x : Nat) : Decidable (phdr.Pads limit x) :=
  inferInstanceAs (Decidable (_ ∧ _))

end Phdr

namespace Image

/-- What the second pass does with the words of a segment before `j`. -/
structure StoredTo (phdr : Phdr) (j : Nat) (m m' : Image n) : Prop where
  memory : ∀ x, m'.memory.bytes x =
    if phdr.Pads n x ∧ x < phdr.paddr.toNat + j then 0 else m.memory.bytes x
  ddr : ∀ x, m'.ddr.bytes x =
    if phdr.Covers ddrSize x ∧ x < phdr.paddr.toNat + j then
      if x < phdr.paddr.toNat + phdr.filesz.toNat then m.memory.bytes x else 0
    else m.ddr.bytes x

/-- What it does with all of them. -/
structure Stored (phdr : Phdr) (m m' : Image n) : Prop where
  memory : ∀ x, m'.memory.bytes x = if phdr.Pads n x then 0 else m.memory.bytes x
  ddr : ∀ x, m'.ddr.bytes x =
    if phdr.Covers ddrSize x then
      if x < phdr.paddr.toNat + phdr.filesz.toNat then m.memory.bytes x else 0
    else m.ddr.bytes x

theorem storeWord_eq {phdr : Phdr} (hn : n < 2 ^ 32)
    (hin : phdr.paddr.toNat + phdr.filesz.toNat ≤ n) (m : Image n) (j : Word) :
    storeWord phdr m j = .ok (m.writeWord (phdr.paddr + j) (load32 (fun k =>
      if k < phdr.filesz.toNat then m.memory.bytes (phdr.paddr.toNat + k) else 0) j.toNat)) := by
  unfold storeWord
  rw [gatherWord_eq fun k => m.memory.bytes (phdr.paddr.toNat + k)]
  · rfl
  · intro k hk
    unfold memoryByte
    rw [toNat_byteAddr (by omega), if_pos (by omega)]

/-- A word of a segment, written to either memory. -/
theorem writeWord_segment {limit : Nat} (memory : ByteMemory limit) (byte : Nat → Byte)
    {phdr : Phdr} {j : Word} (haddr : (phdr.paddr + j).toNat = phdr.paddr.toNat + j.toNat)
    (hj : j < phdr.filesz) (hword : j.toNat % 4 = 0) (x : Nat) :
    (memory.writeWord (phdr.paddr + j) (load32 (fun k =>
      if k < phdr.filesz.toNat then byte (phdr.paddr.toNat + k) else 0) j.toNat)).bytes x =
      if phdr.Covers limit x ∧ phdr.paddr.toNat + j.toNat ≤ x ∧
          x < phdr.paddr.toNat + (j.toNat + 4) then
        if x < phdr.paddr.toNat + phdr.filesz.toNat then byte x else 0
      else memory.bytes x := by
  have hlt := BitVec.lt_def.mp hj
  rw [writeWord_load32, haddr]
  by_cases hx : phdr.paddr.toNat + j.toNat ≤ x ∧ x < phdr.paddr.toNat + (j.toNat + 4)
  · have hwordOf : phdr.wordOf x = phdr.paddr.toNat + j.toNat := by
      unfold Phdr.wordOf
      omega
    have hcov : phdr.Covers limit x ↔ phdr.paddr.toNat + j.toNat + 4 ≤ limit := by
      unfold Phdr.Covers
      rw [hwordOf]
      exact ⟨fun h => h.2.2, fun h => ⟨by omega, by omega, h⟩⟩
    by_cases hfit : phdr.paddr.toNat + j.toNat + 4 ≤ limit
    · have hwritten : phdr.paddr.toNat + j.toNat ≤ x ∧ x < phdr.paddr.toNat + j.toNat + 4 ∧
          phdr.paddr.toNat + j.toNat + 4 ≤ limit := ⟨hx.1, by omega, hfit⟩
      have hsame : j.toNat + (x - (phdr.paddr.toNat + j.toNat)) = x - phdr.paddr.toNat := by omega
      have hbyte : phdr.paddr.toNat + (x - phdr.paddr.toNat) = x := by omega
      have hto : phdr.Covers limit x ∧ phdr.paddr.toNat + j.toNat ≤ x ∧
          x < phdr.paddr.toNat + (j.toNat + 4) := ⟨hcov.mpr hfit, hx⟩
      rw [if_pos hwritten, if_pos hto, hsame, hbyte]
      have hfile : x - phdr.paddr.toNat < phdr.filesz.toNat ↔
          x < phdr.paddr.toNat + phdr.filesz.toNat := by omega
      simp only [hfile]
    · rw [if_neg fun h => hfit h.2.2, if_neg fun h => hfit (hcov.mp h.1)]
  · rw [if_neg fun h => hx ⟨h.1, by omega⟩, if_neg fun h => hx h.2]

theorem storeWord_stored {phdr : Phdr} (hn : n < 2 ^ 32)
    (hin : phdr.paddr.toNat + phdr.filesz.toNat ≤ n) {m t : Image n} {j : Word}
    (hj : j < phdr.filesz) (hword : j.toNat % 4 = 0) (h : StoredTo phdr j.toNat m t) :
    ∃ t', storeWord phdr t j = .ok t' ∧ StoredTo phdr (j.toNat + 4) m t' := by
  have hlt := BitVec.lt_def.mp hj
  have haddr : (phdr.paddr + j).toNat = phdr.paddr.toNat + j.toNat :=
    BitVec.toNat_add_of_lt (by omega)
  refine ⟨_, storeWord_eq hn hin t j, fun x => ?_, fun x => ?_⟩
  · refine (writeWord_segment t.memory t.memory.bytes haddr hj hword x).trans ?_
    rw [h.memory]
    unfold Phdr.Pads
    grind
  · refine (writeWord_segment t.ddr t.memory.bytes haddr hj hword x).trans ?_
    rw [h.memory, h.ddr]
    unfold Phdr.Pads
    grind

/-- The loop over the words: the invariant is what is stored before `j`. -/
theorem storeLoop_stored {phdr : Phdr} (hn : n < 2 ^ 32)
    (hin : phdr.paddr.toNat + phdr.filesz.toNat ≤ n) (hends : ¬ NeverEnds phdr) {m : Image n}
    {fuel : Nat} {j : Word} {t : Image n} (hword : j.toNat % 4 = 0)
    (hj : j.toNat < phdr.filesz.toNat + 4) (hfuel : phdr.filesz.toNat + 4 ≤ j.toNat + 4 * fuel)
    (h : StoredTo phdr j.toNat m t) :
    ∃ t', storeLoop phdr fuel j t = .ok t' ∧ Stored phdr m t' := by
  have hle : phdr.filesz.toNat ≤ 0xFFFFFFFC := BitVec.le_def.mp (BitVec.not_lt.mp hends)
  induction fuel generalizing j t with
  | zero => omega
  | succ fuel ih =>
    by_cases hturn : j < phdr.filesz
    · have hlt := BitVec.lt_def.mp hturn
      obtain ⟨t', ht', hstored⟩ := storeWord_stored hn hin hturn hword h
      have hnext : (j + 4).toNat = j.toNat + 4 := toNat_next (by omega)
      rw [storeLoop, if_pos hturn, ht']
      exact ih (by omega) (by omega) (by omega) (hnext ▸ hstored)
    · have hge : phdr.filesz.toNat ≤ j.toNat := BitVec.le_def.mp (BitVec.not_lt.mp hturn)
      -- every word that is covered begins before the end of the file part, so before `j`
      have hbefore : ∀ limit x, phdr.Covers limit x → x < phdr.paddr.toNat + j.toNat := by
        intro limit x hcov
        have hlt := hcov.2.1
        unfold Phdr.wordOf at hlt
        omega
      rw [storeLoop, if_neg hturn]
      refine ⟨t, rfl, fun x => ?_, fun x => ?_⟩
      · rw [h.memory]
        exact if_congr (and_iff_left_of_imp fun hpad => hbefore _ _ hpad.1) rfl rfl
      · rw [h.ddr]
        exact if_congr (and_iff_left_of_imp (hbefore _ _)) rfl rfl

theorem StoredTo.start (phdr : Phdr) (m : Image n) : StoredTo phdr 0 m m := by
  have hnot : ∀ limit x, ¬ (phdr.Covers limit x ∧ x < phdr.paddr.toNat + 0) := by
    intro limit x h
    have := h.1.1
    omega
  refine ⟨fun x => ?_, fun x => ?_⟩
  · rw [if_neg fun h => hnot _ _ ⟨h.1.1, h.2⟩]
  · rw [if_neg (hnot _ _)]

theorem storeSegment_stored {phdr : Phdr} (hn : n < 2 ^ 32)
    (hin : phdr.paddr.toNat + phdr.filesz.toNat ≤ n) (hends : ¬ NeverEnds phdr) (m : Image n) :
    ∃ m', storeSegment phdr m = .ok m' ∧ Stored phdr m m' := by
  have hlt := phdr.filesz.isLt
  have hzero : (0 : Word).toNat = 0 := rfl
  exact storeLoop_stored hn hin hends rfl (by omega) (by omega) (.start phdr m)

/-- A segment without bytes in the file covers nothing. -/
theorem Stored.refl {phdr : Phdr} (hsize : phdr.filesz = 0) (m : Image n) :
    Stored phdr m m := by
  have hnot : ∀ limit x, ¬ phdr.Covers limit x := by
    intro limit x h
    have hlt := h.2.1
    unfold Phdr.wordOf at hlt
    rw [hsize] at hlt
    have hzero : (0 : Word).toNat = 0 := rfl
    omega
  refine ⟨fun x => ?_, fun x => ?_⟩
  · rw [if_neg fun h => hnot _ _ h.1]
  · rw [if_neg (hnot _ _)]

end Image

/-! ## Well-formed files -/

namespace FileBuffer

def Loads (buffer : FileBuffer) (i : Nat) : Prop :=
  i < buffer.ehdr.phnum.toNat ∧ (buffer.phdr i).type = ptLoad

instance (i : Nat) : Decidable (buffer.Loads i) := inferInstanceAs (Decidable (_ ∧ _))

/-- An ELF32 file for a memory of `n` bytes. Its segments do not overlap. -/
structure WellFormed (n : Nat) (buffer : FileBuffer) : Prop where
  isElf : buffer.isElf = true
  header : ehdrSize ≤ buffer.length
  class32 : buffer.ehdr.identClass = 1
  /-- The program headers are in the file, at offsets that are 32 bits wide. -/
  table : ∀ i < buffer.ehdr.phnum.toNat,
    buffer.ehdr.phoff.toNat + i * buffer.ehdr.phentsize.toNat < 2 ^ 32 ∧
    buffer.ehdr.phoff.toNat + i * buffer.ehdr.phentsize.toNat + phdrSize ≤ buffer.length
  filesz_le : ∀ i, buffer.Loads i → (buffer.phdr i).filesz.toNat ≤ (buffer.phdr i).memsz.toNat
  inFile : ∀ i, buffer.Loads i → (buffer.phdr i).filesz ≠ 0 →
    (buffer.phdr i).offset.toNat + (buffer.phdr i).filesz.toNat ≤ buffer.length
  inMemory : ∀ i, buffer.Loads i →
    (buffer.phdr i).paddr.toNat + (buffer.phdr i).memsz.toNat ≤ n
  disjoint : ∀ i k x, buffer.Loads i → buffer.Loads k → (buffer.phdr i).Contains x →
    (buffer.phdr k).Contains x → i = k
  /-- The search for `_start` returns, as it does with well-formed symbols
  (`start_returns`) or without any. -/
  symbols : ∃ v, buffer.findSymbolStart buffer.ehdr startName = .ok v

namespace WellFormed
variable {i : Nat}

theorem phdrEnd_le (h : buffer.WellFormed n) (hi : i < buffer.ehdr.phnum.toNat) :
    buffer.phdrEnd i ≤ buffer.length := by
  obtain ⟨hlt, hle⟩ := h.table i hi
  have hoffset : (buffer.ehdr.phdrOffset i).toNat =
      buffer.ehdr.phoff.toNat + i * buffer.ehdr.phentsize.toNat := by
    have hi32 : i % 2 ^ 32 = i := Nat.mod_eq_of_lt (by have := buffer.ehdr.phnum.isLt; omega)
    have hsize : buffer.ehdr.phentsize.toNat % 2 ^ 32 = buffer.ehdr.phentsize.toNat :=
      Nat.mod_eq_of_lt (by have := buffer.ehdr.phentsize.isLt; omega)
    unfold Ehdr.phdrOffset
    rw [BitVec.toNat_add, BitVec.toNat_mul, BitVec.toNat_ofNat, BitVec.toNat_setWidth, hi32, hsize,
      Nat.add_mod_mod]
    exact Nat.mod_eq_of_lt hlt
  unfold phdrEnd
  rw [hoffset]
  exact hle

theorem file_in_memory (h : buffer.WellFormed n) (hi : buffer.Loads i) :
    (buffer.phdr i).paddr.toNat + (buffer.phdr i).filesz.toNat ≤ n := by
  have := h.filesz_le i hi
  have := h.inMemory i hi
  omega

theorem contains (h : buffer.WellFormed n) (hi : buffer.Loads i) {x : Nat}
    (hx : (buffer.phdr i).InFile x) : (buffer.phdr i).Contains x := by
  have := h.filesz_le i hi
  exact ⟨hx.1, by have := hx.2; omega⟩

end WellFormed
end FileBuffer

namespace Image

/-! ## The first pass -/

theorem copySegment_eq {phdr : Phdr} (memory : ByteMemory n)
    (hfile : phdr.filesz ≠ 0 → phdr.offset.toNat + phdr.filesz.toNat ≤ buffer.length)
    (hin : phdr.paddr.toNat + phdr.filesz.toNat ≤ n) :
    ∃ memory', copySegment buffer memory phdr = .ok memory' ∧ ∀ x, memory'.bytes x =
      if phdr.InFile x then phdr.byteAt buffer x else memory.bytes x := by
  unfold copySegment
  by_cases hsize : phdr.filesz = 0
  · rw [if_neg fun h => (BitVec.pos_iff_ne_zero _).mp h.1 hsize]
    refine ⟨memory, rfl, fun x => (if_neg fun hx => ?_).symm⟩
    have hlt := hx.2
    rw [hsize] at hlt
    exact absurd (hx.1.trans_lt hlt) (Nat.lt_irrefl _)
  · have hfit := hfile hsize
    have hsum : (phdr.offset + phdr.filesz).toNat ≤ buffer.length := by
      rw [BitVec.toNat_add]
      exact (Nat.mod_le ..).trans hfit
    rw [if_pos ⟨(BitVec.pos_iff_ne_zero _).mpr hsize, hsum⟩]
    unfold copyFromFile
    rw [if_pos hfit, if_pos hin]
    refine ⟨_, rfl, fun x => ?_⟩
    by_cases hx : phdr.InFile x
    · rw [if_pos hx]
      exact (if_pos hx).trans (if_pos hx.2).symm
    · rw [if_neg hx]
      exact if_neg hx

theorem fillSegment_eq {phdr : Phdr} (memory : ByteMemory n)
    (hle : phdr.filesz.toNat ≤ phdr.memsz.toNat)
    (hin : phdr.paddr.toNat + phdr.memsz.toNat ≤ n) :
    ∃ memory', fillSegment memory phdr = .ok memory' ∧ ∀ x, memory'.bytes x =
      if phdr.Contains x ∧ ¬ phdr.InFile x then 0 else memory.bytes x := by
  have hbss : ∀ x, phdr.Contains x ∧ ¬ phdr.InFile x ↔ phdr.paddr.toNat + phdr.filesz.toNat ≤ x ∧
      x < phdr.paddr.toNat + phdr.memsz.toNat := by
    intro x
    unfold Phdr.Contains Phdr.InFile
    omega
  unfold fillSegment
  split
  case isTrue hlt =>
    have hsize : (phdr.memsz - phdr.filesz).toNat = phdr.memsz.toNat - phdr.filesz.toNat :=
      BitVec.toNat_sub_of_le (BitVec.le_of_lt hlt)
    unfold zeroFill
    rw [hsize, if_pos (by omega)]
    refine ⟨_, rfl, fun x => ?_⟩
    refine if_congr ((hbss x).trans ?_).symm rfl rfl
    omega
  case isFalse hge =>
    have hge := BitVec.le_def.mp (BitVec.not_lt.mp hge)
    refine ⟨memory, rfl, fun x => (if_neg fun hx => ?_).symm⟩
    have := (hbss x).mp hx
    omega

/-- A segment that fits has its bytes in memory, and is counted. -/
theorem loadSegment_eq (hn : n < 2 ^ 32) {phdr : Phdr} (r : ByteMemory n × Word)
    (hle : phdr.filesz.toNat ≤ phdr.memsz.toNat)
    (hfile : phdr.filesz ≠ 0 → phdr.offset.toNat + phdr.filesz.toNat ≤ buffer.length)
    (hin : phdr.paddr.toNat + phdr.memsz.toNat ≤ n) :
    ∃ r', loadSegment buffer r phdr = .ok r' ∧
      (∀ x, r'.1.bytes x = if phdr.Contains x then phdr.byteAt buffer x else r.1.bytes x) ∧
      r.2.toNat ≤ r'.2.toNat ∧ phdr.paddr.toNat + phdr.memsz.toNat ≤ r'.2.toNat := by
  have hstop : (phdr.paddr + phdr.memsz).toNat = phdr.paddr.toNat + phdr.memsz.toNat :=
    BitVec.toNat_add_of_lt (by omega)
  obtain ⟨memory, hcopy, hcopied⟩ := copySegment_eq r.1 hfile (by omega)
  obtain ⟨memory', hfill, hfilled⟩ := fillSegment_eq memory hle hin
  refine ⟨(memory', if r.2 < phdr.paddr + phdr.memsz then phdr.paddr + phdr.memsz else r.2), ?_,
    fun x => ?_, ?_⟩
  · unfold loadSegment
    simp only
    rw [if_neg (by omega), hcopy]
    show (fillSegment memory phdr >>= _) = _
    rw [hfill]
    rfl
  · show memory'.bytes x = _
    rw [hfilled, hcopied]
    have hzero : ¬ phdr.InFile x → phdr.Contains x → phdr.byteAt buffer x = 0 := by
      intro hnot hx
      exact if_neg fun hlt => hnot ⟨hx.1, hlt⟩
    have hsub : phdr.InFile x → phdr.Contains x := fun hx => ⟨hx.1, by have := hx.2; omega⟩
    by_cases hx : phdr.Contains x
    · by_cases hf : phdr.InFile x
      · rw [if_neg fun h => h.2 hf, if_pos hf, if_pos hx]
      · rw [if_pos ⟨hx, hf⟩, if_pos hx, hzero hf hx]
    · rw [if_neg fun h => hx h.1, if_neg fun hf => hx (hsub hf), if_neg hx]
  · show r.2.toNat ≤ (if _ then _ else _ : Word).toNat ∧ _ ≤ (if _ then _ else _ : Word).toNat
    by_cases hlt : r.2 < phdr.paddr + phdr.memsz
    · have := BitVec.lt_def.mp hlt
      rw [if_pos hlt]
      omega
    · have := BitVec.le_def.mp (BitVec.not_lt.mp hlt)
      rw [if_neg hlt]
      omega

/-- What the first pass has done before header `k`. -/
structure LoadedTo (buffer : FileBuffer) (memory : ByteMemory n) (k : Nat)
    (r : ByteMemory n × Word) : Prop where
  segments : ∀ i < k, buffer.Loads i → ∀ x, (buffer.phdr i).Contains x →
    r.1.bytes x = (buffer.phdr i).byteAt buffer x
  others : ∀ x, (∀ i < k, buffer.Loads i → ¬ (buffer.phdr i).Contains x) →
    r.1.bytes x = memory.bytes x
  max : ∀ i < k, buffer.Loads i →
    (buffer.phdr i).paddr.toNat + (buffer.phdr i).memsz.toNat ≤ r.2.toNat

theorem loadHeader_loaded (hn : n < 2 ^ 32) (hw : buffer.WellFormed n) {memory : ByteMemory n}
    {k : Nat} (hk : k < buffer.ehdr.phnum.toNat) {r : ByteMemory n × Word}
    (h : LoadedTo buffer memory k r) :
    ∃ r', loadHeader buffer buffer.ehdr r k = .ok r' ∧ LoadedTo buffer memory (k + 1) r' := by
  have hend := hw.phdrEnd_le hk
  rw [loadHeader_eq, if_neg (by omega)]
  by_cases htype : (buffer.phdr k).type = ptLoad
  · have hloads : buffer.Loads k := ⟨hk, htype⟩
    obtain ⟨r', hrun, hbytes, hmax, hcount⟩ :=
      loadSegment_eq hn r (hw.filesz_le k hloads) (hw.inFile k hloads) (hw.inMemory k hloads)
    rw [if_pos htype]
    refine ⟨r', hrun, fun i hi hl x hx => ?_, fun x hx => ?_, fun i hi hl => ?_⟩
    · rw [hbytes]
      rcases Nat.lt_succ_iff_lt_or_eq.mp hi with hlt | rfl
      · rw [if_neg fun hxk => absurd (hw.disjoint i k x hl hloads hx hxk) (by omega)]
        exact h.segments i hlt hl x hx
      · rw [if_pos hx]
    · rw [hbytes, if_neg (hx k (by omega) hloads)]
      exact h.others x fun i hi => hx i (by omega)
    · rcases Nat.lt_succ_iff_lt_or_eq.mp hi with hlt | rfl
      · exact (h.max i hlt hl).trans hmax
      · exact hcount
  · rw [if_neg htype]
    have hbefore : ∀ i < k + 1, buffer.Loads i → i < k := by
      intro i hi hl
      rcases Nat.lt_succ_iff_lt_or_eq.mp hi with hlt | rfl
      · exact hlt
      · exact absurd hl.2 htype
    exact ⟨r, rfl, fun i hi hl => h.segments i (hbefore i hi hl) hl,
      fun x hx => h.others x fun i hi => hx i (by omega),
      fun i hi hl => h.max i (hbefore i hi hl) hl⟩

theorem loadSegments_loaded (hn : n < 2 ^ 32) (hw : buffer.WellFormed n)
    (memory : ByteMemory n) : ∃ r, loadSegments buffer buffer.ehdr memory = .ok r ∧
      LoadedTo buffer memory buffer.ehdr.phnum.toNat r := by
  have hstart : LoadedTo buffer memory 0 (memory, 0) :=
    ⟨fun i hi => absurd hi (by omega), fun _ _ => rfl, fun i hi => absurd hi (by omega)⟩
  exact foldlM_range_ok hstart fun k hk _ h => loadHeader_loaded hn hw hk h

/-! ## The second pass -/

/-- Before header `k`, DDR has the byte the file has at `x` for segment `i`. -/
def ReachesDdr (n : Nat) (buffer : FileBuffer) (k i x : Nat) : Prop :=
  i < k ∧ (buffer.phdr i).Covers ddrSize x ∧
    (∀ l < i, buffer.Loads l → ¬ (buffer.phdr l).Pads n x) ∧
    ∀ l < k, i < l → buffer.Loads l → ¬ (buffer.phdr l).Pads ddrSize x

/-- What the second pass has done before header `k`, from an empty DDR on. -/
structure StoredUpTo (buffer : FileBuffer) (m : Image n) (k : Nat) (t : Image n) : Prop where
  kept : ∀ x, (∀ l < k, buffer.Loads l → ¬ (buffer.phdr l).Pads n x) →
    t.memory.bytes x = m.memory.bytes x
  padded : ∀ l < k, buffer.Loads l → ∀ x, (buffer.phdr l).Pads n x → t.memory.bytes x = 0
  reached : ∀ i x, buffer.Loads i → (buffer.phdr i).InFile x → ReachesDdr n buffer k i x →
    t.ddr.bytes x = m.memory.bytes x
  missed : ∀ i x, buffer.Loads i → (buffer.phdr i).InFile x → ¬ ReachesDdr n buffer k i x →
    t.ddr.bytes x = 0
  others : ∀ x, (∀ i, buffer.Loads i → ¬ (buffer.phdr i).InFile x) → t.ddr.bytes x = 0

/-- Nothing changes at a header that is not loaded. -/
theorem StoredUpTo.skip {m t : Image n} {k : Nat} (h : StoredUpTo buffer m k t)
    (hk : ¬ buffer.Loads k) : StoredUpTo buffer m (k + 1) t := by
  have hbefore : ∀ l < k + 1, buffer.Loads l → l < k := by
    intro l hl hload
    rcases Nat.lt_succ_iff_lt_or_eq.mp hl with hlt | rfl
    · exact hlt
    · exact absurd hload hk
  have hreach : ∀ i x, buffer.Loads i →
      (ReachesDdr n buffer (k + 1) i x ↔ ReachesDdr n buffer k i x) := by
    intro i x hi
    unfold ReachesDdr
    constructor
    · rintro ⟨hik, hcov, hpads, hlater⟩
      exact ⟨hbefore i hik hi, hcov, hpads, fun l hl => hlater l (by omega)⟩
    · rintro ⟨hik, hcov, hpads, hlater⟩
      exact ⟨by omega, hcov, hpads, fun l hl hil hload => hlater l (hbefore l hl hload) hil hload⟩
  exact {
    kept := fun x hx => h.kept x fun l hl => hx l (by omega)
    padded := fun l hl hload => h.padded l (hbefore l hl hload) hload
    reached := fun i x hi hx hr => h.reached i x hi hx ((hreach i x hi).mp hr)
    missed := fun i x hi hx hr => h.missed i x hi hx (mt (hreach i x hi).mpr hr)
    others := h.others }

/-- Segment `k` is stored. Its words end at its own last byte, or in the padding. -/
theorem StoredUpTo.store {m t t' : Image n} {k : Nat} (hw : buffer.WellFormed n)
    (h : StoredUpTo buffer m k t) (hk : buffer.Loads k) (hs : Stored (buffer.phdr k) t t') :
    StoredUpTo buffer m (k + 1) t' := by
  have hcovered : ∀ limit x, (buffer.phdr k).Covers limit x → ¬ (buffer.phdr k).InFile x →
      (buffer.phdr k).Pads limit x := by
    intro limit x hcov hnot
    exact ⟨hcov, Nat.le_of_not_lt fun hlt => hnot ⟨hcov.1, hlt⟩⟩
  have hother : ∀ i x, buffer.Loads i → (buffer.phdr i).InFile x → i ≠ k →
      ¬ (buffer.phdr k).InFile x := by
    intro i x hi hx hne hxk
    exact hne (hw.disjoint i k x hi hk (hw.contains hi hx) (hw.contains hk hxk))
  -- a byte of another segment is cleared in DDR if it is padding of this one
  have hddr : ∀ x, ¬ (buffer.phdr k).InFile x → t'.ddr.bytes x =
      if (buffer.phdr k).Pads ddrSize x then 0 else t.ddr.bytes x := by
    intro x hx
    rw [hs.ddr]
    by_cases hcov : (buffer.phdr k).Covers ddrSize x
    · have hpad := hcovered _ _ hcov hx
      rw [if_pos hcov, if_pos hpad, if_neg (Nat.not_lt.mpr hpad.2)]
    · rw [if_neg hcov, if_neg fun hpad => hcov hpad.1]
  have hself : ∀ x, (buffer.phdr k).InFile x → t'.ddr.bytes x =
      if (buffer.phdr k).Covers ddrSize x then t.memory.bytes x else t.ddr.bytes x := by
    intro x hx
    rw [hs.ddr, if_pos hx.2]
  refine ⟨fun x hx => ?_, fun l hl hload x hpad => ?_, fun i x hi hx hr => ?_,
    fun i x hi hx hr => ?_, fun x hx => ?_⟩
  · rw [hs.memory, if_neg (hx k (by omega) hk)]
    exact h.kept x fun l hl => hx l (by omega)
  · rw [hs.memory]
    rcases Nat.lt_succ_iff_lt_or_eq.mp hl with hlt | rfl
    · rw [h.padded l hlt hload x hpad]
      exact ite_self _
    · rw [if_pos hpad]
  · obtain ⟨hik, hcov, hpads, hlater⟩ := hr
    by_cases hne : i = k
    · subst hne
      rw [hself x hx, if_pos hcov]
      exact h.kept x hpads
    · rw [hddr x (hother i x hi hx hne), if_neg (hlater k (by omega) (by omega) hk)]
      exact h.reached i x hi hx ⟨by omega, hcov, hpads, fun l hl => hlater l (by omega)⟩
  · by_cases hne : i = k
    · subst hne
      have hnot : ¬ ReachesDdr n buffer i i x := fun h => absurd h.1 (Nat.lt_irrefl _)
      rw [hself x hx, h.missed i x hi hx hnot]
      by_cases hcov : (buffer.phdr i).Covers ddrSize x
      · -- the byte was padding of an earlier segment, or it would have been reached
        have hpad : ∃ l < i, buffer.Loads l ∧ (buffer.phdr l).Pads n x := by
          by_contra hnone
          exact hr ⟨by omega, hcov, fun l hl hload hpad => hnone ⟨l, hl, hload, hpad⟩,
            fun l hl hil => absurd hl (by omega)⟩
        obtain ⟨l, hl, hload, hpad⟩ := hpad
        rw [if_pos hcov, h.padded l hl hload x hpad]
      · rw [if_neg hcov]
    · rw [hddr x (hother i x hi hx hne)]
      by_cases hpad : (buffer.phdr k).Pads ddrSize x
      · rw [if_pos hpad]
      · rw [if_neg hpad]
        refine h.missed i x hi hx fun hreach => hr ?_
        obtain ⟨hik, hcov, hpads, hlater⟩ := hreach
        refine ⟨by omega, hcov, hpads, fun l hl hil hload => ?_⟩
        rcases Nat.lt_succ_iff_lt_or_eq.mp hl with hlt | rfl
        · exact hlater l hlt hil hload
        · exact hpad
  · rw [hddr x (hx k hk), h.others x hx]
    exact ite_self _

theorem storeHeader_stored (hn : n < 2 ^ 32) (hw : buffer.WellFormed n)
    (hends : ∀ i, buffer.Loads i → ¬ NeverEnds (buffer.phdr i)) {m t : Image n} {k : Nat}
    (hk : k < buffer.ehdr.phnum.toNat) (h : StoredUpTo buffer m k t) :
    ∃ t', storeHeader buffer buffer.ehdr t k = .ok t' ∧ StoredUpTo buffer m (k + 1) t' := by
  have hend := hw.phdrEnd_le hk
  rw [storeHeader_eq, if_neg (by omega)]
  by_cases htype : (buffer.phdr k).type = ptLoad
  · have hloads : buffer.Loads k := ⟨hk, htype⟩
    by_cases hsize : (buffer.phdr k).filesz = 0
    · rw [if_pos (.inr hsize)]
      exact ⟨t, rfl, h.store hw hloads (.refl hsize t)⟩
    · rw [if_neg (by rintro (hother | hzero) <;> contradiction)]
      obtain ⟨t', hrun, hs⟩ :=
        storeSegment_stored hn (hw.file_in_memory hloads) (hends k hloads) t
      exact ⟨t', hrun, h.store hw hloads hs⟩
  · rw [if_pos (.inl htype)]
    exact ⟨t, rfl, h.skip fun hload => htype hload.2⟩

theorem storeSegments_stored (hn : n < 2 ^ 32) (hw : buffer.WellFormed n)
    (hends : ∀ i, buffer.Loads i → ¬ NeverEnds (buffer.phdr i)) {m : Image n}
    (hempty : ∀ x, m.ddr.bytes x = 0) : ∃ t, storeSegments buffer buffer.ehdr m = .ok t ∧
      StoredUpTo buffer m buffer.ehdr.phnum.toNat t := by
  have hstart : StoredUpTo buffer m 0 m :=
    ⟨fun _ _ => rfl, fun l hl => absurd hl (by omega),
      fun i x _ _ hr => absurd hr.1 (Nat.not_lt_zero _), fun _ x _ _ _ => hempty x,
      fun x _ => hempty x⟩
  exact foldlM_range_ok hstart fun k hk _ h => storeHeader_stored hn hw hends hk h

end Image

namespace Simulator
variable {N : Nat}

/-! ## Whole loads -/

/-- What the first pass counts as loaded is not cleared. -/
theorem finishLoad_eq (s : Simulator N n) (entryPoint maxLoadedAddr : Word) (hbss : bssEnd ≤ n) :
    ∃ s', s.finishLoad entryPoint maxLoadedAddr = .ok (true, s') ∧ s'.ddr = s.ddr ∧
      ∀ x, s'.memory.bytes x =
        if maxLoadedAddr.toNat ≤ x ∧ x < bssEnd then 0 else s.memory.bytes x := by
  have hset : (s.invalidateCaches.setEntryPoint entryPoint).memory = s.memory ∧
      (s.invalidateCaches.setEntryPoint entryPoint).ddr = s.ddr := by
    unfold setEntryPoint
    split <;> exact ⟨rfl, rfl⟩
  unfold finishLoad
  simp only
  split
  case isTrue hlt =>
    unfold zeroFill
    rw [if_pos (by omega), hset.1]
    refine ⟨_, rfl, hset.2, fun x => if_congr ?_ rfl rfl⟩
    omega
  case isFalse hge =>
    refine ⟨_, rfl, hset.2, fun x => ?_⟩
    rw [hset.1, if_neg (by omega)]

theorem init_memory_zero (N : Nat) (ddr : DDRMemory) {x : Nat}
    (hx : MultiCoreMonitor.LeavesAlone N x) : (init N n ddr).memory.bytes x = 0 :=
  MultiCoreMonitor.writeStateToMemory_outside _ _ hx

/-- The monitor keeps its state above the end of the BSS. -/
theorem leavesAlone_of_lt (N : Nat) {x : Nat} (hx : x < bssEnd) :
    MultiCoreMonitor.LeavesAlone N x := by
  unfold bssEnd at hx
  refine ⟨.inl hx, .inl ?_⟩
  unfold MultiCoreMonitor.initPhaseAddr
  omega

/-- What is in `memory` and DDR after the load of a well-formed file. -/
structure ElfHolds (buffer : FileBuffer) (s : Simulator N n) : Prop where
  kept : ∀ i x, buffer.Loads i → (buffer.phdr i).Contains x →
    (∀ l, buffer.Loads l → ¬ (buffer.phdr l).Pads n x) →
    s.memory.bytes x = (buffer.phdr i).byteAt buffer x
  padded : ∀ i x, buffer.Loads i → (buffer.phdr i).Contains x →
    ∀ l, buffer.Loads l → (buffer.phdr l).Pads n x → s.memory.bytes x = 0
  cleared : ∀ x, MultiCoreMonitor.LeavesAlone N x →
    (∀ i, buffer.Loads i → ¬ (buffer.phdr i).Contains x) → s.memory.bytes x = 0
  reached : ∀ i x, buffer.Loads i → (buffer.phdr i).InFile x →
    Image.ReachesDdr n buffer buffer.ehdr.phnum.toNat i x →
    s.ddr.bytes x = (buffer.phdr i).byteAt buffer x
  missed : ∀ i x, buffer.Loads i → (buffer.phdr i).InFile x →
    ¬ Image.ReachesDdr n buffer buffer.ehdr.phnum.toNat i x → s.ddr.bytes x = 0
  others : ∀ x, (∀ i, buffer.Loads i → ¬ (buffer.phdr i).InFile x) → s.ddr.bytes x = 0

theorem loadProgram_holds (hn : n < 2 ^ 32) (hbss : bssEnd ≤ n) (hw : buffer.WellFormed n)
    (hends : ∀ i, buffer.Loads i → ¬ Image.NeverEnds (buffer.phdr i)) :
    ∃ s' : Simulator N n, (init N n ⟨fun _ => 0⟩).loadProgram buffer = .ok (true, s') ∧
      ElfHolds buffer s' := by
  obtain ⟨r, hload, hloaded⟩ :=
    Image.loadSegments_loaded hn hw (init N n ⟨fun _ => 0⟩).memory
  obtain ⟨t, hstore, hstored⟩ := Image.storeSegments_stored hn hw hends
    (m := ⟨r.1, (init N n ⟨fun _ => 0⟩).ddr⟩) fun _ => rfl
  obtain ⟨v, hsymbol⟩ := hw.symbols
  obtain ⟨s', hfinish, hddr, hmemory⟩ := ((init N n ⟨fun _ => 0⟩).withImage t).finishLoad_eq
    (if v ≠ 0 then v else buffer.ehdr.entry) r.2 hbss
  have hrun : (init N n ⟨fun _ => 0⟩).loadProgram buffer = .ok (true, s') := by
    have hsize := hw.header
    unfold loadProgram loadElf storeElf
    rw [if_pos hw.isElf, if_neg (by omega), if_neg (not_not.mpr hw.class32), hload]
    show ((buffer.findSymbolStart _ _).mapError _ >>= _) = _
    rw [hsymbol]
    show (Image.storeSegments _ _ _ >>= _) = _
    rw [hstore]
    exact hfinish
  -- the bytes of the segments are below what is cleared
  have hbyte : ∀ i x, buffer.Loads i → (buffer.phdr i).Contains x →
      s'.memory.bytes x = t.memory.bytes x := by
    intro i x hi hx
    have := hloaded.max i hi.1 hi
    have := hx.2
    rw [hmemory, if_neg (by omega)]
    rfl
  refine ⟨s', hrun, ?_⟩
  exact {
    kept := fun i x hi hx hpads => by
      rw [hbyte i x hi hx, hstored.kept x fun l _ hload => hpads l hload]
      exact hloaded.segments i hi.1 hi x hx
    padded := fun i x hi hx l hl hpad => by
      rw [hbyte i x hi hx]
      exact hstored.padded l hl.1 hl x hpad
    cleared := fun x hx hnone => by
      rw [hmemory]
      split
      · rfl
      · show t.memory.bytes x = 0
        by_cases hpad : ∃ l, buffer.Loads l ∧ (buffer.phdr l).Pads n x
        · obtain ⟨l, hl, hpad⟩ := hpad
          exact hstored.padded l hl.1 hl x hpad
        · rw [hstored.kept x fun l _ hl h => hpad ⟨l, hl, h⟩]
          exact (hloaded.others x fun i _ hi => hnone i hi).trans (init_memory_zero N _ hx)
    reached := fun i x hi hx hr => by
      rw [hddr]
      exact (hstored.reached i x hi hx hr).trans
        (hloaded.segments i hi.1 hi x (hw.contains hi hx))
    missed := fun i x hi hx hr => by
      rw [hddr]
      exact hstored.missed i x hi hx hr
    others := fun x hx => by
      rw [hddr]
      exact hstored.others x hx }

/-- A load that comes to its end has come past every segment. -/
theorem loadProgram_ends (hn : n < 2 ^ 32) (hw : buffer.WellFormed n) {s : Simulator N n}
    {r : Bool × Simulator N n} (hrun : s.loadProgram buffer = .ok r) {i : Nat}
    (hi : buffer.Loads i) : ¬ Image.NeverEnds (buffer.phdr i) := by
  have hsize := hw.header
  unfold loadProgram loadElf at hrun
  rw [if_pos hw.isElf, if_neg (by omega), if_neg (not_not.mpr hw.class32)] at hrun
  obtain ⟨_, _, hrun⟩ := bind_eq_ok hrun
  obtain ⟨_, _, hrun⟩ := bind_eq_ok hrun
  obtain ⟨t, hstore, _⟩ := bind_eq_ok hrun
  have hnone := (errorOf_foldlM (Image.errorOf_storeHeader buffer hn) _ _).symm.trans
    (errorOf_eq_none_iff.mpr ⟨t, hstore⟩)
  have hi' := List.findSome?_eq_none_iff.mp hnone i (List.mem_range.mpr hi.1)
  intro hnever
  rcases Image.storeFault_cases n buffer i with h | h | ⟨_, h, _⟩
  · exact h.2.2 ⟨hi.2, hnever⟩
  · rw [hi'] at h
    cases h.1
  · rw [hi'] at h
    cases h

/-- The image as it should be. -/
structure ElfLoaded (buffer : FileBuffer) (s : Simulator N n) : Prop where
  /-- Every byte of every segment is in `memory`. -/
  memory : ∀ i x, buffer.Loads i → (buffer.phdr i).Contains x →
    s.memory.bytes x = (buffer.phdr i).byteAt buffer x
  /-- DDR and `memory` are alike on every segment and below the end of the BSS. -/
  ddr : ∀ x, x < bssEnd ∨ (∃ i, buffer.Loads i ∧ (buffer.phdr i).Contains x) →
    s.ddr.readByte (BitVec.ofNat 32 x) = s.memory.bytes x

/-- The second pass ends, and every byte of a segment that is not 0 comes through it:
no other segment pads its last word over it, and it reaches DDR. -/
structure Survives (n : Nat) (buffer : FileBuffer) : Prop where
  ends : ∀ i, buffer.Loads i → ¬ Image.NeverEnds (buffer.phdr i)
  memory : ∀ i x, buffer.Loads i → (buffer.phdr i).InFile x → (buffer.phdr i).byteAt buffer x ≠ 0 →
    ∀ l, buffer.Loads l → ¬ (buffer.phdr l).Pads n x
  ddr : ∀ i x, buffer.Loads i → (buffer.phdr i).InFile x → (buffer.phdr i).byteAt buffer x ≠ 0 →
    (buffer.phdr i).Covers ddrSize x ∧
      ∀ l, i < l → buffer.Loads l → ¬ (buffer.phdr l).Pads ddrSize x

theorem ddr_readByte (s : Simulator N n) {x : Nat} (hx : x < 2 ^ 32) :
    s.ddr.readByte (BitVec.ofNat 32 x) = if x < ddrSize then s.ddr.bytes x else 0 := by
  unfold ByteMemory.readByte
  rw [BitVec.toNat_ofNat, Nat.mod_eq_of_lt hx]

theorem byteAt_eq_zero {phdr : Phdr} {x : Nat} (hx : phdr.Contains x) (hnot : ¬ phdr.InFile x) :
    phdr.byteAt buffer x = 0 :=
  if_neg fun hlt => hnot ⟨hx.1, hlt⟩

/-- Where DDR misses a byte, it holds 0. -/
theorem ElfHolds.ddr_zero {s : Simulator N n} (h : ElfHolds buffer s) {x : Nat}
    (hx : ∀ i, buffer.Loads i → (buffer.phdr i).InFile x → (buffer.phdr i).byteAt buffer x = 0) :
    s.ddr.bytes x = 0 := by
  by_cases hfile : ∃ i, buffer.Loads i ∧ (buffer.phdr i).InFile x
  · obtain ⟨i, hi, hin⟩ := hfile
    by_cases hr : Image.ReachesDdr n buffer buffer.ehdr.phnum.toNat i x
    · exact (h.reached i x hi hin hr).trans (hx i hi hin)
    · exact h.missed i x hi hin hr
  · exact h.others x fun i hi hin => hfile ⟨i, hi, hin⟩

/-- A byte of a segment that is 0 stays 0. -/
theorem ElfHolds.memory_zero {s : Simulator N n} (h : ElfHolds buffer s) {i x : Nat}
    (hi : buffer.Loads i) (hx : (buffer.phdr i).Contains x)
    (hzero : (buffer.phdr i).byteAt buffer x = 0) : s.memory.bytes x = 0 := by
  by_cases hpad : ∃ l, buffer.Loads l ∧ (buffer.phdr l).Pads n x
  · obtain ⟨l, hl, hpad⟩ := hpad
    exact h.padded i x hi hx l hl hpad
  · exact (h.kept i x hi hx fun l hl hp => hpad ⟨l, hl, hp⟩).trans hzero

theorem loaded_of_survives (hw : buffer.WellFormed n) (hn : n < 2 ^ 32) (hbss : bssEnd ≤ n)
    {s : Simulator N n} (h : ElfHolds buffer s) (hs : Survives n buffer) : ElfLoaded buffer s := by
  have hmemory : ∀ i x, buffer.Loads i → (buffer.phdr i).Contains x →
      s.memory.bytes x = (buffer.phdr i).byteAt buffer x := by
    intro i x hi hx
    by_cases hzero : (buffer.phdr i).byteAt buffer x = 0
    · rw [h.memory_zero hi hx hzero, hzero]
    · have hin : (buffer.phdr i).InFile x := by
        by_contra hnot
        exact hzero (byteAt_eq_zero hx hnot)
      exact h.kept i x hi hx (hs.memory i x hi hin hzero)
  refine ⟨hmemory, fun x hx => ?_⟩
  by_cases hin : ∃ i, buffer.Loads i ∧ (buffer.phdr i).Contains x
  · obtain ⟨i, hi, hcontains⟩ := hin
    have hfits := hw.inMemory i hi
    have hend := hcontains.2
    rw [ddr_readByte s (by omega), hmemory i x hi hcontains]
    by_cases hzero : (buffer.phdr i).byteAt buffer x = 0
    · have hddr : s.ddr.bytes x = 0 := by
        refine h.ddr_zero fun k hk hfile => ?_
        rw [hw.disjoint k i x hk hi (hw.contains hk hfile) hcontains]
        exact hzero
      rw [hddr, hzero]
      exact ite_self _
    · have hfile : (buffer.phdr i).InFile x := by
        by_contra hnot
        exact hzero (byteAt_eq_zero hcontains hnot)
      obtain ⟨hcov, hlater⟩ := hs.ddr i x hi hfile hzero
      have hlt : x < ddrSize := by
        have hword := hcov.2.2
        have hlo := hcov.1
        unfold Phdr.wordOf at hword
        omega
      rw [if_pos hlt]
      exact h.reached i x hi hfile ⟨hi.1, hcov, fun l _ hl => hs.memory i x hi hfile hzero l hl,
        fun l _ hil hl => hlater l hil hl⟩
  · have hlow := hx.resolve_right hin
    have hnone : ∀ i, buffer.Loads i → ¬ (buffer.phdr i).Contains x := fun i hi hc =>
      hin ⟨i, hi, hc⟩
    have hddr : s.ddr.bytes x = 0 := h.others x fun i hi hf => hnone i hi (hw.contains hi hf)
    rw [ddr_readByte s (by omega), hddr, h.cleared x (leavesAlone_of_lt N hlow) hnone]
    exact ite_self _

theorem survives_of_loaded (hw : buffer.WellFormed n) (hn : n < 2 ^ 32)
    (hends : ∀ i, buffer.Loads i → ¬ Image.NeverEnds (buffer.phdr i))
    {s : Simulator N n} (h : ElfHolds buffer s) (hl : ElfLoaded buffer s) : Survives n buffer := by
  refine ⟨hends, fun i x hi hx hbyte l hload hpad => ?_, fun i x hi hx hbyte => ?_⟩
  · have hbytes := hl.memory i x hi (hw.contains hi hx)
    rw [h.padded i x hi (hw.contains hi hx) l hload hpad] at hbytes
    exact hbyte hbytes.symm
  · have hcontains := hw.contains hi hx
    have hfits := hw.inMemory i hi
    have hend := hcontains.2
    have halike := hl.ddr x (.inr ⟨i, hi, hcontains⟩)
    rw [ddr_readByte s (by omega), hl.memory i x hi hcontains] at halike
    have hreach : Image.ReachesDdr n buffer buffer.ehdr.phnum.toNat i x := by
      by_contra hnot
      rw [h.missed i x hi hx hnot, ite_self] at halike
      exact hbyte halike.symm
    exact ⟨hreach.2.1, fun l hil hload => hreach.2.2.2 l hload.1 hil hload⟩

/-- Every byte of every segment is in `memory` and DDR agrees with it, after a load into
a fresh simulator, exactly if the segments survive each other's last words. -/
theorem loaded_image_iff (hn : n < 2 ^ 32) (hbss : bssEnd ≤ n) (hw : buffer.WellFormed n) :
    (∃ s' : Simulator N n, (init N n ⟨fun _ => 0⟩).loadProgram buffer = .ok (true, s') ∧
      ElfLoaded buffer s') ↔ Survives n buffer := by
  constructor
  · rintro ⟨s', hrun, hl⟩
    have hends := fun i (hi : buffer.Loads i) => loadProgram_ends hn hw hrun hi
    obtain ⟨s'', hrun', h⟩ := loadProgram_holds (N := N) hn hbss hw hends
    rw [hrun] at hrun'
    cases hrun'
    exact survives_of_loaded hw hn hends h hl
  · intro hs
    obtain ⟨s', hrun, h⟩ := loadProgram_holds (N := N) hn hbss hw hs.ends
    exact ⟨s', hrun, loaded_of_survives hw hn hbss h hs⟩

/-! ## Word-aligned segments -/

/-- Segments that begin at words and lie in DDR survive: no two of them share a word. -/
theorem survives_of_aligned (hw : buffer.WellFormed n)
    (haligned : ∀ i, buffer.Loads i → (buffer.phdr i).paddr.toNat % 4 = 0)
    (hddr : ∀ i, buffer.Loads i →
      (buffer.phdr i).paddr.toNat + (buffer.phdr i).memsz.toNat ≤ ddrSize) :
    Survives n buffer := by
  have hpads : ∀ limit i x l, buffer.Loads i → (buffer.phdr i).InFile x → buffer.Loads l →
      ¬ (buffer.phdr l).Pads limit x := by
    intro limit i x l hi hx hl hpad
    have hlo := hpad.1.1
    have hword := hpad.1.2.1
    have hpast := hpad.2
    have hstart := haligned l hl
    have hstart' := haligned i hi
    have hend := hx.2
    have hbegin := hx.1
    unfold Phdr.wordOf at hword
    -- both segments have the first byte of the word
    have hsame : i = l := hw.disjoint i l (x / 4 * 4) hi hl
      (hw.contains hi ⟨by omega, by omega⟩) (hw.contains hl ⟨by omega, by omega⟩)
    subst hsame
    omega
  refine ⟨fun i hi hnever => ?_, fun i x hi hx _ l hl => hpads n i x l hi hx hl,
    fun i x hi hx _ => ⟨⟨hx.1, ?_⟩, fun l _ hl => hpads ddrSize i x l hi hx hl⟩⟩
  · have hgt : 0xFFFFFFFC < (buffer.phdr i).filesz.toNat := BitVec.lt_def.mp hnever
    have := hw.filesz_le i hi
    have := hddr i hi
    unfold ddrSize at this
    omega
  · have hstart := haligned i hi
    have hle := hw.filesz_le i hi
    have hfits := hddr i hi
    have hend := hx.2
    have hbegin := hx.1
    unfold Phdr.wordOf ddrSize at *
    omega

/-- Two segments side by side that begin at no word: the words of the first are full, and
the last word of the second is padded in its own BSS. -/
def adjacentElf : FileBuffer :=
  elfFile 1 [{ type := ptLoad, offset := 116, paddr := 1, filesz := 4, memsz := 4 },
    { type := ptLoad, offset := 120, paddr := 5, filesz := 3, memsz := 8 }]
    (fileBytes 4 0x00000073 ++ [0x93, 0x02, 0x10])

theorem adjacentElf_phdr {i : Nat} (hi : adjacentElf.Loads i) :
    (i = 0 ∧ (adjacentElf.phdr i).paddr.toNat = 1 ∧ (adjacentElf.phdr i).filesz.toNat = 4 ∧
      (adjacentElf.phdr i).memsz.toNat = 4) ∨
    (i = 1 ∧ (adjacentElf.phdr i).paddr.toNat = 5 ∧ (adjacentElf.phdr i).filesz.toNat = 3 ∧
      (adjacentElf.phdr i).memsz.toNat = 8) := by
  have hlt : i < 2 := hi.1
  have hcases : i = 0 ∨ i = 1 := by omega
  rcases hcases with rfl | rfl
  · exact .inl (by decide +kernel)
  · exact .inr (by decide +kernel)

theorem adjacentElf_wellFormed : adjacentElf.WellFormed 0x200000 where
  isElf := by decide +kernel
  header := by decide +kernel
  class32 := by decide +kernel
  table := by decide +kernel
  filesz_le i hi := by
    have := adjacentElf_phdr hi
    omega
  inFile i hi _ := by
    have hcases : ∀ i < 2, (adjacentElf.phdr i).offset.toNat +
        (adjacentElf.phdr i).filesz.toNat ≤ adjacentElf.length := by decide +kernel
    exact hcases i hi.1
  inMemory i hi := by
    have := adjacentElf_phdr hi
    omega
  disjoint i k x hi hk hx hx' := by
    have := adjacentElf_phdr hi
    have := adjacentElf_phdr hk
    unfold Phdr.Contains at hx hx'
    omega
  symbols := FileBuffer.start_returns (.inl (by decide +kernel))

/-- No padding lies over a byte of the file. -/
theorem adjacentElf_pads {limit i l x : Nat} (hi : adjacentElf.Loads i)
    (hx : (adjacentElf.phdr i).InFile x) (hl : adjacentElf.Loads l) :
    ¬ (adjacentElf.phdr l).Pads limit x := by
  have := adjacentElf_phdr hi
  have := adjacentElf_phdr hl
  unfold Phdr.Pads Phdr.Covers Phdr.wordOf
  unfold Phdr.InFile at hx
  omega

theorem adjacentElf_loaded : ∃ s' : Simulator 1 0x200000,
    (init 1 0x200000 ⟨fun _ => 0⟩).loadProgram adjacentElf = .ok (true, s') ∧
      ElfLoaded adjacentElf s' := by
  refine (loaded_image_iff (by decide) (by decide) adjacentElf_wellFormed).mpr
    ⟨fun i hi hnever => ?_, fun i x hi hx _ l hl => adjacentElf_pads hi hx hl,
      fun i x hi hx _ => ⟨?_, fun l _ hl => adjacentElf_pads hi hx hl⟩⟩
  · have hgt : 0xFFFFFFFC < (adjacentElf.phdr i).filesz.toNat := BitVec.lt_def.mp hnever
    have := adjacentElf_phdr hi
    omega
  · have := adjacentElf_phdr hi
    unfold Phdr.Covers Phdr.wordOf ddrSize
    unfold Phdr.InFile at hx
    omega

/-- Two segments of one byte each, side by side. -/
def splitElf : FileBuffer :=
  elfFile 0 [{ type := ptLoad, offset := 116, paddr := 0, filesz := 1, memsz := 1 },
    { type := ptLoad, offset := 117, paddr := 1, filesz := 1, memsz := 1 }] [0x13, 0x05]

theorem splitElf_wellFormed : splitElf.WellFormed 0x200000 where
  isElf := by decide +kernel
  header := by decide +kernel
  class32 := by decide +kernel
  table := by decide +kernel
  filesz_le i hi := by
    have hcases : ∀ i < 2, (splitElf.phdr i).filesz.toNat ≤ (splitElf.phdr i).memsz.toNat := by
      decide +kernel
    exact hcases i hi.1
  inFile i hi _ := by
    have hcases : ∀ i < 2, (splitElf.phdr i).offset.toNat + (splitElf.phdr i).filesz.toNat ≤
        splitElf.length := by decide +kernel
    exact hcases i hi.1
  inMemory i hi := by
    have hcases : ∀ i < 2, (splitElf.phdr i).paddr.toNat + (splitElf.phdr i).memsz.toNat ≤
        0x200000 := by decide +kernel
    exact hcases i hi.1
  disjoint i k x hi hk hx hx' := by
    have hcases : ∀ i < 2, (splitElf.phdr i).paddr.toNat = i ∧
        (splitElf.phdr i).memsz.toNat = 1 := by decide +kernel
    obtain ⟨hi0, hi1⟩ := hcases i hi.1
    obtain ⟨hk0, hk1⟩ := hcases k hk.1
    unfold Phdr.Contains at hx hx'
    omega
  symbols := FileBuffer.start_returns (.inl (by decide +kernel))

/-- The word of the first segment clears the byte of the second. -/
theorem splitElf_not_loaded : splitElf.WellFormed 0x200000 ∧
    ¬ ∃ s' : Simulator 1 0x200000,
      (init 1 0x200000 ⟨fun _ => 0⟩).loadProgram splitElf = .ok (true, s') ∧
        ElfLoaded splitElf s' := by
  refine ⟨splitElf_wellFormed, ?_⟩
  rintro ⟨s', hrun, h⟩
  have hbyte := h.memory 1 1 (by decide +kernel) (by decide +kernel)
  have hcleared : (((init 1 0x200000 ⟨fun _ => 0⟩).loadProgram splitElf).map
      (·.2.memory.bytes 1)).toOption = some 0 := by decide +kernel
  rw [hrun] at hcleared
  have hzero : s'.memory.bytes 1 = 0 := Option.some.inj hcleared
  rw [hzero] at hbyte
  exact absurd hbyte (by decide +kernel)

end Simulator
end RiscvEmulator.System
