import RiscvEmulator.Lib.Fold
import RiscvEmulator.System.Loader

/-! # What the loader touches

Every loop of the loader fails, if it does, whatever it has written before. So the
headers alone say whether a load stays inside the file and inside `memory`. -/
namespace RiscvEmulator.System
open Memory Lib.Fold

variable {n : Nat} {buffer : FileBuffer}

/-- An access outside the file or `memory`. -/
def LoadFault.outside : LoadFault → Bool
  | .fileRead | .memoryRead | .memoryWrite => true
  | .endless | .symbols _ => false

/-! ## Accesses -/

theorem errorOf_copyFromFile (buffer : FileBuffer) (memory : ByteMemory n)
    (target source size : Nat) :
    errorOf (copyFromFile buffer memory target source size) =
      if source + size ≤ buffer.length then
        if target + size ≤ n then none else some .memoryWrite
      else some .fileRead := by
  unfold copyFromFile
  split
  · split <;> rfl
  · rfl

theorem errorOf_zeroFill (memory : ByteMemory n) (target size : Nat) :
    errorOf (zeroFill memory target size) =
      if target + size ≤ n then none else some .memoryWrite := by
  unfold zeroFill
  split <;> rfl

theorem errorOf_fileByte (o : Nat) :
    errorOf (fileByte buffer o) = if o < buffer.length then none else some .fileRead := by
  unfold fileByte
  split <;> rfl

theorem errorOf_memoryByte (memory : ByteMemory n) (addr : Word) :
    errorOf (memoryByte memory addr) = if addr.toNat < n then none else some .memoryRead := by
  unfold memoryByte
  split <;> rfl

theorem errorOf_gatherWord (readByte : Nat → Except LoadFault Byte) (j size : Nat) :
    errorOf (gatherWord readByte j size) =
      (List.range (min 4 (size - j))).findSome? fun k => errorOf (readByte (j + k)) := by
  refine errorOf_foldlM (fun word k => ?_) _ _
  rw [errorOf_bind (o := none) fun _ => rfl]
  cases errorOf (readByte (j + k)) <;> rfl

/-- A word is gathered if its bytes can be read. -/
theorem gatherWord_succeeds {readByte : Nat → Except LoadFault Byte} {j size : Nat}
    (h : ∀ k < size, errorOf (readByte k) = none) :
    errorOf (gatherWord readByte j size) = none := by
  rw [errorOf_gatherWord, List.findSome?_eq_none_iff]
  intro k hk
  have := List.mem_range.mp hk
  exact h _ (by omega)

theorem gatherWord_fails {readByte : Nat → Except LoadFault Byte} {j k size : Nat} {e : LoadFault}
    (hone : ∀ k, errorOf (readByte k) = none ∨ errorOf (readByte k) = some e) (hj : j ≤ k)
    (hk : k < j + 4) (hsize : k < size) (h : errorOf (readByte k) = some e) :
    errorOf (gatherWord readByte j size) = some e := by
  rw [errorOf_gatherWord]
  cases hfind : (List.range (min 4 (size - j))).findSome? fun k => errorOf (readByte (j + k)) with
  | none =>
    have hnone := List.findSome?_eq_none_iff.mp hfind (k - j) (List.mem_range.mpr (by omega))
    rw [show j + (k - j) = k by omega, h] at hnone
    cases hnone
  | some e' =>
    obtain ⟨i, _, hi⟩ := List.exists_of_findSome?_eq_some hfind
    rcases hone (j + i) with hnone | hsome
    · rw [hnone] at hi
      cases hi
    · exact hi.symm.trans hsome

namespace Image

/-! ## The first pass -/

/-- The copy of a segment stays in the file and in `memory`. The sum it checks is
taken modulo 2^32. -/
def SegmentCopies (L n : Nat) (phdr : Phdr) : Prop :=
  0 < phdr.filesz → (phdr.offset + phdr.filesz).toNat ≤ L →
    phdr.offset.toNat + phdr.filesz.toNat ≤ L ∧ phdr.paddr.toNat + phdr.filesz.toNat ≤ n

def copyFault (L n : Nat) (phdr : Phdr) : Option LoadFault :=
  if 0 < phdr.filesz ∧ (phdr.offset + phdr.filesz).toNat ≤ L then
    if phdr.offset.toNat + phdr.filesz.toNat ≤ L then
      if phdr.paddr.toNat + phdr.filesz.toNat ≤ n then none else some .memoryWrite
    else some .fileRead
  else none

def fillFault (n : Nat) (phdr : Phdr) : Option LoadFault :=
  if phdr.filesz < phdr.memsz ∧ n < phdr.paddr.toNat + phdr.memsz.toNat then some .memoryWrite
  else none

theorem errorOf_copySegment (memory : ByteMemory n) (phdr : Phdr) :
    errorOf (copySegment buffer memory phdr) = copyFault buffer.length n phdr := by
  unfold copySegment copyFault
  split
  · exact errorOf_copyFromFile ..
  · rfl

theorem errorOf_fillSegment (memory : ByteMemory n) (phdr : Phdr) :
    errorOf (fillSegment memory phdr) = fillFault n phdr := by
  unfold fillSegment fillFault
  by_cases hbss : phdr.filesz < phdr.memsz
  · have hsize : (phdr.memsz - phdr.filesz).toNat = phdr.memsz.toNat - phdr.filesz.toNat :=
      BitVec.toNat_sub_of_le (BitVec.le_of_lt hbss)
    have hlt := BitVec.lt_def.mp hbss
    rw [if_pos hbss, errorOf_zeroFill, hsize]
    by_cases hfit : phdr.paddr.toNat + phdr.memsz.toNat ≤ n
    · rw [if_pos (by omega), if_neg (by omega)]
    · rw [if_neg (by omega), if_pos ⟨hbss, by omega⟩]
  · rw [if_neg hbss, if_neg fun h => hbss h.1]
    rfl

theorem copyFault_eq_none_iff {L : Nat} {phdr : Phdr} :
    copyFault L n phdr = none ↔ SegmentCopies L n phdr := by
  unfold copyFault SegmentCopies
  split
  case isTrue h =>
    split
    · split
      · exact ⟨fun _ _ _ => ⟨‹_›, ‹_›⟩, fun _ => rfl⟩
      · exact ⟨nofun, fun hcopy => absurd (hcopy h.1 h.2).2 ‹_›⟩
    · exact ⟨nofun, fun hcopy => absurd (hcopy h.1 h.2).1 ‹_›⟩
  case isFalse h => exact ⟨fun _ h0 h1 => absurd ⟨h0, h1⟩ h, fun _ => rfl⟩

/-- What the first pass does with a `PT_LOAD` segment stays in the file and in
`memory`. -/
def SegmentLoads (L n : Nat) (phdr : Phdr) : Prop :=
  (phdr.paddr + phdr.memsz).toNat ≤ n → SegmentCopies L n phdr ∧
    (phdr.filesz < phdr.memsz → phdr.paddr.toNat + phdr.memsz.toNat ≤ n)

instance (L n : Nat) (phdr : Phdr) : Decidable (SegmentCopies L n phdr) :=
  inferInstanceAs (Decidable (_ → _ → _ ∧ _))

instance (L n : Nat) (phdr : Phdr) : Decidable (SegmentLoads L n phdr) :=
  inferInstanceAs (Decidable (_ → _ ∧ (_ → _)))

/-- What a segment fails with. -/
def loadFault (L n : Nat) (phdr : Phdr) : Option LoadFault :=
  if n < (phdr.paddr + phdr.memsz).toNat then none
  else (copyFault L n phdr).or (fillFault n phdr)

theorem errorOf_loadSegment (r : ByteMemory n × Word) (phdr : Phdr) :
    errorOf (loadSegment buffer r phdr) = loadFault buffer.length n phdr := by
  have hrest : ∀ memory : ByteMemory n, errorOf (do
      let memory ← fillSegment memory phdr
      .ok (memory, if r.2 < phdr.paddr + phdr.memsz then phdr.paddr + phdr.memsz else r.2) :
        Except LoadFault (ByteMemory n × Word)) = fillFault n phdr := by
    intro memory
    rw [errorOf_bind fun _ => errorOf_ok _, Option.or_none, errorOf_fillSegment]
  unfold loadSegment loadFault
  simp only
  split
  · rfl
  · rw [errorOf_bind hrest, errorOf_copySegment]

theorem loadFault_eq_none_iff {L : Nat} {phdr : Phdr} :
    loadFault L n phdr = none ↔ SegmentLoads L n phdr := by
  unfold loadFault SegmentLoads
  split
  · exact ⟨fun _ _ => by omega, fun _ => rfl⟩
  · rw [Option.or_eq_none_iff, copyFault_eq_none_iff]
    have hfill : fillFault n phdr = none ↔
        (phdr.filesz < phdr.memsz → phdr.paddr.toNat + phdr.memsz.toNat ≤ n) := by
      unfold fillFault
      split
      case isTrue h => exact ⟨nofun, fun hfit => absurd (hfit h.1) (by omega)⟩
      case isFalse h =>
        exact ⟨fun _ hbss => Nat.le_of_not_lt fun hlt => h ⟨hbss, hlt⟩, fun _ => rfl⟩
    rw [hfill]
    exact ⟨fun h _ => h, fun h => h (by omega)⟩

/-! ## The second pass -/

/-- The words of a segment never come to an end: the counter passes the last of
them and starts again. -/
def NeverEnds (phdr : Phdr) : Prop := 0xFFFFFFFC < phdr.filesz

instance (phdr : Phdr) : Decidable (NeverEnds phdr) :=
  inferInstanceAs (Decidable (0xFFFFFFFC < phdr.filesz))

theorem errorOf_storeWord (phdr : Phdr) (m : Image n) (j : Word) :
    errorOf (storeWord phdr m j) = errorOf (gatherWord
      (fun k => memoryByte m.memory (phdr.paddr + BitVec.ofNat 32 k)) j.toNat phdr.filesz.toNat) :=
  errorOf_map ..

/-- The counter of the words, as long as it does not wrap. -/
theorem toNat_next {j : Word} (hj : j.toNat + 4 < 2 ^ 32) : (j + 4).toNat = j.toNat + 4 :=
  BitVec.toNat_add_of_lt hj

theorem toNat_byteAddr {base : Word} {k : Nat} (hk : base.toNat + k < 2 ^ 32) :
    (base + BitVec.ofNat 32 k).toNat = base.toNat + k := by
  have hmod : (BitVec.ofNat 32 k).toNat = k := by
    rw [BitVec.toNat_ofNat]
    exact Nat.mod_eq_of_lt (by omega)
  rw [BitVec.toNat_add_of_lt (by omega), hmod]

theorem storeWord_succeeds {phdr : Phdr} (hin : phdr.paddr.toNat + phdr.filesz.toNat ≤ n)
    (m : Image n) (j : Word) : errorOf (storeWord phdr m j) = none := by
  rw [errorOf_storeWord]
  refine gatherWord_succeeds fun k hk => ?_
  have hle : (phdr.paddr + BitVec.ofNat 32 k).toNat ≤ phdr.paddr.toNat + k := by
    rw [BitVec.toNat_add, BitVec.toNat_ofNat]
    omega
  rw [errorOf_memoryByte, if_pos (by omega)]

theorem storeWord_faults (phdr : Phdr) (m : Image n) (j : Word) :
    errorOf (storeWord phdr m j) = none ∨ errorOf (storeWord phdr m j) = some .memoryRead := by
  rw [errorOf_storeWord, errorOf_gatherWord]
  cases hfind : (List.range (min 4 (phdr.filesz.toNat - j.toNat))).findSome? fun k =>
      errorOf (memoryByte m.memory (phdr.paddr + BitVec.ofNat 32 (j.toNat + k))) with
  | none => exact .inl rfl
  | some e =>
    obtain ⟨k, _, hk⟩ := List.exists_of_findSome?_eq_some hfind
    rw [errorOf_memoryByte] at hk
    split at hk
    · cases hk
    · exact .inr hk.symm

/-- The byte at `k` is outside, and `j` is the word it belongs to. -/
theorem storeWord_fails {phdr : Phdr} {k : Nat} (m : Image n) {j : Word} (hj : j.toNat ≤ k)
    (hk : k < j.toNat + 4) (hsize : k < phdr.filesz.toNat)
    (hout : n ≤ (phdr.paddr + BitVec.ofNat 32 k).toNat) :
    errorOf (storeWord phdr m j) = some .memoryRead := by
  rw [errorOf_storeWord]
  refine gatherWord_fails (fun k => ?_) hj hk hsize ?_
  · rw [errorOf_memoryByte]
    split
    · exact .inl rfl
    · exact .inr rfl
  · rw [errorOf_memoryByte, if_neg (by omega)]

theorem errorOf_storeLoop_succ (phdr : Phdr) (fuel : Nat) (m : Image n) {j : Word}
    (hj : j < phdr.filesz) : errorOf (storeLoop phdr (fuel + 1) j m) =
      errorOf (storeWord phdr m j >>= storeLoop phdr fuel (j + 4)) := by
  rw [storeLoop, if_pos hj]

theorem storeLoop_ends {phdr : Phdr} (hin : phdr.paddr.toNat + phdr.filesz.toNat ≤ n)
    (hends : ¬ NeverEnds phdr) {fuel : Nat} {j : Word} (m : Image n)
    (hj : j.toNat < phdr.filesz.toNat + 4)
    (hfuel : phdr.filesz.toNat + 4 ≤ j.toNat + 4 * fuel) :
    errorOf (storeLoop phdr fuel j m) = none := by
  have hle : phdr.filesz.toNat ≤ 0xFFFFFFFC := BitVec.le_def.mp (BitVec.not_lt.mp hends)
  induction fuel generalizing j m with
  | zero => omega
  | succ fuel ih =>
    by_cases hturn : j < phdr.filesz
    · have hlt := BitVec.lt_def.mp hturn
      have hnext : (j + 4).toNat = j.toNat + 4 := toNat_next (by omega)
      rw [errorOf_storeLoop_succ _ _ _ hturn,
        errorOf_bind fun m => ih m (by omega) (by omega), storeWord_succeeds hin]
      rfl
    · rw [storeLoop, if_neg hturn]
      rfl

theorem storeLoop_endless {phdr : Phdr} (hin : phdr.paddr.toNat + phdr.filesz.toNat ≤ n)
    (hnever : NeverEnds phdr) {fuel : Nat} {j : Word} (m : Image n) (hj : j.toNat % 4 = 0) :
    errorOf (storeLoop phdr fuel j m) = some .endless := by
  have hgt : 0xFFFFFFFC < phdr.filesz.toNat := BitVec.lt_def.mp hnever
  induction fuel generalizing j m with
  | zero => rfl
  | succ fuel ih =>
    have hturn : j < phdr.filesz := BitVec.lt_def.mpr (by omega)
    have hnext : (j + 4).toNat % 4 = 0 := by
      rw [BitVec.toNat_add]
      simp only [BitVec.ofNat_eq_ofNat, BitVec.toNat_ofNat]
      omega
    rw [errorOf_storeLoop_succ _ _ _ hturn, errorOf_bind fun m => ih m hnext,
      storeWord_succeeds hin]
    rfl

/-- The loop comes to the byte at `k`, which is outside. -/
theorem storeLoop_fails {phdr : Phdr} {k : Nat} (hsize : k < phdr.filesz.toNat)
    (hout : n ≤ (phdr.paddr + BitVec.ofNat 32 k).toNat) {fuel : Nat} {j : Word} (m : Image n)
    (hj : j.toNat ≤ k) (hfuel : k < j.toNat + 4 * fuel) :
    errorOf (storeLoop phdr fuel j m) = some .memoryRead := by
  induction fuel generalizing j m with
  | zero => omega
  | succ fuel ih =>
    rw [errorOf_storeLoop_succ _ _ _ (BitVec.lt_def.mpr (by omega))]
    by_cases hk : k < j.toNat + 4
    · have hfail := storeWord_fails m hj hk hsize hout
      rw [errorOf_eq_some_iff] at hfail
      rw [hfail]
      rfl
    · have hnext : (j + 4).toNat = j.toNat + 4 := toNat_next (by omega)
      rw [errorOf_bind fun m => ih m (by omega) (by omega)]
      rcases storeWord_faults phdr m j with hword | hword <;> rw [hword] <;> rfl

/-- What the words of a segment fail with. -/
def segmentFault (n : Nat) (phdr : Phdr) : Option LoadFault :=
  if n < phdr.paddr.toNat + phdr.filesz.toNat then some .memoryRead
  else if NeverEnds phdr then some .endless
  else none

theorem errorOf_storeSegment (hn : n < 2 ^ 32) {phdr : Phdr} (hsize : phdr.filesz ≠ 0)
    (m : Image n) : errorOf (storeSegment phdr m) = segmentFault n phdr := by
  have hpos : 0 < phdr.filesz.toNat := BitVec.lt_def.mp ((BitVec.pos_iff_ne_zero _).mpr hsize)
  have hlt := phdr.filesz.isLt
  have hzero : (0 : Word).toNat = 0 := rfl
  unfold storeSegment segmentFault
  split
  · -- the first byte outside is at `n`, or at the start of the segment
    refine storeLoop_fails (k := n - phdr.paddr.toNat) (by omega) ?_ m (by omega) (by omega)
    rw [toNat_byteAddr (by omega)]
    omega
  · split
    · exact storeLoop_endless (by omega) ‹_› m rfl
    · exact storeLoop_ends (by omega) ‹_› m (by omega) (by omega)

end Image

/-! ## The program headers -/

namespace FileBuffer

/-- Where program header `i` ends. -/
def phdrEnd (buffer : FileBuffer) (i : Nat) : Nat :=
  (buffer.ehdr.phdrOffset i).toNat + phdrSize

def phdr (buffer : FileBuffer) (i : Nat) : Phdr :=
  buffer.phdrAt (buffer.ehdr.phdrOffset i).toNat

/-- The first pass stays inside at header `i`. -/
def HeaderLoads (n : Nat) (buffer : FileBuffer) (i : Nat) : Prop :=
  buffer.phdrEnd i ≤ buffer.length → (buffer.phdr i).type = ptLoad →
    Image.SegmentLoads buffer.length n (buffer.phdr i)

/-- The second pass stays inside at header `i`. -/
def HeaderStores (n : Nat) (buffer : FileBuffer) (i : Nat) : Prop :=
  buffer.phdrEnd i ≤ buffer.length ∧ ((buffer.phdr i).type = ptLoad → (buffer.phdr i).filesz ≠ 0 →
    (buffer.phdr i).paddr.toNat + (buffer.phdr i).filesz.toNat ≤ n)

/-- The second pass does not come past header `i`. -/
def HeaderNeverEnds (buffer : FileBuffer) (i : Nat) : Prop :=
  (buffer.phdr i).type = ptLoad ∧ Image.NeverEnds (buffer.phdr i)

instance (n : Nat) (i : Nat) : Decidable (buffer.HeaderLoads n i) :=
  inferInstanceAs (Decidable (_ → _ → Image.SegmentLoads _ _ _))

instance (n : Nat) (i : Nat) : Decidable (buffer.HeaderStores n i) :=
  inferInstanceAs (Decidable (_ ∧ (_ → _ → _)))

instance (i : Nat) : Decidable (buffer.HeaderNeverEnds i) :=
  inferInstanceAs (Decidable (_ ∧ Image.NeverEnds _))

end FileBuffer

namespace Image

theorem loadHeader_eq (r : ByteMemory n × Word) (i : Nat) :
    loadHeader buffer buffer.ehdr r i =
      if buffer.length < buffer.phdrEnd i then .ok r
      else if (buffer.phdr i).type = ptLoad then loadSegment buffer r (buffer.phdr i)
      else .ok r := rfl

theorem storeHeader_eq (m : Image n) (i : Nat) :
    storeHeader buffer buffer.ehdr m i =
      if buffer.length < buffer.phdrEnd i then .error .fileRead
      else if (buffer.phdr i).type ≠ ptLoad ∨ (buffer.phdr i).filesz = 0 then .ok m
      else storeSegment (buffer.phdr i) m := rfl

theorem errorOf_loadHeader (buffer : FileBuffer) (r : ByteMemory n × Word) (i : Nat) :
    errorOf (loadHeader buffer buffer.ehdr r i) =
      if buffer.length < buffer.phdrEnd i ∨ (buffer.phdr i).type ≠ ptLoad then none
      else loadFault buffer.length n (buffer.phdr i) := by
  rw [loadHeader_eq]
  by_cases hin : buffer.length < buffer.phdrEnd i
  · rw [if_pos hin, if_pos (.inl hin)]
    rfl
  · rw [if_neg hin]
    by_cases htype : (buffer.phdr i).type = ptLoad
    · rw [if_pos htype, if_neg (by rintro (h | h) <;> contradiction)]
      exact errorOf_loadSegment ..
    · rw [if_neg htype, if_pos (.inr htype)]
      rfl

theorem loads_iff (r : ByteMemory n × Word) (i : Nat) :
    errorOf (loadHeader buffer buffer.ehdr r i) = none ↔ buffer.HeaderLoads n i := by
  rw [errorOf_loadHeader]
  unfold FileBuffer.HeaderLoads
  split
  case isTrue h =>
    refine ⟨fun _ hin htype => ?_, fun _ => rfl⟩
    rcases h with hout | hother
    · omega
    · exact absurd htype hother
  case isFalse h =>
    rw [not_or, not_not] at h
    rw [loadFault_eq_none_iff]
    exact ⟨fun hfit _ _ => hfit, fun hfit => hfit (by omega) h.2⟩

/-- The faults of the first pass are accesses outside. -/
theorem loadFault_outside {L : Nat} {phdr : Phdr} {e : LoadFault}
    (h : loadFault L n phdr = some e) : e.outside = true := by
  unfold loadFault copyFault fillFault at h
  split at h
  · cases h
  · rw [Option.or_eq_some_iff] at h
    rcases h with h | ⟨_, h⟩
    · repeat' split at h
      all_goals cases h
      all_goals rfl
    · split at h <;> cases h
      rfl

/-- What a header fails with in the second pass. -/
def storeFault (n : Nat) (buffer : FileBuffer) (i : Nat) : Option LoadFault :=
  if buffer.length < buffer.phdrEnd i then some .fileRead
  else if (buffer.phdr i).type ≠ ptLoad ∨ (buffer.phdr i).filesz = 0 then none
  else segmentFault n (buffer.phdr i)

theorem errorOf_storeHeader (buffer : FileBuffer) (hn : n < 2 ^ 32) (m : Image n) (i : Nat) :
    errorOf (storeHeader buffer buffer.ehdr m i) = storeFault n buffer i := by
  rw [storeHeader_eq]
  unfold storeFault
  by_cases hin : buffer.length < buffer.phdrEnd i
  · rw [if_pos hin, if_pos hin]
    rfl
  · rw [if_neg hin, if_neg hin]
    by_cases hskip : (buffer.phdr i).type ≠ ptLoad ∨ (buffer.phdr i).filesz = 0
    · rw [if_pos hskip, if_pos hskip]
      rfl
    · rw [if_neg hskip, if_neg hskip]
      exact errorOf_storeSegment hn (not_or.mp hskip).2 m

theorem storeFault_cases (n : Nat) (buffer : FileBuffer) (i : Nat) :
    (storeFault n buffer i = none ∧ buffer.HeaderStores n i ∧ ¬ buffer.HeaderNeverEnds i) ∨
    (storeFault n buffer i = some .endless ∧ buffer.HeaderStores n i ∧ buffer.HeaderNeverEnds i) ∨
    (∃ e, storeFault n buffer i = some e ∧ e.outside = true ∧ ¬ buffer.HeaderStores n i) := by
  unfold storeFault segmentFault FileBuffer.HeaderStores FileBuffer.HeaderNeverEnds
  have hzero : (buffer.phdr i).filesz = 0 → ¬ NeverEnds (buffer.phdr i) := by
    intro h
    unfold NeverEnds
    rw [h]
    decide
  by_cases hin : buffer.length < buffer.phdrEnd i
  · rw [if_pos hin]
    exact .inr (.inr ⟨_, rfl, rfl, fun h => by omega⟩)
  · rw [if_neg hin]
    by_cases hskip : (buffer.phdr i).type ≠ ptLoad ∨ (buffer.phdr i).filesz = 0
    · rw [if_pos hskip]
      refine .inl ⟨rfl, ⟨by omega, fun htype hsize => ?_⟩, fun hnever => ?_⟩
      · rcases hskip with h | h <;> contradiction
      · rcases hskip with h | h
        · exact h hnever.1
        · exact hzero h hnever.2
    · obtain ⟨htype, hsize⟩ := not_or.mp hskip
      rw [not_not] at htype
      rw [if_neg hskip]
      split
      · exact .inr (.inr ⟨_, rfl, rfl, fun h => by have := h.2 htype hsize; omega⟩)
      · split
        · exact .inr (.inl ⟨rfl, ⟨by omega, fun _ _ => by omega⟩, htype, ‹_›⟩)
        · exact .inl ⟨rfl, ⟨by omega, fun _ _ => by omega⟩, fun h => absurd h.2 ‹_›⟩

end Image

/-! ## Loads that stay inside -/

/-- No access of the load is outside the file or `memory`. -/
def InBounds {α : Type} (r : Except LoadFault α) : Prop := ∀ e, r = .error e → e.outside = false

section InBounds
variable {α β : Type} {x : Except LoadFault α}

theorem inBounds_ok (a : α) : InBounds (.ok a) := nofun

theorem inBounds_of_errorOf (h : errorOf x = none) : InBounds x := by
  obtain ⟨a, rfl⟩ := errorOf_eq_none_iff.mp h
  exact inBounds_ok a

theorem not_inBounds {e : LoadFault} (h : errorOf x = some e) (he : e.outside = true) :
    ¬ InBounds x := by
  intro hin
  rw [hin e (errorOf_eq_some_iff.mp h)] at he
  cases he

theorem inBounds_bind_iff {f : α → Except LoadFault β} :
    InBounds (x >>= f) ↔ InBounds x ∧ ∀ a, x = .ok a → InBounds (f a) := by
  cases x with
  | ok a =>
    refine ⟨fun h => ⟨inBounds_ok a, fun b hb => ?_⟩, fun h => h.2 a rfl⟩
    cases hb
    exact h
  | error e =>
    refine ⟨fun h => ⟨fun e' he' => ?_, nofun⟩, fun h e' he' => ?_⟩
    · cases he'
      exact h e rfl
    · cases he'
      exact h.1 e rfl

end InBounds

namespace Image

theorem loadSegments_succeeds (memory : ByteMemory n)
    (h : ∀ i < buffer.ehdr.phnum.toNat, buffer.HeaderLoads n i) :
    ∃ r, loadSegments buffer buffer.ehdr memory = .ok r := by
  refine errorOf_eq_none_iff.mp ((errorOf_foldlM (errorOf_loadHeader buffer) _ _).trans
    (List.findSome?_eq_none_iff.mpr fun i hi => ?_))
  rw [← errorOf_loadHeader buffer (memory, 0) i, loads_iff]
  exact h i (List.mem_range.mp hi)

theorem loadSegments_inBounds_iff (memory : ByteMemory n) :
    InBounds (loadSegments buffer buffer.ehdr memory) ↔
      ∀ i < buffer.ehdr.phnum.toNat, buffer.HeaderLoads n i := by
  constructor
  · intro hin i hi
    have hfold := errorOf_foldlM (errorOf_loadHeader (n := n) buffer)
      (List.range buffer.ehdr.phnum.toNat) (memory, 0)
    rw [← loads_iff (memory, 0)]
    cases hload : errorOf (loadSegments buffer buffer.ehdr memory) with
    | none =>
      rw [errorOf_loadHeader]
      exact List.findSome?_eq_none_iff.mp (hfold.symm.trans hload) i (List.mem_range.mpr hi)
    | some e =>
      obtain ⟨k, _, hk⟩ := List.exists_of_findSome?_eq_some (hfold.symm.trans hload)
      split at hk
      · cases hk
      · exact absurd hin (not_inBounds hload (loadFault_outside hk))
  · intro h
    obtain ⟨r, hr⟩ := loadSegments_succeeds memory h
    rw [hr]
    exact inBounds_ok r

/-- What is loaded lies in `memory`, as far as the sums that are checked say. -/
theorem loadHeader_max {r r' : ByteMemory n × Word} {i : Nat} (hr : r.2.toNat ≤ n)
    (h : loadHeader buffer buffer.ehdr r i = .ok r') : r'.2.toNat ≤ n := by
  have hsegment : loadSegment buffer r (buffer.phdr i) = .ok r' → r'.2.toNat ≤ n := by
    intro h
    unfold loadSegment at h
    simp only at h
    split at h
    · cases h
      exact hr
    · obtain ⟨_, _, h⟩ := bind_eq_ok h
      obtain ⟨_, _, h⟩ := bind_eq_ok h
      cases h
      show (if _ then _ else _ : Word).toNat ≤ n
      split
      · omega
      · exact hr
  rw [loadHeader_eq] at h
  split at h
  · cases h
    exact hr
  · split at h
    · exact hsegment h
    · cases h
      exact hr

theorem loadSegments_max {memory : ByteMemory n} {r : ByteMemory n × Word}
    (h : loadSegments buffer buffer.ehdr memory = .ok r) : r.2.toNat ≤ n :=
  foldlM_invariant (P := fun r => r.2.toNat ≤ n) (fun _ _ _ => loadHeader_max) h (Nat.zero_le n)

theorem storeSegments_inBounds_iff (hn : n < 2 ^ 32) (m : Image n) :
    InBounds (storeSegments buffer buffer.ehdr m) ↔
      ∀ i < buffer.ehdr.phnum.toNat, (∀ k < i, ¬ buffer.HeaderNeverEnds k) →
        buffer.HeaderStores n i := by
  have hfold := errorOf_foldlM (errorOf_storeHeader buffer hn)
    (List.range buffer.ehdr.phnum.toNat) m
  constructor
  · intro hin i
    induction i using Nat.strong_induction_on with
    | _ i ih =>
      intro hi hends
      have hbefore : ∀ k < i, storeFault n buffer k = none := by
        intro k hk
        have hstores := ih k hk (by omega) fun l hl => hends l (by omega)
        rcases storeFault_cases n buffer k with h | h | ⟨_, _, _, h⟩
        · exact h.1
        · exact absurd h.2.2 (hends k hk)
        · exact absurd hstores h
      rcases storeFault_cases n buffer i with h | h | ⟨e, he, hout, _⟩
      · exact h.2.1
      · exact h.2.1
      · have hsome := findSome?_range_eq_some_iff.mpr ⟨i, hi, he, hbefore⟩
        exact absurd hin (not_inBounds (hfold.trans hsome) hout)
  · intro hall e he
    obtain ⟨i, hi, hsome, hbefore⟩ :=
      findSome?_range_eq_some_iff.mp (hfold.symm.trans (errorOf_eq_some_iff.mpr he))
    have hends : ∀ k < i, ¬ buffer.HeaderNeverEnds k := by
      intro k hk
      rcases storeFault_cases n buffer k with h | h | ⟨_, h, _⟩
      · exact h.2.2
      · rw [hbefore k hk] at h
        cases h.1
      · rw [hbefore k hk] at h
        cases h
    rcases storeFault_cases n buffer i with h | h | ⟨_, _, _, h⟩
    · rw [h.1] at hsome
      cases hsome
    · rw [h.1] at hsome
      cases hsome
      rfl
    · exact absurd (hall i hi hends) h

/-- A second pass that stays inside and fails has come to a segment that never ends,
which only fits a memory of almost 2^32 bytes. -/
theorem storeSegments_endless (hn : n < 2 ^ 32) {m : Image n} {e : LoadFault}
    (h : storeSegments buffer buffer.ehdr m = .error e) (he : e.outside = false) :
    0xFFFFFFFC < n := by
  have hfold := errorOf_foldlM (errorOf_storeHeader buffer hn)
    (List.range buffer.ehdr.phnum.toNat) m
  obtain ⟨i, _, hsome, _⟩ :=
    findSome?_range_eq_some_iff.mp (hfold.symm.trans (errorOf_eq_some_iff.mpr h))
  rcases storeFault_cases n buffer i with hi | ⟨_, hstores, htype, hnever⟩ | ⟨_, hi, hout, _⟩
  · rw [hi.1] at hsome
    cases hsome
  · have hgt : 0xFFFFFFFC < (buffer.phdr i).filesz.toNat := BitVec.lt_def.mp hnever
    have hzero : (buffer.phdr i).filesz ≠ 0 := by
      intro h
      rw [h] at hgt
      exact absurd hgt (by decide)
    have := hstores.2 htype hzero
    omega
  · rw [hi] at hsome
    cases hsome
    rw [hout] at he
    cases he

end Image

/-! ## Raw binaries -/

theorem gatherWord_file {j size : Nat} (hsize : size ≤ buffer.length) :
    errorOf (gatherWord (fileByte buffer) j size) = none := by
  refine gatherWord_succeeds fun k hk => ?_
  rw [errorOf_fileByte, if_pos (by omega)]

theorem storeFile_succeeds (buffer : FileBuffer) (m : Image n) :
    errorOf (Image.storeFile buffer m) = none := by
  refine (errorOf_foldlM (g := fun _ => none) (fun m q => ?_) _ _).trans
    (List.findSome?_eq_none_iff.mpr fun _ _ => rfl)
  exact (errorOf_map ..).trans (gatherWord_file (Nat.le_refl _))

theorem findEntry_succeeds {size : Int} (hsize : size.toNat ≤ buffer.length) (places : List Nat) :
    errorOf (findEntry buffer size places) = none := by
  induction places with
  | nil => rfl
  | cons i rest ih =>
    obtain ⟨word, hword⟩ := errorOf_eq_none_iff.mp (gatherWord_file (j := i) hsize)
    obtain ⟨next, hnext⟩ := errorOf_eq_none_iff.mp (gatherWord_file (j := i + 4) hsize)
    rw [findEntry, hword]
    show errorOf (if _ then _ else _) = none
    split
    · rw [hnext]
      show errorOf (if _ then _ else _) = none
      split
      · rfl
      · exact ih
    · exact ih

theorem toNat_toInt_le (L : Nat) : (BitVec.ofNat 32 L).toInt.toNat ≤ L := by
  have hle : (BitVec.ofNat 32 L).toInt ≤ (BitVec.ofNat 32 L).toNat := by
    rw [BitVec.toInt_eq_toNat_cond]
    split <;> omega
  have hmod : (BitVec.ofNat 32 L).toNat ≤ L := by
    rw [BitVec.toNat_ofNat]
    exact Nat.mod_le ..
  omega

namespace Simulator
variable {N : Nat}

/-! ## Whole loads -/

/-- The fill behind the program needs a memory that reaches its fixed end. -/
theorem finishLoad_inBounds_iff (s : Simulator N n) (entryPoint : Word) {maxLoadedAddr : Word}
    (hmax : maxLoadedAddr.toNat ≤ n) :
    InBounds (s.finishLoad entryPoint maxLoadedAddr) ↔ bssEnd ≤ n := by
  unfold finishLoad
  simp only
  split
  · have herr := errorOf_zeroFill (s.invalidateCaches.setEntryPoint entryPoint).memory
      maxLoadedAddr.toNat (bssEnd - maxLoadedAddr.toNat)
    constructor
    · intro hin
      by_contra hsmall
      rw [if_neg (by omega)] at herr
      exact not_inBounds ((errorOf_map ..).trans herr) rfl hin
    · intro hlarge
      rw [if_pos (by omega)] at herr
      exact inBounds_of_errorOf ((errorOf_map ..).trans herr)
  · exact ⟨fun _ => by omega, fun _ => inBounds_ok _⟩

theorem storeRaw_inBounds_iff (s : Simulator N n) (memory : ByteMemory n)
    (hsize : buffer.length ≤ n) : InBounds (s.storeRaw buffer memory) ↔ bssEnd ≤ n := by
  obtain ⟨m, hm⟩ := errorOf_eq_none_iff.mp
    (storeFile_succeeds buffer ⟨memory, s.ddr⟩)
  obtain ⟨entry, hentry⟩ := errorOf_eq_none_iff.mp
    (findEntry_succeeds (toNat_toInt_le buffer.length)
      (entryPlaces (BitVec.ofNat 32 buffer.length).toInt))
  have hmax : (BitVec.ofNat 32 buffer.length).toNat ≤ n := by
    rw [BitVec.toNat_ofNat]
    exact (Nat.mod_le ..).trans hsize
  have hrun : s.storeRaw buffer memory =
      (s.withImage m).finishLoad 0 (BitVec.ofNat 32 buffer.length) := by
    unfold storeRaw
    rw [hm]
    show (findEntry buffer _ _ >>= _) = _
    rw [hentry]
    rfl
  rw [hrun, finishLoad_inBounds_iff _ _ hmax]

theorem loadRaw_inBounds_iff (s : Simulator N n) :
    InBounds (s.loadRaw buffer) ↔ n < buffer.length ∨ bssEnd ≤ n := by
  unfold loadRaw
  split
  case isTrue h => exact ⟨fun _ => .inl h, fun _ => inBounds_ok _⟩
  case isFalse h =>
    have hcopy := errorOf_copyFromFile buffer s.memory 0 0 buffer.length
    rw [if_pos (by omega), if_pos (by omega)] at hcopy
    obtain ⟨memory, hmemory⟩ := errorOf_eq_none_iff.mp hcopy
    rw [hmemory]
    exact (storeRaw_inBounds_iff s memory (Nat.le_of_not_lt h)).trans
      ⟨.inr, fun hor => hor.resolve_left h⟩

/-- What follows the first pass of an ELF file stays inside. -/
def StoresFit (n : Nat) (buffer : FileBuffer) : Prop :=
  (∀ i < buffer.ehdr.phnum.toNat, (∀ k < i, ¬ buffer.HeaderNeverEnds k) →
    buffer.HeaderStores n i) ∧ bssEnd ≤ n

theorem storeElf_inBounds_iff (hn : n < 2 ^ 32) (s : Simulator N n) {r : ByteMemory n × Word}
    (hmax : r.2.toNat ≤ n) : InBounds (s.storeElf buffer r) ↔
      ((∃ v, buffer.findSymbolStart buffer.ehdr startName = .ok v) → StoresFit n buffer) := by
  unfold storeElf StoresFit
  cases hsymbol : buffer.findSymbolStart buffer.ehdr startName with
  | error e =>
    refine ⟨fun _ h => ?_, fun _ e' he' => ?_⟩
    · obtain ⟨v, hv⟩ := h
      cases hv
    · cases he'
      rfl
  | ok v =>
    show InBounds (Image.storeSegments buffer buffer.ehdr ⟨r.1, s.ddr⟩ >>= _) ↔ _
    rw [inBounds_bind_iff, Image.storeSegments_inBounds_iff hn]
    constructor
    · rintro ⟨hstores, hfinish⟩ _
      refine ⟨hstores, ?_⟩
      cases hrun : Image.storeSegments buffer buffer.ehdr ⟨r.1, s.ddr⟩ with
      | ok m => exact (finishLoad_inBounds_iff _ _ hmax).mp (hfinish m hrun)
      | error e =>
        have hin := (Image.storeSegments_inBounds_iff hn ⟨r.1, s.ddr⟩).mpr hstores
        have := Image.storeSegments_endless hn hrun (hin e hrun)
        unfold bssEnd
        omega
    · intro hfit
      obtain ⟨hstores, hbss⟩ := hfit ⟨v, rfl⟩
      exact ⟨hstores, fun m _ => (finishLoad_inBounds_iff _ _ hmax).mpr hbss⟩

instance (n : Nat) : Decidable (StoresFit n buffer) :=
  inferInstanceAs (Decidable ((∀ i < buffer.ehdr.phnum.toNat, _) ∧ _))

/-- The headers of an ELF file keep its load inside the file and `memory`. -/
structure ElfFits (n : Nat) (buffer : FileBuffer) : Prop where
  loads : ∀ i < buffer.ehdr.phnum.toNat, buffer.HeaderLoads n i
  /-- The second pass is reached if the search for `_start` returns. -/
  stores : (∃ v, buffer.findSymbolStart buffer.ehdr startName = .ok v) → StoresFit n buffer

theorem loadElf_inBounds_iff (hn : n < 2 ^ 32) (s : Simulator N n) :
    InBounds (s.loadElf buffer) ↔
      (ehdrSize ≤ buffer.length → buffer.ehdr.identClass = 1 → ElfFits n buffer) := by
  unfold loadElf
  split
  case isTrue h => exact ⟨fun _ hsize => absurd hsize (by omega), fun _ => inBounds_ok _⟩
  case isFalse hsize =>
    split
    case isTrue h => exact ⟨fun _ _ hclass => absurd hclass h, fun _ => inBounds_ok _⟩
    case isFalse hclass =>
      rw [not_not] at hclass
      rw [inBounds_bind_iff, Image.loadSegments_inBounds_iff]
      constructor
      · rintro ⟨hloads, hrest⟩ _ _
        obtain ⟨r, hr⟩ := Image.loadSegments_succeeds s.memory hloads
        exact ⟨hloads, (storeElf_inBounds_iff hn s (Image.loadSegments_max hr)).mp (hrest r hr)⟩
      · intro hfit
        obtain ⟨hloads, hstores⟩ := hfit (by omega) hclass
        exact ⟨hloads, fun r hr =>
          (storeElf_inBounds_iff hn s (Image.loadSegments_max hr)).mpr hstores⟩

/-- What a file and the size of `memory` must be for the loader to stay inside both. -/
def FileFits (n : Nat) (buffer : FileBuffer) : Prop :=
  if buffer.isElf then
    ehdrSize ≤ buffer.length → buffer.ehdr.identClass = 1 → ElfFits n buffer
  else n < buffer.length ∨ bssEnd ≤ n

/-- Loading reads only inside the file and `memory` and writes only inside `memory`
exactly if the file fits. The size of `memory` is a `uint32_t`. -/
theorem load_in_bounds_iff (hn : n < 2 ^ 32) (s : Simulator N n) (buffer : FileBuffer) :
    InBounds (s.loadProgram buffer) ↔ FileFits n buffer := by
  unfold loadProgram FileFits
  split
  · exact loadElf_inBounds_iff hn s
  · exact loadRaw_inBounds_iff s

/-! ## Files -/

/-- Its low `size` bytes. -/
def fileBytes (size : Nat) (v : Word) : FileBuffer :=
  (List.range size).map fun k => (v >>> (8 * k)).setWidth 8

def phdrBytes (phdr : Phdr) : FileBuffer :=
  [phdr.type, phdr.offset, phdr.paddr, phdr.paddr, phdr.filesz, phdr.memsz, 7, 4].flatMap
    (fileBytes 4)

/-- An ELF file without sections: its header, its program headers and what they load. -/
def elfFile (entry : Word) (phdrs : List Phdr) (contents : FileBuffer) : FileBuffer :=
  [0x7f, 0x45, 0x4c, 0x46, 1, 1, 1, 0, 0, 0, 0, 0, 0, 0, 0, 0] ++
    fileBytes 2 2 ++ fileBytes 2 243 ++ [1, entry, 52, 0, 0].flatMap (fileBytes 4) ++
    [52, 32, BitVec.ofNat 32 phdrs.length, 40, 0, 0].flatMap (fileBytes 2) ++
    phdrs.flatMap phdrBytes ++ contents

/-- One instruction at address 0, with eight bytes of BSS behind it. -/
def smallElf : FileBuffer :=
  elfFile 0 [{ type := ptLoad, offset := 84, paddr := 0, filesz := 4, memsz := 12 }]
    (fileBytes 4 0x00000073)

theorem smallElf_in_bounds :
    InBounds ((init 1 0x200000 ⟨fun _ => 0⟩).loadProgram smallElf) := by
  refine (load_in_bounds_iff (by decide) _ smallElf).mpr ?_
  unfold FileFits
  rw [if_pos (by decide +kernel)]
  exact fun _ _ => ⟨by decide +kernel, fun _ => by decide +kernel⟩

/-- A segment whose end is past 2^32. -/
def wrappedElf : FileBuffer :=
  elfFile 0 [{ type := ptLoad, offset := 84, paddr := 0xFFFFFFF0, filesz := 4, memsz := 32 }]
    (fileBytes 4 0x00000073)

/-- The file cut off behind its header, the file in a memory of 512 KB, and the segment
that wraps. -/
theorem load_out_of_bounds :
    ¬ InBounds ((init 1 0x200000 ⟨fun _ => 0⟩).loadProgram (smallElf.take 52)) ∧
      ¬ InBounds ((init 1 0x80000 ⟨fun _ => 0⟩).loadProgram smallElf) ∧
      ¬ InBounds ((init 1 0x200000 ⟨fun _ => 0⟩).loadProgram wrappedElf) := by
  refine ⟨?_, ?_, ?_⟩
  · exact not_inBounds (e := .fileRead) (by decide +kernel) rfl
  · exact not_inBounds (e := .memoryWrite) (by decide +kernel) rfl
  · exact not_inBounds (e := .memoryWrite) (by decide +kernel) rfl

end Simulator
end RiscvEmulator.System
