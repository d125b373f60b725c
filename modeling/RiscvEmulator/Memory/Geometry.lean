import Mathlib.Data.Nat.Log
import RiscvEmulator.Memory.Word

/-! # Cache geometry

`CacheConfig` with the assertions of `calculate_parameters` and the address
helpers of `Cache.h`. A `Geometry` is a configuration that passes them and whose
blocks hold whole words. The lemmas say that an address splits into a line and
an index into it, and that the address of a block can be put together again
from its set and tag. -/
namespace RiscvEmulator.Memory

/-- `is_instruction_cache` is read nowhere and left out. -/
structure CacheConfig where
  size : Word
  associativity : Word
  blockSize : Word
  accessLatency : Word
  missPenalty : Word
deriving DecidableEq, Repr

namespace CacheConfig

def numSets (c : CacheConfig) : Nat := (c.size / (c.blockSize * c.associativity)).toNat
def blockOffsetBits (c : CacheConfig) : Nat := c.blockSize.toNat.log2
def setIndexBits (c : CacheConfig) : Nat := c.numSets.log2
def tagShift (c : CacheConfig) : Nat := c.blockOffsetBits + c.setIndexBits

/-- What `calculate_parameters` asserts. The product wraps at 32 bits; where it
wraps to 0 the remainder is undefined and the configuration is not accepted. -/
structure Accepted (c : CacheConfig) : Prop where
  size_pos : 0 < c.size
  blockSize_pos : 0 < c.blockSize
  blockSize_pow : c.blockSize &&& (c.blockSize - 1) = 0
  associativity_pos : 0 < c.associativity
  product_ne : c.blockSize * c.associativity ≠ 0
  divides : c.size % (c.blockSize * c.associativity) = 0
  numSets_pos : 0 < c.numSets
  blockOffsetBits_pos : 0 < c.blockOffsetBits

instance (c : CacheConfig) : Decidable c.Accepted :=
  decidable_of_iff (0 < c.size ∧ 0 < c.blockSize ∧ c.blockSize &&& (c.blockSize - 1) = 0 ∧
      0 < c.associativity ∧ c.blockSize * c.associativity ≠ 0 ∧
      c.size % (c.blockSize * c.associativity) = 0 ∧ 0 < c.numSets ∧ 0 < c.blockOffsetBits)
    ⟨fun ⟨h1, h2, h3, h4, h5, h6, h7, h8⟩ => ⟨h1, h2, h3, h4, h5, h6, h7, h8⟩,
      fun ⟨h1, h2, h3, h4, h5, h6, h7, h8⟩ => ⟨h1, h2, h3, h4, h5, h6, h7, h8⟩⟩

end CacheConfig

/-- A configuration the constructor accepts, with blocks of at least one word. -/
structure Geometry extends CacheConfig where
  accepted : toCacheConfig.Accepted
  wordBlocks : 4 ≤ blockSize.toNat

namespace Geometry
variable (g : Geometry)

def ways : Nat := g.associativity.toNat
def wordsPerBlock : Nat := g.blockSize.toNat / 4

def getTag (addr : Word) : Word := addr >>> g.tagShift
def getSetIndex (addr : Word) : Word :=
  (addr >>> g.blockOffsetBits) &&& ((1 : Word) <<< g.setIndexBits - 1)
def getBlockOffset (addr : Word) : Word := addr &&& (g.blockSize - 1)
def getBlockAddress (addr : Word) : Word := addr &&& ~~~(g.blockSize - 1)
def wordIndex (addr : Word) : Nat := (g.getBlockOffset addr).toNat / 4

/-! ## Sizes -/

theorem ways_pos : 0 < g.ways := by
  have h := g.accepted.associativity_pos
  simpa [ways, BitVec.lt_def] using h

theorem numSets_pos : 0 < g.numSets := g.accepted.numSets_pos

theorem blockSize_eq : g.blockSize.toNat = 2 ^ g.blockOffsetBits := by
  have hne : g.blockSize.toNat ≠ 0 := by
    have := g.wordBlocks
    omega
  have hpow : g.blockSize.toNat &&& (g.blockSize.toNat - 1) = 0 := by
    have h := congrArg BitVec.toNat g.accepted.blockSize_pow
    have hs : (g.blockSize - 1).toNat = g.blockSize.toNat - 1 := by
      have := g.blockSize.isLt
      simp only [BitVec.toNat_sub, BitVec.ofNat_eq_ofNat, BitVec.toNat_ofNat]
      omega
    rwa [BitVec.toNat_and, hs] at h
  obtain ⟨k, hk⟩ := (Nat.and_sub_one_eq_zero_iff_isPowerOfTwo hne).mp hpow
  rw [CacheConfig.blockOffsetBits, hk, Nat.log2_two_pow]

theorem two_le_blockOffsetBits : 2 ≤ g.blockOffsetBits := by
  have h := g.wordBlocks
  rw [blockSize_eq] at h
  by_contra hlt
  have : 2 ^ g.blockOffsetBits ≤ 2 ^ 1 := Nat.pow_le_pow_right (by omega) (by omega)
  omega

theorem blockSize_words : g.blockSize.toNat = 4 * g.wordsPerBlock := by
  obtain ⟨k, hk⟩ := Nat.exists_eq_add_of_le g.two_le_blockOffsetBits
  simp only [wordsPerBlock, blockSize_eq, hk, Nat.pow_add]
  omega

theorem wordsPerBlock_pos : 0 < g.wordsPerBlock := by
  have h := g.wordBlocks
  have := g.blockSize_words
  omega

/-- The sets in use are those `get_set_index` can name, not more than there are. -/
theorem two_pow_setIndexBits_le : 2 ^ g.setIndexBits ≤ g.numSets :=
  Nat.log2_self_le (by have := g.numSets_pos; omega)

/-- A product that wraps is still a multiple of the block size. -/
theorem numSets_mul_blockSize_le : g.numSets * g.blockSize.toNat ≤ g.size.toNat := by
  have hne : (g.blockSize * g.associativity).toNat ≠ 0 := fun h =>
    g.accepted.product_ne (BitVec.eq_of_toNat_eq h)
  have hb : g.blockOffsetBits ≤ 32 := by
    have h := g.blockSize.isLt
    rw [blockSize_eq] at h
    exact Nat.le_of_lt ((Nat.pow_lt_pow_iff_right (by omega)).mp h)
  have hdvd : g.blockSize.toNat ∣ (g.blockSize * g.associativity).toNat := by
    rw [BitVec.toNat_mul, Nat.dvd_mod_iff]
    · exact Nat.dvd_mul_right _ _
    · rw [blockSize_eq]; exact Nat.pow_dvd_pow 2 hb
  have hle := Nat.le_of_dvd (by omega) hdvd
  calc g.numSets * g.blockSize.toNat
      ≤ g.numSets * (g.blockSize * g.associativity).toNat := Nat.mul_le_mul_left _ hle
    _ ≤ g.size.toNat := by
      simp only [CacheConfig.numSets, BitVec.toNat_udiv]
      exact Nat.div_mul_le_self _ _

theorem tagShift_lt : g.tagShift < 32 := by
  have h := g.numSets_mul_blockSize_le
  have hp := g.two_pow_setIndexBits_le
  have hs := g.size.isLt
  rw [blockSize_eq] at h
  have hlt : 2 ^ g.tagShift < 2 ^ 32 := by
    calc 2 ^ g.tagShift = 2 ^ g.setIndexBits * 2 ^ g.blockOffsetBits := by
          rw [CacheConfig.tagShift, Nat.pow_add, Nat.mul_comm]
      _ ≤ g.numSets * 2 ^ g.blockOffsetBits := Nat.mul_le_mul_right _ hp
      _ < 2 ^ 32 := by omega
  exact (Nat.pow_lt_pow_iff_right (by omega)).mp hlt

/-! ## The address helpers as arithmetic -/

theorem getTag_toNat (a : Word) : (g.getTag a).toNat = a.toNat / 2 ^ g.tagShift := by
  rw [getTag, BitVec.toNat_ushiftRight, Nat.shiftRight_eq_div_pow]

theorem getSetIndex_toNat (a : Word) :
    (g.getSetIndex a).toNat = a.toNat / 2 ^ g.blockOffsetBits % 2 ^ g.setIndexBits := by
  have hb : g.setIndexBits < 32 := by
    have := g.tagShift_lt
    have : g.tagShift = g.blockOffsetBits + g.setIndexBits := rfl
    omega
  have hlt : 2 ^ g.setIndexBits < 2 ^ 32 := Nat.pow_lt_pow_right (by omega) hb
  have hpos : 0 < 2 ^ g.setIndexBits := Nat.two_pow_pos _
  have hm : ((1 : Word) <<< g.setIndexBits - 1).toNat = 2 ^ g.setIndexBits - 1 := by
    simp only [BitVec.toNat_sub, BitVec.toNat_shiftLeft, BitVec.ofNat_eq_ofNat,
      BitVec.toNat_ofNat, Nat.one_mod, Nat.shiftLeft_eq]
    omega
  rw [getSetIndex, BitVec.toNat_and, BitVec.toNat_ushiftRight, hm,
    Nat.and_two_pow_sub_one_eq_mod, Nat.shiftRight_eq_div_pow]

theorem getSetIndex_lt (a : Word) : (g.getSetIndex a).toNat < g.numSets := by
  rw [getSetIndex_toNat]
  exact Nat.lt_of_lt_of_le (Nat.mod_lt _ (Nat.two_pow_pos _)) g.two_pow_setIndexBits_le

/-- The set of an address. The bounds check of `find_entry` never fails. -/
def setOf (a : Word) : Fin g.numSets := ⟨(g.getSetIndex a).toNat, g.getSetIndex_lt a⟩

theorem getBlockOffset_toNat (a : Word) :
    (g.getBlockOffset a).toNat = a.toNat % g.blockSize.toNat := by
  have hs : (g.blockSize - 1).toNat = g.blockSize.toNat - 1 := by
    have := g.blockSize.isLt
    have := g.wordBlocks
    simp only [BitVec.toNat_sub, BitVec.ofNat_eq_ofNat, BitVec.toNat_ofNat]
    omega
  rw [getBlockOffset, BitVec.toNat_and, hs, blockSize_eq, Nat.and_two_pow_sub_one_eq_mod]

/-- The two masks cut an address in two. -/
theorem getBlockAddress_toNat (a : Word) :
    (g.getBlockAddress a).toNat = a.toNat - a.toNat % g.blockSize.toNat := by
  have hcut : (g.getBlockAddress a).toNat = a.toNat - (g.getBlockOffset a).toNat :=
    toNat_and_not a (g.blockSize - 1)
  rw [hcut, getBlockOffset_toNat]

/-! ## Words and lines -/

/-- A line is known by its set and its tag. -/
def line (x : WordAddr) : Fin g.numSets × Word := (g.setOf (byteAddr x), g.getTag (byteAddr x))

/-- The place of a word in its line. -/
def index (x : WordAddr) : Nat := x.toNat % g.wordsPerBlock

/-- The first word of the line. -/
def base (x : WordAddr) : WordAddr := x - BitVec.ofNat 30 (g.index x)

/-- `(tag << tag_shift) | (set_index << block_offset_bits)`, where a block came from. -/
def blockAddressOf (s : Fin g.numSets) (tag : Word) : Word :=
  (tag <<< g.tagShift) ||| (BitVec.ofNat 32 s.val <<< g.blockOffsetBits)

theorem wordIndex_byteAddr (x : WordAddr) : g.wordIndex (byteAddr x) = g.index x := by
  have := g.wordsPerBlock_pos
  rw [wordIndex, getBlockOffset_toNat, byteAddr_toNat, blockSize_words, Nat.mul_mod_mul_left,
    index]
  omega

theorem index_lt (x : WordAddr) : g.index x < g.wordsPerBlock :=
  Nat.mod_lt _ g.wordsPerBlock_pos

theorem wordsPerBlock_le : g.wordsPerBlock ≤ 2 ^ 30 := by
  have h := g.blockSize.isLt
  rw [blockSize_words] at h
  omega

theorem base_toNat (x : WordAddr) : (g.base x).toNat = x.toNat - g.index x := by
  have hle : g.index x ≤ x.toNat := Nat.mod_le _ _
  have := x.isLt
  simp only [base, BitVec.toNat_sub, BitVec.toNat_ofNat]
  omega

theorem getBlockAddress_byteAddr (x : WordAddr) :
    g.getBlockAddress (byteAddr x) = byteAddr (g.base x) :=
  BitVec.eq_of_toNat_eq (by
    rw [getBlockAddress_toNat, byteAddr_toNat, byteAddr_toNat, base_toNat, blockSize_words,
      Nat.mul_mod_mul_left, index]
    omega)

private theorem byteAddr_div (x : WordAddr) :
    (byteAddr x).toNat / 2 ^ g.blockOffsetBits = x.toNat / g.wordsPerBlock := by
  rw [← blockSize_eq, blockSize_words, byteAddr_toNat, Nat.mul_div_mul_left _ _ (by omega)]

private theorem getTag_byteAddr (x : WordAddr) : (g.getTag (byteAddr x)).toNat =
    x.toNat / g.wordsPerBlock / 2 ^ g.setIndexBits := by
  rw [getTag_toNat, CacheConfig.tagShift, Nat.pow_add, ← Nat.div_div_eq_div_mul, byteAddr_div]

private theorem setOf_byteAddr (x : WordAddr) : (g.setOf (byteAddr x)).val =
    x.toNat / g.wordsPerBlock % 2 ^ g.setIndexBits := by
  have h := g.getSetIndex_toNat (byteAddr x)
  rwa [byteAddr_div] at h

/-- Two words share a line exactly when they are in the same block. -/
theorem line_eq_iff {x y : WordAddr} :
    g.line x = g.line y ↔ x.toNat / g.wordsPerBlock = y.toNat / g.wordsPerBlock := by
  constructor
  · intro h
    obtain ⟨hs, ht⟩ := Prod.mk.injEq .. ▸ h
    have hs' := congrArg Fin.val hs
    have ht' := congrArg BitVec.toNat ht
    rw [setOf_byteAddr, setOf_byteAddr] at hs'
    rw [getTag_byteAddr, getTag_byteAddr] at ht'
    rw [← Nat.div_add_mod (x.toNat / g.wordsPerBlock) (2 ^ g.setIndexBits), hs', ht',
      Nat.div_add_mod]
  · intro h
    refine Prod.ext (Fin.ext ?_) (BitVec.eq_of_toNat_eq ?_)
    · simp only [line, setOf_byteAddr, h]
    · simp only [line, getTag_byteAddr, h]

/-- A block goes back to where it came from. -/
theorem blockAddressOf_line (x : WordAddr) :
    g.blockAddressOf (g.line x).1 (g.line x).2 = byteAddr (g.base x) := by
  rw [← getBlockAddress_byteAddr]
  refine BitVec.eq_of_toNat_eq ?_
  have ha := (byteAddr x).isLt
  have hts : g.tagShift = g.setIndexBits + g.blockOffsetBits := Nat.add_comm _ _
  have hdiv : (byteAddr x).toNat / 2 ^ g.tagShift =
      (byteAddr x).toNat / 2 ^ g.blockOffsetBits / 2 ^ g.setIndexBits := by
    rw [hts, Nat.pow_add, Nat.mul_comm, Nat.div_div_eq_div_mul]
  simp only [blockAddressOf, line, setOf, BitVec.toNat_or, BitVec.toNat_shiftLeft,
    BitVec.toNat_ofNat, getTag_toNat, getSetIndex_toNat, getBlockAddress_toNat, blockSize_eq,
    hdiv]
  generalize (byteAddr x).toNat = a at ha
  have hq : a / 2 ^ g.blockOffsetBits * 2 ^ g.blockOffsetBits = a - a % 2 ^ g.blockOffsetBits := by
    have := Nat.div_add_mod' a (2 ^ g.blockOffsetBits)
    omega
  generalize a / 2 ^ g.blockOffsetBits = q at hq
  have hlt : q % 2 ^ g.setIndexBits < 2 ^ g.setIndexBits := Nat.mod_lt _ (Nat.two_pow_pos _)
  have hor : (q / 2 ^ g.setIndexBits) <<< g.tagShift |||
      (q % 2 ^ g.setIndexBits) <<< g.blockOffsetBits = q * 2 ^ g.blockOffsetBits := by
    rw [hts, Nat.shiftLeft_add, ← Nat.shiftLeft_or_distrib,
      ← Nat.shiftLeft_add_eq_or_of_lt hlt, Nat.shiftLeft_eq, Nat.shiftLeft_eq,
      Nat.div_add_mod']
  have hmod : q * 2 ^ g.blockOffsetBits < 2 ^ 32 := by omega
  have hs : q % 2 ^ g.setIndexBits < 2 ^ 32 := by
    have h1 := Nat.mod_le q (2 ^ g.setIndexBits)
    have h2 := Nat.le_mul_of_pos_right q (Nat.two_pow_pos g.blockOffsetBits)
    omega
  rw [Nat.mod_eq_of_lt hs, ← Nat.or_mod_two_pow, hor, Nat.mod_eq_of_lt hmod, hq]

theorem wordsPerBlock_dvd : g.wordsPerBlock ∣ 2 ^ 30 := by
  obtain ⟨k, hk⟩ := Nat.exists_eq_add_of_le g.two_le_blockOffsetBits
  have hw : g.wordsPerBlock = 2 ^ k := by
    have h := g.blockSize_words
    rw [blockSize_eq, hk, Nat.pow_add] at h
    omega
  have hle := g.wordsPerBlock_le
  rw [hw] at hle ⊢
  exact Nat.pow_dvd_pow 2 ((Nat.pow_le_pow_iff_right (by omega)).mp hle)

/-- The offsets from the first word of a line on are the words of the line. -/
theorem line_eq_iff_offset {x y : WordAddr} :
    g.line y = g.line x ↔ (y - g.base x).toNat < g.wordsPerBlock := by
  have hx := x.isLt
  have hy := y.isLt
  have hpos := g.wordsPerBlock_pos
  have hdx := Nat.div_add_mod' x.toNat g.wordsPerBlock
  have hmx := Nat.mod_lt x.toNat hpos
  have hend : x.toNat / g.wordsPerBlock * g.wordsPerBlock + g.wordsPerBlock ≤ 2 ^ 30 := by
    obtain ⟨k, hk⟩ := g.wordsPerBlock_dvd
    rw [hk] at hx ⊢
    have := Nat.div_lt_of_lt_mul hx
    rw [← Nat.succ_mul, Nat.mul_comm g.wordsPerBlock k]
    exact Nat.mul_le_mul_right _ this
  rw [line_eq_iff, BitVec.toNat_sub, base_toNat, index]
  constructor
  · intro h
    have hdy := Nat.div_add_mod' y.toNat g.wordsPerBlock
    have hmy := Nat.mod_lt y.toNat hpos
    rw [h] at hdy
    omega
  · intro h
    refine Nat.div_eq_of_lt_le ?_ ?_
    · omega
    · rw [Nat.succ_mul]; omega

/-- The offset of a word of the line is its index. -/
theorem offset_eq_index {x y : WordAddr} (h : g.line y = g.line x) :
    (y - g.base x).toNat = g.index y := by
  have hx := x.isLt
  have hy := y.isLt
  have hdx := Nat.div_add_mod' x.toNat g.wordsPerBlock
  have hdy := Nat.div_add_mod' y.toNat g.wordsPerBlock
  rw [(line_eq_iff g).mp h] at hdy
  rw [BitVec.toNat_sub, base_toNat, index, index]
  omega

theorem base_add_index {x y : WordAddr} (h : g.line y = g.line x) :
    g.base x + BitVec.ofNat 30 (g.index y) = y := by
  rw [← g.offset_eq_index h, BitVec.ofNat_toNat, BitVec.setWidth_eq, BitVec.add_comm,
    BitVec.sub_add_cancel]

theorem index_inj {x y : WordAddr} (h : g.line y = g.line x) (hi : g.index y = g.index x) :
    y = x := by
  rw [← g.base_add_index h, hi, g.base_add_index rfl]

/-- The words written back with a block are those of its line. -/
theorem line_base_add {x : WordAddr} {i : Nat} (h : i < g.wordsPerBlock) :
    g.line (g.base x + BitVec.ofNat 30 i) = g.line x := by
  have := g.wordsPerBlock_le
  rw [line_eq_iff_offset, BitVec.add_comm, BitVec.add_sub_cancel, BitVec.toNat_ofNat]
  omega

/-! ## Addresses inside a word -/

/-- An address and the word it lies in have the same set, tag, index and block. -/
theorem address_wordOf (a : Word) :
    g.setOf (byteAddr (wordOf a)) = g.setOf a ∧ g.getTag (byteAddr (wordOf a)) = g.getTag a ∧
      g.wordIndex (byteAddr (wordOf a)) = g.wordIndex a ∧
      g.getBlockAddress (byteAddr (wordOf a)) = g.getBlockAddress a := by
  have hdiv : (byteAddr (wordOf a)).toNat / 2 ^ g.blockOffsetBits =
      a.toNat / 2 ^ g.blockOffsetBits := by
    rw [byteAddr_div, wordOf_toNat, Nat.div_div_eq_div_mul, ← blockSize_words, blockSize_eq]
  have hts : 2 ^ g.tagShift = 2 ^ g.blockOffsetBits * 2 ^ g.setIndexBits := by
    rw [CacheConfig.tagShift, Nat.pow_add]
  have hmod : (byteAddr (wordOf a)).toNat % g.blockSize.toNat / 4 =
      a.toNat % g.blockSize.toNat / 4 := by
    rw [byteAddr_toNat, wordOf_toNat, blockSize_words, Nat.mul_mod_mul_left, Nat.mod_mul]
    have := Nat.mod_lt a.toNat (show 0 < 4 by omega)
    omega
  refine ⟨Fin.ext ?_, BitVec.eq_of_toNat_eq ?_, ?_, BitVec.eq_of_toNat_eq ?_⟩
  · simp only [setOf, getSetIndex_toNat, hdiv]
  · rw [getTag_toNat, getTag_toNat, hts, ← Nat.div_div_eq_div_mul, ← Nat.div_div_eq_div_mul, hdiv]
  · rw [wordIndex, wordIndex, getBlockOffset_toNat, getBlockOffset_toNat, hmod]
  · rw [getBlockAddress_toNat, getBlockAddress_toNat]
    have h1 := Nat.div_add_mod' (byteAddr (wordOf a)).toNat g.blockSize.toNat
    have h2 := Nat.div_add_mod' a.toNat g.blockSize.toNat
    rw [blockSize_eq] at h1 h2 ⊢
    rw [hdiv] at h1
    omega

end Geometry

/-! ## The caches of the Simulator -/

/-- The private instruction and data caches of a core: 16 sets of 4 ways. -/
def l1Geometry : Geometry where
  size := 4096
  associativity := 4
  blockSize := 64
  accessLatency := 1
  missPenalty := 10
  accepted := by decide
  wordBlocks := by decide

/-- The shared cache: 32 sets of 8 ways. -/
def l2Geometry : Geometry where
  size := 16384
  associativity := 8
  blockSize := 64
  accessLatency := 5
  missPenalty := 50
  accepted := by decide
  wordBlocks := by decide

end RiscvEmulator.Memory
