import Mathlib.Data.BitVec
import Mathlib.Data.Nat.Bitwise
import Mathlib.Tactic.Tauto

/-! # Machine words and their addresses

The code addresses memory by byte (`uint32_t`); every cache and every backing
store moves whole words. `wordOf` is the word an address lies in and `byteAddr`
the address of a word, so that a memory is a function of `WordAddr` with no
alignment to carry around. -/
namespace RiscvEmulator.Memory

abbrev Byte := BitVec 8
abbrev Word := BitVec 32
/-- The number of a 32-bit word in the 2^32-byte address space. -/
abbrev WordAddr := BitVec 30

def byteAddr (x : WordAddr) : Word := BitVec.ofNat 32 (4 * x.toNat)

def wordOf (a : Word) : WordAddr := BitVec.ofNat 30 (a.toNat / 4)

/-- Word alignment. -/
def Aligned (a : Word) : Prop := a.toNat % 4 = 0

instance (a : Word) : Decidable (Aligned a) := inferInstanceAs (Decidable (_ = _))

@[simp] theorem byteAddr_toNat (x : WordAddr) : (byteAddr x).toNat = 4 * x.toNat := by
  have := x.isLt
  simp only [byteAddr, BitVec.toNat_ofNat]
  omega

@[simp] theorem wordOf_toNat (a : Word) : (wordOf a).toNat = a.toNat / 4 := by
  have := a.isLt
  simp only [wordOf, BitVec.toNat_ofNat]
  omega

@[simp] theorem wordOf_byteAddr (x : WordAddr) : wordOf (byteAddr x) = x :=
  BitVec.eq_of_toNat_eq (by simp)

theorem byteAddr_wordOf {a : Word} (h : Aligned a) : byteAddr (wordOf a) = a :=
  BitVec.eq_of_toNat_eq (by
    have h' : a.toNat % 4 = 0 := h
    simp only [byteAddr_toNat, wordOf_toNat]
    omega)

theorem aligned_byteAddr (x : WordAddr) : Aligned (byteAddr x) := by
  simp [Aligned]

/-- The next word is four bytes on, also around the end of the address space. -/
theorem byteAddr_add_four (x : WordAddr) : byteAddr x + 4 = byteAddr (x + 1) :=
  BitVec.eq_of_toNat_eq (by
    simp only [BitVec.toNat_add, byteAddr_toNat, BitVec.ofNat_eq_ofNat, BitVec.toNat_ofNat]
    omega)

/-! ## Tests with masks -/

theorem testBit_mask (v : Word) (k : Nat) (hk : k < 32) :
    (v &&& BitVec.twoPow 32 k != 0) = v.getLsbD k := by
  rw [BitVec.and_twoPow]
  cases hbit : v.getLsbD k with
  | false => simp
  | true =>
    simp only [if_true, bne_iff_ne, ne_eq]
    intro h
    have := congrArg BitVec.toNat h
    rw [BitVec.toNat_twoPow, Nat.mod_eq_of_lt (Nat.pow_lt_pow_right (by decide) hk)] at this
    exact absurd this (Nat.ne_of_gt (Nat.two_pow_pos k))

theorem mask_or (v m m' : Word) :
    (v &&& (m ||| m') != 0) = ((v &&& m != 0) || (v &&& m' != 0)) := by
  rw [BitVec.and_or_distrib_left, Bool.eq_iff_iff]
  simp only [bne_iff_ne, ne_eq, BitVec.ofNat_eq_ofNat, BitVec.or_eq_zero_iff, Bool.or_eq_true]
  tauto

theorem testBit_shift (v : Word) (k : Nat) : ((v >>> k) &&& 0x1 != 0) = v.getLsbD k := by
  have h := testBit_mask (v >>> k) 0 (by decide)
  rwa [BitVec.getLsbD_ushiftRight, Nat.add_zero] at h

/-- Clearing the bits of a mask takes away what they hold. -/
theorem toNat_and_not {w : Nat} (x m : BitVec w) :
    (x &&& ~~~m).toNat = x.toNat - (x &&& m).toNat := by
  have hdisjoint : (x &&& ~~~m) &&& (x &&& m) = 0 := by ext i hi; grind
  have hor : x = (x &&& ~~~m) ||| (x &&& m) := by ext i hi; grind
  have hsum : x = (x &&& ~~~m) + (x &&& m) := by
    rwa [BitVec.add_eq_or_of_and_eq_zero _ _ hdisjoint]
  have hle : (x &&& m).toNat ≤ x.toNat := by
    rw [BitVec.toNat_and]
    exact Nat.and_le_left
  have hsub : x &&& ~~~m = x - (x &&& m) := BitVec.eq_sub_iff_add_eq.mpr hsum.symm
  rw [hsub, BitVec.toNat_sub_of_le hle]

end RiscvEmulator.Memory
