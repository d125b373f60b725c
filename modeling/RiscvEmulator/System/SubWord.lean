import RiscvEmulator.Isa.LoadStore
import RiscvEmulator.System.Step

/-! # Bytes and halfwords of a word

Taking a byte or halfword out of a word and putting one into it, as the cached
loads and stores do, is loading from and storing into a little-endian array. -/
namespace RiscvEmulator.System
open Memory Isa

namespace Simulator

/-- What a load takes out of the word its address lies in. -/
def extractWord (op : LoadOp) (addr temp : Word) : Word :=
  match op with
  | .lb => (byteOf addr temp).signExtend 32
  | .lh => (halfwordOf addr temp).signExtend 32
  | .lw => temp
  | .lbu => (byteOf addr temp).setWidth 32
  | .lhu => (halfwordOf addr temp).setWidth 32

/-- What a store makes of the word its address lies in. -/
def insertWord (op : StoreOp) (addr temp v : Word) : Word :=
  match op with
  | .sb => insertByte addr temp v
  | .sh => insertHalfword addr temp v
  | .sw => v

/-! ## Places in a word -/

theorem toNat_and_3 (addr : Word) : (addr &&& 0x3).toNat = addr.toNat % 4 := by
  rw [BitVec.toNat_and]
  exact Nat.and_two_pow_sub_one_eq_mod addr.toNat 2

theorem byteShift_toNat (addr : Word) : ((addr &&& 0x3) * 8).toNat = 8 * (addr.toNat % 4) := by
  have h : addr.toNat % 4 < 4 := Nat.mod_lt _ (by decide)
  rw [BitVec.toNat_mul, toNat_and_3, show (8 : Word).toNat = 8 from rfl]
  omega

theorem low_iff (addr : Word) : (addr &&& 0x3 == 0) = true ↔ addr.toNat % 4 = 0 := by
  rw [beq_iff_eq, ← BitVec.toNat_inj, toNat_and_3]
  rfl

/-- Clearing the low two bits gives the address of the word. -/
theorem aligned_eq (addr : Word) : aligned addr = byteAddr (wordOf addr) := by
  apply BitVec.eq_of_toNat_eq
  have hlow : (addr &&& 0x3#32).toNat = addr.toNat % 4 := toNat_and_3 addr
  unfold aligned
  rw [toNat_and_not, hlow, byteAddr_toNat, wordOf_toNat]
  omega

theorem getLsbD_mask (k t : Nat) (h : t < 32) :
    (BitVec.ofNat 32 (2 ^ k - 1)).getLsbD t = decide (t < k) := by
  rw [BitVec.getLsbD_ofNat, Nat.testBit_two_pow_sub_one]
  simp [h]

/-! ## Taking out -/

theorem byteOf_word (mem : Bytes) (addr : Word) :
    byteOf addr (mem.word (4 * (addr.toNat / 4))) = mem addr.toNat := by
  have hk : addr.toNat % 4 < 4 := Nat.mod_lt _ (by decide)
  unfold byteOf
  rw [byteShift_toNat]
  refine BitVec.eq_of_getLsbD_eq fun t ht => ?_
  rw [BitVec.getLsbD_setWidth, BitVec.getLsbD_ushiftRight, Bytes.getLsbD_word _ _ (by omega)]
  simp only [ht, decide_true, Bool.true_and]
  congr 2 <;> omega

theorem halfwordOf_word (mem : Bytes) {addr : Word} (ha : addr.toNat % 2 = 0) :
    halfwordOf addr (mem.word (4 * (addr.toNat / 4))) = mem.halfword addr.toNat := by
  refine BitVec.eq_of_getLsbD_eq fun t ht => ?_
  rw [Bytes.getLsbD_halfword _ _ ht]
  unfold halfwordOf
  by_cases hlow : addr.toNat % 4 = 0
  · rw [if_pos ((low_iff addr).mpr hlow), BitVec.getLsbD_setWidth,
      Bytes.getLsbD_word _ _ (by omega)]
    simp only [ht, decide_true, Bool.true_and]
    have hbyte : 4 * (addr.toNat / 4) = addr.toNat := by omega
    rw [hbyte]
  · rw [if_neg fun h => hlow ((low_iff addr).mp h), BitVec.getLsbD_setWidth,
      BitVec.getLsbD_ushiftRight, Bytes.getLsbD_word _ _ (by omega)]
    simp only [ht, decide_true, Bool.true_and]
    have hbyte : 4 * (addr.toNat / 4) + (16 + t) / 8 = addr.toNat + t / 8 := by omega
    have hbit : (16 + t) % 8 = t % 8 := by omega
    rw [hbyte, hbit]

/-- A load of the array takes its value out of a word of it. -/
theorem extractWord_word (op : LoadOp) (mem : Bytes) {addr : Word}
    (ha : addr.toNat % op.size = 0) :
    extractWord op addr (mem.word (4 * (addr.toNat / 4))) = op.eval mem addr.toNat := by
  cases op with
  | lb | lbu =>
    unfold extractWord
    rw [byteOf_word]
    rfl
  | lh | lhu =>
    unfold extractWord
    rw [halfwordOf_word mem ha]
    rfl
  | lw =>
    have h : 4 * (addr.toNat / 4) = addr.toNat := by
      change addr.toNat % 4 = 0 at ha
      omega
    unfold extractWord
    rw [h]
    rfl

/-! ## Putting in -/

theorem getLsbD_store_word (mem : Bytes) (a size b : Nat) (v : Word) {j : Nat} (hj : j < 32) :
    ((mem.store a size v).word b).getLsbD j =
      if a ≤ b + j / 8 ∧ b + j / 8 < a + size then v.getLsbD (8 * (b + j / 8 - a) + j % 8)
      else (mem.word b).getLsbD j := by
  rw [Bytes.getLsbD_word _ _ hj, Bytes.getLsbD_word _ _ hj]
  unfold Bytes.store
  split
  · rw [BitVec.getLsbD_extractLsb']
    simp [Nat.mod_lt]
  · rfl

/-- Bit `j` of a word part of which has been replaced under a shifted mask. -/
theorem getLsbD_replace (temp v : Word) (k w : Nat) {j : Nat} (hj : j < 32) :
    ((temp &&& ~~~(BitVec.ofNat 32 (2 ^ w - 1) <<< k)) |||
        ((v &&& BitVec.ofNat 32 (2 ^ w - 1)) <<< k)).getLsbD j =
      if k ≤ j ∧ j < k + w then v.getLsbD (j - k) else temp.getLsbD j := by
  rw [BitVec.getLsbD_or, BitVec.getLsbD_and, BitVec.getLsbD_not, BitVec.getLsbD_shiftLeft,
    BitVec.getLsbD_shiftLeft, BitVec.getLsbD_and, getLsbD_mask w _ (by omega)]
  by_cases hlow : j < k
  · rw [if_neg (by omega)]
    simp [hlow, hj]
  · by_cases hin : j - k < w
    · rw [if_pos (by omega)]
      simp [hlow, hj, hin]
    · rw [if_neg (by omega)]
      simp [hlow, hj, hin]

theorem getLsbD_insertByte (addr temp v : Word) {j : Nat} (hj : j < 32) :
    (insertByte addr temp v).getLsbD j =
      if j / 8 = addr.toNat % 4 then v.getLsbD (j % 8) else temp.getLsbD j := by
  have h := getLsbD_replace temp v (8 * (addr.toNat % 4)) 8 hj
  rw [← byteShift_toNat] at h
  refine h.trans ?_
  rw [byteShift_toNat]
  by_cases hin : j / 8 = addr.toNat % 4
  · have hbit : j - 8 * (addr.toNat % 4) = j % 8 := by omega
    rw [if_pos (by omega), if_pos hin, hbit]
  · rw [if_neg (by omega), if_neg hin]

theorem getLsbD_insertHalfword {addr : Word} (temp v : Word) (ha : addr.toNat % 2 = 0) {j : Nat}
    (hj : j < 32) : (insertHalfword addr temp v).getLsbD j =
      if j / 16 = addr.toNat % 4 / 2 then v.getLsbD (j % 16) else temp.getLsbD j := by
  unfold insertHalfword
  by_cases hlow : addr.toNat % 4 = 0
  · rw [if_pos ((low_iff addr).mpr hlow), hlow]
    have h := getLsbD_replace temp v 0 16 hj
    rw [BitVec.shiftLeft_zero, BitVec.shiftLeft_zero] at h
    refine h.trans ?_
    by_cases hin : j / 16 = 0
    · have hbit : j - 0 = j % 16 := by omega
      rw [if_pos (by omega), if_pos hin, hbit]
    · rw [if_neg (by omega), if_neg hin]
  · rw [if_neg fun h => hlow ((low_iff addr).mp h)]
    have h := getLsbD_replace temp v 16 16 hj
    refine h.trans ?_
    by_cases hin : j / 16 = addr.toNat % 4 / 2
    · have hbit : j - 16 = j % 16 := by omega
      rw [if_pos (by omega), if_pos hin, hbit]
    · rw [if_neg (by omega), if_neg hin]

/-- A store into the array puts its operand into a word of it. -/
theorem insertWord_word (op : StoreOp) (mem : Bytes) {addr : Word} (v : Word)
    (ha : addr.toNat % op.size = 0) :
    insertWord op addr (mem.word (4 * (addr.toNat / 4))) v =
      (op.apply mem addr.toNat v).word (4 * (addr.toNat / 4)) := by
  refine BitVec.eq_of_getLsbD_eq fun j hj => ?_
  unfold StoreOp.apply
  rw [getLsbD_store_word _ _ _ _ _ hj]
  cases op with
  | sb =>
    have hsize : StoreOp.sb.size = 1 := rfl
    unfold insertWord
    rw [getLsbD_insertByte _ _ _ hj]
    by_cases hin : j / 8 = addr.toNat % 4
    · have hbit : 8 * (4 * (addr.toNat / 4) + j / 8 - addr.toNat) + j % 8 = j % 8 := by omega
      rw [if_pos hin, if_pos (by omega), hbit]
    · rw [if_neg hin, if_neg (by omega)]
  | sh =>
    have hsize : StoreOp.sh.size = 2 := rfl
    rw [hsize] at ha
    unfold insertWord
    rw [getLsbD_insertHalfword _ _ ha hj]
    by_cases hin : j / 16 = addr.toNat % 4 / 2
    · have hbit : 8 * (4 * (addr.toNat / 4) + j / 8 - addr.toNat) + j % 8 = j % 16 := by omega
      rw [if_pos hin, if_pos (by omega), hbit]
    · rw [if_neg hin, if_neg (by omega)]
  | sw =>
    have hsize : StoreOp.sw.size = 4 := rfl
    rw [hsize] at ha
    have hbit : 8 * (4 * (addr.toNat / 4) + j / 8 - addr.toNat) + j % 8 = j := by omega
    unfold insertWord
    rw [if_pos (by omega), hbit]

/-- The other words stay. -/
theorem apply_word_other (op : StoreOp) (mem : Bytes) {addr : Word} {y : Nat} (v : Word)
    (ha : addr.toNat % op.size = 0) (hy : y ≠ addr.toNat / 4) :
    (op.apply mem addr.toNat v).word (4 * y) = mem.word (4 * y) := by
  refine BitVec.eq_of_getLsbD_eq fun j hj => ?_
  unfold StoreOp.apply
  rw [getLsbD_store_word _ _ _ _ _ hj, if_neg]
  cases op <;> simp only [StoreOp.size] at ha ⊢ <;> omega

end Simulator
end RiscvEmulator.System
