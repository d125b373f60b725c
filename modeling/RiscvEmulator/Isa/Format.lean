import Mathlib.Data.Nat.Bitwise
import Mathlib.Tactic.IntervalCases

/-! # Instruction formats

The base formats of 32-bit RISC-V instructions, the fields each of them has, and
the words their immediates stand for. Offsets of branches and jumps count
halfwords: the formats have no place for bit 0. -/
namespace RiscvEmulator.Isa

abbrev Reg := BitVec 5

section
variable (funct7 : BitVec 7) (rs2 rs1 : Reg) (funct3 : BitVec 3) (rd : Reg) (opcode : BitVec 7)

def rType : BitVec 32 := funct7 ++ rs2 ++ rs1 ++ funct3 ++ rd ++ opcode

def iType (imm : BitVec 12) : BitVec 32 := imm ++ rs1 ++ funct3 ++ rd ++ opcode

def sType (imm : BitVec 12) : BitVec 32 :=
  imm.extractLsb' 5 7 ++ rs2 ++ rs1 ++ funct3 ++ imm.extractLsb' 0 5 ++ opcode

def bType (offset : BitVec 12) : BitVec 32 :=
  offset.extractLsb' 11 1 ++ offset.extractLsb' 4 6 ++ rs2 ++ rs1 ++ funct3 ++
    offset.extractLsb' 0 4 ++ offset.extractLsb' 10 1 ++ opcode

def uType (imm : BitVec 20) : BitVec 32 := imm ++ rd ++ opcode

def jType (offset : BitVec 20) : BitVec 32 :=
  offset.extractLsb' 19 1 ++ offset.extractLsb' 0 10 ++ offset.extractLsb' 10 1 ++
    offset.extractLsb' 11 8 ++ rd ++ opcode

/-! ## Fields -/

theorem rType_fields :
    let w := rType funct7 rs2 rs1 funct3 rd opcode
    w.extractLsb' 0 7 = opcode ∧ w.extractLsb' 7 5 = rd ∧ w.extractLsb' 12 3 = funct3 ∧
      w.extractLsb' 15 5 = rs1 ∧ w.extractLsb' 20 5 = rs2 ∧ w.extractLsb' 25 7 = funct7 := by
  simp (disch := omega) only [rType, BitVec.extractLsb'_append_eq_of_le,
    BitVec.extractLsb'_append_eq_of_add_le]
  simp only [Nat.reduceSub, BitVec.extractLsb'_eq_self, and_self]

theorem iType_fields (imm : BitVec 12) :
    let w := iType rs1 funct3 rd opcode imm
    w.extractLsb' 0 7 = opcode ∧ w.extractLsb' 7 5 = rd ∧ w.extractLsb' 12 3 = funct3 ∧
      w.extractLsb' 15 5 = rs1 ∧ w.extractLsb' 20 12 = imm ∧
      w.extractLsb' 25 7 = imm.extractLsb' 5 7 := by
  simp (disch := omega) only [iType, BitVec.extractLsb'_append_eq_of_le,
    BitVec.extractLsb'_append_eq_of_add_le]
  simp only [Nat.reduceSub, BitVec.extractLsb'_eq_self, and_self]

theorem sType_fields (imm : BitVec 12) :
    let w := sType rs2 rs1 funct3 opcode imm
    w.extractLsb' 0 7 = opcode ∧ w.extractLsb' 7 5 = imm.extractLsb' 0 5 ∧
      w.extractLsb' 12 3 = funct3 ∧ w.extractLsb' 15 5 = rs1 ∧ w.extractLsb' 20 5 = rs2 ∧
      w.extractLsb' 25 7 = imm.extractLsb' 5 7 := by
  simp (disch := omega) only [sType, BitVec.extractLsb'_append_eq_of_le,
    BitVec.extractLsb'_append_eq_of_add_le]
  simp only [Nat.reduceSub, BitVec.extractLsb'_eq_self, and_self]

theorem bType_fields (offset : BitVec 12) :
    let w := bType rs2 rs1 funct3 opcode offset
    w.extractLsb' 0 7 = opcode ∧ w.extractLsb' 7 1 = offset.extractLsb' 10 1 ∧
      w.extractLsb' 8 4 = offset.extractLsb' 0 4 ∧ w.extractLsb' 12 3 = funct3 ∧
      w.extractLsb' 15 5 = rs1 ∧ w.extractLsb' 20 5 = rs2 ∧
      w.extractLsb' 25 6 = offset.extractLsb' 4 6 ∧
      w.extractLsb' 31 1 = offset.extractLsb' 11 1 := by
  simp (disch := omega) only [bType, BitVec.extractLsb'_append_eq_of_le,
    BitVec.extractLsb'_append_eq_of_add_le]
  simp only [Nat.reduceSub, BitVec.extractLsb'_eq_self, and_self]

theorem uType_fields (imm : BitVec 20) :
    let w := uType rd opcode imm
    w.extractLsb' 0 7 = opcode ∧ w.extractLsb' 7 5 = rd ∧ w.extractLsb' 12 20 = imm := by
  simp (disch := omega) only [uType, BitVec.extractLsb'_append_eq_of_le,
    BitVec.extractLsb'_append_eq_of_add_le]
  simp only [Nat.reduceSub, BitVec.extractLsb'_eq_self, and_self]

theorem jType_fields (offset : BitVec 20) :
    let w := jType rd opcode offset
    w.extractLsb' 0 7 = opcode ∧ w.extractLsb' 7 5 = rd ∧
      w.extractLsb' 12 8 = offset.extractLsb' 11 8 ∧
      w.extractLsb' 20 1 = offset.extractLsb' 10 1 ∧
      w.extractLsb' 21 10 = offset.extractLsb' 0 10 ∧
      w.extractLsb' 31 1 = offset.extractLsb' 19 1 := by
  simp (disch := omega) only [jType, BitVec.extractLsb'_append_eq_of_le,
    BitVec.extractLsb'_append_eq_of_add_le]
  simp only [Nat.reduceSub, BitVec.extractLsb'_eq_self, and_self]

end

/-! ## Masked and shifted fields

Software takes a field out of a word by a shift and a mask, and puts the pieces
of an immediate together by shifts and ors. -/

theorem shift_mask_eq_field (x : BitVec 32) (k w : Nat) (h : w < 32) :
    (x >>> k) &&& BitVec.ofNat 32 (2 ^ w - 1) = (x.extractLsb' k w).setWidth 32 := by
  have hw : 2 ^ w ≤ 2 ^ 32 := Nat.pow_le_pow_right (by omega) (by omega)
  have hpos : 0 < 2 ^ w := Nat.two_pow_pos w
  apply BitVec.eq_of_toNat_eq
  rw [BitVec.toNat_and, BitVec.toNat_ofNat, Nat.mod_eq_of_lt (by omega),
    Nat.and_two_pow_sub_one_eq_mod, BitVec.toNat_setWidth, BitVec.extractLsb'_toNat,
    BitVec.toNat_ushiftRight]
  have := Nat.mod_lt (x.toNat >>> k) hpos
  rw [Nat.mod_eq_of_lt (b := 2 ^ 32) (by omega)]

theorem shift_eq_field (x : BitVec 32) (k w : Nat) (h : k + w = 32) :
    x >>> k = (x.extractLsb' k w).setWidth 32 := by
  apply BitVec.eq_of_toNat_eq
  have hx : x.toNat >>> k < 2 ^ w := by
    rw [Nat.shiftRight_eq_div_pow, Nat.div_lt_iff_lt_mul (Nat.two_pow_pos k), ← Nat.pow_add,
      Nat.add_comm, h]
    exact x.isLt
  have hw : 2 ^ w ≤ 2 ^ 32 := Nat.pow_le_pow_right (by omega) (by omega)
  rw [BitVec.toNat_ushiftRight, BitVec.toNat_setWidth, BitVec.extractLsb'_toNat,
    Nat.mod_eq_of_lt hx, Nat.mod_eq_of_lt (by omega)]

theorem upper_mask_eq_field (x : BitVec 32) :
    x &&& (0xFFFFF000 : BitVec 32) = (x.extractLsb' 12 20).setWidth 32 <<< 12 := by
  ext i hi
  interval_cases i <;> simp

theorem sImmediate_pieces (imm : BitVec 12) :
    (imm.extractLsb' 0 5).setWidth 32 ||| (imm.extractLsb' 5 7).setWidth 32 <<< 5 =
      imm.setWidth 32 := by
  ext i hi
  interval_cases i <;> simp

theorem bImmediate_pieces (offset : BitVec 12) :
    (offset.extractLsb' 0 4).setWidth 32 <<< 1 ||| (offset.extractLsb' 4 6).setWidth 32 <<< 5 |||
        (offset.extractLsb' 10 1).setWidth 32 <<< 11 |||
        (offset.extractLsb' 11 1).setWidth 32 <<< 12 = (offset.concat false).setWidth 32 := by
  ext i hi
  interval_cases i <;> simp [BitVec.getElem_concat]

theorem jImmediate_pieces (offset : BitVec 20) :
    (offset.extractLsb' 0 10).setWidth 32 <<< 1 |||
        (offset.extractLsb' 10 1).setWidth 32 <<< 11 |||
        (offset.extractLsb' 11 8).setWidth 32 <<< 12 |||
        (offset.extractLsb' 19 1).setWidth 32 <<< 20 = (offset.concat false).setWidth 32 := by
  ext i hi
  interval_cases i <;> simp [BitVec.getElem_concat]

/-! ## Sign extension by a mask -/

theorem xor_two_pow_of_lt {x k : Nat} (h : x < 2 ^ k) : x ^^^ 2 ^ k = 2 ^ k + x := by
  refine Nat.eq_of_testBit_eq fun i => ?_
  rw [Nat.testBit_xor, Nat.testBit_two_pow]
  rcases lt_trichotomy i k with hi | rfl | hi
  · rw [Nat.testBit_two_pow_add_gt hi]
    simp [Nat.ne_of_gt hi]
  · rw [Nat.testBit_two_pow_add_eq]
    simp
  · have hlt : 2 ^ k + x < 2 ^ i := by
      have : 2 ^ (k + 1) ≤ 2 ^ i := Nat.pow_le_pow_right (by omega) hi
      rw [Nat.pow_succ] at this
      omega
    rw [Nat.testBit_lt_two_pow hlt, Nat.testBit_lt_two_pow (by omega)]
    simp [Nat.ne_of_lt hi]

/-- Toggling the sign bit and subtracting it again extends the sign. -/
theorem signExtend_eq_xor_sub {k : Nat} (x : BitVec (k + 1)) (h : k < 32) :
    (x.setWidth 32 ^^^ 1#32 <<< k) - 1#32 <<< k = x.signExtend 32 := by
  have hx : x.toNat < 2 * 2 ^ k := by rw [← Nat.pow_succ']; exact x.isLt
  have hk : 2 * 2 ^ k ≤ 2 ^ 32 := by
    rw [← Nat.pow_succ']
    exact Nat.pow_le_pow_right (by omega) (by omega)
  have hmask : (1#32 <<< k).toNat = 2 ^ k := by
    rw [BitVec.toNat_shiftLeft, Nat.shiftLeft_eq]
    simp only [BitVec.toNat_ofNat, Nat.one_mod_two_pow_eq_one.mpr (by omega : 0 < 32), one_mul]
    exact Nat.mod_eq_of_lt (by omega)
  have hset : (x.setWidth 32).toNat = x.toNat := by
    rw [BitVec.toNat_setWidth, Nat.mod_eq_of_lt (by omega)]
  apply BitVec.eq_of_toNat_eq
  rw [BitVec.toNat_sub, BitVec.toNat_xor, hset, hmask, BitVec.toNat_signExtend, hset,
    BitVec.msb_eq_decide]
  simp only [Nat.add_sub_cancel, decide_eq_true_eq]
  by_cases hsign : 2 ^ k ≤ x.toNat
  · -- the sign bit is set: it is cleared and then subtracted
    obtain ⟨y, hy⟩ := Nat.exists_eq_add_of_le hsign
    have hxor : x.toNat ^^^ 2 ^ k = y := by
      rw [hy, ← xor_two_pow_of_lt (by omega), Nat.xor_assoc, Nat.xor_self, Nat.xor_zero]
    rw [hxor, if_pos hsign, Nat.pow_succ]
    omega
  · -- the sign bit is clear: it is set and subtracted again
    rw [xor_two_pow_of_lt (by omega), if_neg hsign]
    omega

end RiscvEmulator.Isa
