import Mathlib.Data.Nat.Digits.Lemmas
import RiscvEmulator.Software.Vprintf

/-! # The numbers that are printed

The digits come out last one first and are swapped into their order. What stands in
`num_buf` at the end is the numeral of the value. -/
namespace RiscvEmulator.Software
open Memory

namespace Vprintf

/-- The numeral of a number: its digits, the first one first, and one digit for 0. -/
def numeral (base n : Nat) : List Byte :=
  if n = 0 then [chr '0'] else ((Nat.digits base n).map hexChars).reverse

/-- The decimal numeral with its sign. -/
def signedNumeral (n : Int) : List Byte :=
  if n < 0 then chr '-' :: numeral 10 n.natAbs else numeral 10 n.natAbs

/-- A numeral with zeros before it. -/
def padded (width : Nat) (digits : List Byte) : List Byte :=
  List.replicate (width - digits.length) (chr '0') ++ digits

variable {numBuf : List Byte} {val : Word}

/-! ## Reversal in place -/

theorem swapEnds_length (l : List Byte) (j : Nat) : (swapEnds l j).length = l.length := by
  unfold swapEnds
  rw [List.length_set, List.length_set]

theorem swapEnds_getD {l : List Byte} {i j : Nat} (hi : i < l.length) (hj : 2 * j < l.length) :
    (swapEnds l j).getD i 0 = if i = j ∨ i = l.length - 1 - j then l.getD (l.length - 1 - i) 0
      else l.getD i 0 := by
  unfold swapEnds
  simp only [List.getD_eq_getElem?_getD, List.getElem?_set, List.length_set]
  have hj' : j < l.length := by omega
  by_cases hlast : i = l.length - 1 - j
  · have hback : l.length - 1 - i = j := by omega
    simp [hlast.symm, hback, hi]
  · by_cases hfirst : i = j
    · subst hfirst
      simp [Ne.symm hlast, hi]
    · simp [Ne.symm hlast, Ne.symm hfirst, hlast, hfirst]

/-- After `k` swaps the outer `k` characters on both sides have changed places. -/
theorem swaps_getD {l : List Byte} {k : Nat} (hk : 2 * k ≤ l.length) :
    ((List.range k).foldl swapEnds l).length = l.length ∧ ∀ i < l.length,
      ((List.range k).foldl swapEnds l).getD i 0 =
        if i < k ∨ l.length - 1 - i < k then l.getD (l.length - 1 - i) 0 else l.getD i 0 := by
  induction k with
  | zero => simp
  | succ k ih =>
    obtain ⟨hlength, hget⟩ := ih (by omega)
    rw [List.range_succ, List.foldl_append, List.foldl_cons, List.foldl_nil]
    refine ⟨(swapEnds_length _ _).trans hlength, fun i hi => ?_⟩
    rw [swapEnds_getD (hlength.symm ▸ hi) (by omega), hlength]
    split
    · next hswap =>
      rw [hget _ (by omega), if_neg (by omega), if_pos (by omega)]
    · next hkeep =>
      rw [hget i hi]
      by_cases hold : i < k ∨ l.length - 1 - i < k
      · rw [if_pos hold, if_pos (by omega)]
      · rw [if_neg hold, if_neg (by omega)]

theorem reverseNumber_eq (l : List Byte) : reverseNumber l = l.reverse := by
  obtain ⟨hlength, hget⟩ := swaps_getD (l := l) (k := l.length / 2) (by omega)
  refine List.ext_getElem (hlength.trans List.length_reverse.symm) fun i hi hi' => ?_
  have hin : i < l.length := hlength ▸ hi
  have hi := hget i hin
  rw [List.getD_eq_getElem _ _ (hlength.symm ▸ hin)] at hi
  rw [List.getElem_reverse]
  refine hi.trans ?_
  split
  · exact List.getD_eq_getElem _ _ _
  · next hmiddle =>
    have hsame : l.length - 1 - i = i := by omega
    rw [List.getD_eq_getElem _ _ hin]
    congr 1
    exact hsame.symm

/-! ## Digits -/

theorem push_ok {c : Byte} (h : numBuf.length < 20) : push numBuf c = .ok (numBuf ++ [c]) :=
  if_pos h

theorem decimalDigit_eq (n : Word) :
    chr '0' + (n % 10).setWidth 8 = hexChars (n.toNat % 10) := by
  have hdigit : ∀ d < 10, chr '0' + BitVec.ofNat 8 d = hexChars d := by decide
  have hrem : (n % 10).setWidth 8 = BitVec.ofNat 8 (n.toNat % 10) := by
    apply BitVec.eq_of_toNat_eq
    rw [BitVec.toNat_setWidth, BitVec.toNat_umod, BitVec.toNat_ofNat]
    rfl
  rw [hrem, hdigit _ (Nat.mod_lt _ (by decide))]

/-- A loop that takes the last digit as long as the value is not 0 leaves its digits, and
`num_buf` has room for them. -/
theorem digitLoop_eq {base : Nat} (hbase : 1 < base) (next : Word → Word)
    {digitLoop : List Byte → Word → Except Fault (List Byte)}
    (hnext : ∀ val, (next val).toNat = val.toNat / base)
    (hloop : ∀ numBuf val, digitLoop numBuf val = if 0 < val then do
        let numBuf ← push numBuf (hexChars (val.toNat % base))
        digitLoop numBuf (next val)
      else .ok numBuf)
    (h : numBuf.length + (Nat.digits base val.toNat).length ≤ 20) :
    digitLoop numBuf val = .ok (numBuf ++ (Nat.digits base val.toNat).map hexChars) := by
  induction hn : val.toNat using Nat.strongRecOn generalizing numBuf val with
  | ind n ih =>
    subst hn
    rw [hloop]
    split
    · next hpos =>
      have hval : 0 < val.toNat := hpos
      have hdigits := Nat.digits_def' hbase hval
      rw [hdigits, List.length_cons] at h
      rw [push_ok (by omega), hdigits, List.map_cons]
      have hroom : (numBuf ++ [hexChars (val.toNat % base)]).length +
          (Nat.digits base (next val).toNat).length ≤ 20 := by
        rw [hnext, List.length_append, List.length_singleton]
        omega
      have hrest := ih (next val).toNat (hnext val ▸ Nat.div_lt_self hval hbase) hroom rfl
      rw [hnext, List.append_assoc] at hrest
      exact hrest
    · next hzero =>
      have hval : val.toNat = 0 := Nat.eq_zero_of_not_pos hzero
      rw [hval, Nat.digits_zero, List.map_nil, List.append_nil]

theorem decimalDigits_eq (h : numBuf.length + (Nat.digits 10 val.toNat).length ≤ 20) :
    decimalDigits numBuf val = .ok (numBuf ++ (Nat.digits 10 val.toNat).map hexChars) := by
  refine digitLoop_eq (by decide) (· / 10) (fun _ => BitVec.toNat_udiv ..) ?_ h
  intro numBuf val
  rw [decimalDigits, divmod10_eq, decimalDigit_eq]

theorem hexDigits_eq (h : numBuf.length + (Nat.digits 16 val.toNat).length ≤ 20) :
    hexDigits numBuf val = .ok (numBuf ++ (Nat.digits 16 val.toNat).map hexChars) := by
  refine digitLoop_eq (by decide) (· >>> 4) (fun val => ?_) ?_ h
  · rw [BitVec.toNat_ushiftRight, Nat.shiftRight_eq_div_pow]
  · intro numBuf val
    have hlow : (val &&& 0xF).toNat = val.toNat % 16 := by
      rw [BitVec.toNat_and]
      exact Nat.and_two_pow_sub_one_eq_mod val.toNat 4
    rw [hexDigits, hlow]

theorem decimal_length (val : Word) : (Nat.digits 10 val.toNat).length ≤ 10 :=
  (Nat.digits_length_le_iff (by decide) _).mpr (Nat.lt_trans val.isLt (by decide))

theorem hex_length (val : Word) : (Nat.digits 16 val.toNat).length ≤ 8 :=
  (Nat.digits_length_le_iff (by decide) _).mpr (Nat.lt_of_lt_of_le val.isLt (by decide))

theorem numeral_pos {base n : Nat} (h : n ≠ 0) :
    numeral base n = ((Nat.digits base n).map hexChars).reverse := if_neg h

theorem toNat_ne_zero (h : val ≠ 0) : val.toNat ≠ 0 :=
  fun hzero => h (BitVec.eq_of_toNat_eq hzero)

/-! ## Numbers -/

theorem unsignedNumber_eq (val : Word) : unsignedNumber val = .ok (numeral 10 val.toNat) := by
  unfold unsignedNumber
  split
  · next hzero => rw [hzero]; rfl
  · next hval =>
    have hroom := decimal_length val
    rw [decimalDigits_eq (by rw [List.length_nil]; omega), numeral_pos (toNat_ne_zero hval),
      ← reverseNumber_eq]
    rfl

theorem hexNumber_eq (val : Word) : hexNumber val = .ok (numeral 16 val.toNat) := by
  unfold hexNumber
  split
  · next hzero => rw [hzero]; rfl
  · next hval =>
    have hroom := hex_length val
    rw [hexDigits_eq (by rw [List.length_nil]; omega), numeral_pos (toNat_ne_zero hval),
      ← reverseNumber_eq]
    rfl

/-- Every integer but the smallest is printed with its sign. -/
theorem signedNumber_eq (val : Word) : signedNumber val =
    if val.toInt = -2 ^ 31 then .error .signedOverflow else .ok (signedNumeral val.toInt) := by
  unfold signedNumber signedNumeral
  by_cases hzero : val = 0
  · subst hzero
    rfl
  · rw [if_neg hzero]
    by_cases hneg : val.toInt < 0
    · rw [if_pos hneg, if_pos hneg]
      by_cases hmin : val.toInt = -2 ^ 31
      · rw [if_pos hmin, if_pos hmin]
        rfl
      · have habs : (-val).toNat = val.toInt.natAbs := by
          have hlt := val.isLt
          rw [BitVec.toInt_eq_toNat_cond] at hneg ⊢
          rw [BitVec.toNat_neg]
          omega
        have hroom := decimal_length (-val)
        have hnat : val.toInt.natAbs ≠ 0 := by omega
        have hdigits : decimalDigits [] (-val) =
            .ok ((Nat.digits 10 val.toInt.natAbs).map hexChars) := by
          rw [decimalDigits_eq (by rw [List.length_nil]; omega), habs]
          rfl
        have hsign : push ((Nat.digits 10 val.toInt.natAbs).map hexChars) (chr '-') =
            .ok ((Nat.digits 10 val.toInt.natAbs).map hexChars ++ [chr '-']) :=
          push_ok (by rw [List.length_map, ← habs]; omega)
        have hreverse := reverseNumber_eq
          ((Nat.digits 10 val.toInt.natAbs).map hexChars ++ [chr '-'])
        rw [List.reverse_append] at hreverse
        rw [if_neg hmin, if_neg hmin, numeral_pos hnat]
        simp only [hdigits, hsign, bind, Except.bind, pure, Except.pure, hreverse]
        rfl
    · have habs : val.toInt.natAbs = val.toNat := by
        rw [BitVec.toInt_eq_toNat_cond] at hneg ⊢
        have := val.isLt
        omega
      have hmin : ¬val.toInt = -2 ^ 31 := fun hmin => hneg (hmin ▸ by decide)
      have hroom := decimal_length val
      rw [if_neg hneg, if_neg hneg, if_neg hmin, habs,
        decimalDigits_eq (by rw [List.length_nil]; omega), numeral_pos (toNat_ne_zero hzero),
        ← reverseNumber_eq]
      rfl

/-! ## Reading a numeral back -/

def digitValue (c : Byte) : Nat :=
  if c ≤ chr '9' then (c - chr '0').toNat else (c - chr 'A').toNat + 10

theorem digitValue_hexChars : ∀ d < 16, digitValue (hexChars d) = d := by decide

theorem foldr_digitValue {base : Nat} {digits : List Nat} (h : ∀ d ∈ digits, d < 16) :
    digits.foldr (fun d value => base * value + digitValue (hexChars d)) 0 =
      Nat.ofDigits base digits := by
  induction digits with
  | nil => rfl
  | cons d digits ih =>
    rw [List.foldr_cons, ih fun e he => h e (List.mem_cons_of_mem d he),
      digitValue_hexChars d (h d List.mem_cons_self), Nat.ofDigits_cons, Nat.add_comm]

/-- The digits of a numeral, read from the first on, give the number. -/
theorem numeral_value {base : Nat} (hbase : 1 < base) (hhex : base ≤ 16) (n : Nat) :
    (numeral base n).foldl (fun value c => base * value + digitValue c) 0 = n := by
  by_cases hzero : n = 0
  · subst hzero
    show base * 0 + digitValue (chr '0') = 0
    rw [Nat.mul_zero]
    rfl
  · rw [numeral_pos hzero, List.foldl_reverse, List.foldr_map]
    have hdigits : ∀ d ∈ Nat.digits base n, d < 16 := fun d hd =>
      Nat.lt_of_lt_of_le (Nat.digits_lt_base hbase hd) hhex
    exact (foldr_digitValue hdigits).trans (Nat.ofDigits_digits base n)

/-- No zero stands before the digits of a number. -/
theorem numeral_head {base n : Nat} (hbase : 1 < base) (hhex : base ≤ 16) (h : n ≠ 0) :
    (numeral base n).head? ≠ some (chr '0') := by
  have hne := (Nat.digits_ne_nil_iff_ne_zero (b := base)).mpr h
  have hlast := Nat.getLast_digit_ne_zero base h
  have hlt := Nat.digits_lt_base hbase (List.getLast_mem hne)
  rw [numeral_pos h, List.head?_reverse, List.getLast?_map, List.getLast?_eq_some_getLast hne]
  intro heq
  have hchar := Option.some.inj heq
  have hvalue := digitValue_hexChars _ (Nat.lt_of_lt_of_le hlt hhex)
  rw [hchar] at hvalue
  exact hlast hvalue.symm

end Vprintf
end RiscvEmulator.Software
