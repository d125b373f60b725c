import Mathlib.Data.List.Basic

/-! # Binary search

The search halves a range in which the elements before the answer satisfy a test and the
others do not. On a list with that shape it finds where the test stops to hold. -/
namespace RiscvEmulator.Lib

namespace LowerBound
variable {α : Type}

/-- The first place of `len` places from `first` on whose element fails the test. -/
def search (test : α → Bool) (l : List α) (first len : Nat) : Nat :=
  if 0 < len then
    let half := len / 2
    if (l[first + half]?).any test then search test l (first + half + 1) (len - half - 1)
    else search test l first half
  else first
termination_by len

def lowerBound (test : α → Bool) (l : List α) : Nat := search test l 0 l.length

/-- The elements that satisfy the test come first. -/
def Partitioned (test : α → Bool) (l : List α) : Prop :=
  l.Pairwise fun a b => test b = true → test a = true

variable {test : α → Bool} {l : List α}

theorem Partitioned.lt_iff (h : Partitioned test l) {i : Nat} (hi : i < l.length) :
    i < (l.takeWhile test).length ↔ test l[i] = true := by
  induction l generalizing i with
  | nil => cases hi
  | cons a l ih =>
    obtain ⟨ha, hl⟩ := List.pairwise_cons.mp h
    cases i with
    | zero => by_cases htest : test a = true <;> simp [htest]
    | succ i =>
      have hi' : i < l.length := Nat.lt_of_succ_lt_succ hi
      by_cases htest : test a = true
      · simp only [List.takeWhile_cons, htest, if_true, List.length_cons, Nat.add_lt_add_iff_right,
          List.getElem_cons_succ]
        exact ih hl hi'
      · refine iff_of_false (by simp [htest]) fun h' => htest ?_
        exact ha _ (List.getElem_mem hi') h'

/-- The search keeps the answer in its range. -/
theorem search_eq (h : Partitioned test l) {first len : Nat}
    (hfirst : first ≤ (l.takeWhile test).length)
    (hlast : (l.takeWhile test).length ≤ first + len) (hlen : first + len ≤ l.length) :
    search test l first len = (l.takeWhile test).length := by
  induction len using Nat.strongRecOn generalizing first with
  | ind len ih =>
    unfold search
    split
    · next hpos =>
      have hin : first + len / 2 < l.length := by omega
      have hmid := h.lt_iff hin
      simp only [List.getElem?_eq_getElem hin, Option.any_some]
      split
      · next htest =>
        have hbelow := hmid.mpr htest
        exact ih _ (by omega) (by omega) (by omega) (by omega)
      · next htest =>
        have habove := Nat.le_of_not_lt fun hlt => htest (hmid.mp hlt)
        exact ih _ (by omega) hfirst (by omega) (by omega)
    · omega

theorem lowerBound_eq (h : Partitioned test l) :
    lowerBound test l = (l.takeWhile test).length :=
  search_eq h (Nat.zero_le _) (by rw [Nat.zero_add]; exact (List.takeWhile_prefix _).length_le)
    (Nat.le_of_eq (Nat.zero_add _))

/-- What an insertion there puts before and after the new element. -/
theorem split_lowerBound (h : Partitioned test l) :
    l.take (lowerBound test l) = l.takeWhile test ∧
      l.drop (lowerBound test l) = l.dropWhile test := by
  have hsplit : l.takeWhile test ++ l.dropWhile test = l := List.takeWhile_append_dropWhile
  rw [lowerBound_eq h]
  generalize l.takeWhile test = before at hsplit ⊢
  generalize l.dropWhile test = after at hsplit ⊢
  subst hsplit
  exact ⟨List.take_left, List.drop_left⟩

end LowerBound
end RiscvEmulator.Lib
