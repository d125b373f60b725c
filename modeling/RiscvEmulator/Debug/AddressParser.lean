import RiscvEmulator.Debug.CommandLoop
import Mathlib.Data.List.TakeWhile

/-! # Addresses on the command line

The formats that `help` lists, as a grammar, beside `parse_address`. The conversion
behind it stops at the first character that is no digit, so only strings that are a
number from end to end, or that no number begins, are spoken of. -/
namespace RiscvEmulator.Debug
open Memory

/-! ## The formats -/

/-- The digits of a number. -/
inductive Numeral (base : ℕ) : List Char → ℕ → Prop
  | digit {c : Char} {d : ℕ} : digitOf base c = some d → Numeral base [c] d
  | snoc {ds : List Char} {n : ℕ} {c : Char} {d : ℕ} :
    Numeral base ds n → digitOf base c = some d → Numeral base (ds ++ [c]) (n * base + d)

/-- The formats of `help`, with the letters that may mark a hexadecimal number before
and behind its digits. -/
inductive AddressFormat (marks suffixes : List Char) : List Char → ℕ → Prop
  | prefixed {x : Char} {ds : List Char} {n : ℕ} :
    x ∈ marks → Numeral 16 ds n → AddressFormat marks suffixes ('0' :: x :: ds) n
  | suffixed {h : Char} {ds : List Char} {n : ℕ} :
    h ∈ suffixes → Numeral 16 ds n → AddressFormat marks suffixes (ds ++ [h]) n
  | decimal {ds : List Char} {n : ℕ} : Numeral 10 ds n → AddressFormat marks suffixes ds n

/-- The base and the characters of a string, less its suffix. -/
def conversion (cs : List Char) : ℕ × List Char :=
  if cs.getLast? = some 'h' ∨ cs.getLast? = some 'H' then (16, cs.dropLast) else (10, cs)

/-- After blanks and one sign there is a digit. -/
def NumberBegins (base : ℕ) (cs : List Char) : Prop :=
  ∃ blanks sign c rest, cs = blanks ++ (sign ++ c :: rest) ∧ (∀ b ∈ blanks, isSpace b = true) ∧
    sign ∈ [[], ['-'], ['+']] ∧ (digitOf base c).isSome = true

/-! ## Digits -/

theorem digitOf_bounds {base d : ℕ} {c : Char} (h : digitOf base c = some d) :
    48 ≤ c.toNat ∧ d < base := by
  simp only [digitOf, Option.filter_eq_some_iff, decide_eq_true_eq] at h
  refine ⟨?_, h.2⟩
  obtain ⟨h, _⟩ := h
  split at h
  case isTrue hc => exact Char.le_def.mp hc.1
  case isFalse =>
    split at h
    case isTrue hc => exact Nat.le_trans (by decide) (Char.le_def.mp hc.1 : 97 ≤ c.toNat)
    case isFalse =>
      split at h
      case isTrue hc => exact Nat.le_trans (by decide) (Char.le_def.mp hc.1 : 65 ≤ c.toNat)
      case isFalse => cases h

theorem digitOf_not_space {base d : ℕ} {c : Char} (h : digitOf base c = some d) :
    isSpace c = false := by
  have hlow := (digitOf_bounds h).1
  simp only [isSpace, Bool.or_eq_false_iff, beq_eq_false_iff_ne, Bool.and_eq_false_iff,
    decide_eq_false_iff_not]
  refine ⟨?_, .inr (by omega)⟩
  rintro rfl
  exact absurd hlow (by decide)

theorem readSign_digit {base d : ℕ} {c : Char} (h : digitOf base c = some d) (cs : List Char) :
    readSign (c :: cs) = (false, c :: cs) := by
  have hlow := (digitOf_bounds h).1
  unfold readSign
  split
  case h_1 heq =>
    cases heq
    exact absurd hlow (by decide)
  case h_2 heq =>
    cases heq
    exact absurd hlow (by decide)
  case h_3 => rfl

/-- The letters of the prefixes and suffixes are no digits. -/
theorem digitOf_ne {base d : ℕ} {c x : Char} (h : digitOf base c = some d) (hbase : base ≤ 16)
    (hx : x ∈ ['x', 'X', 'h', 'H']) : c ≠ x := by
  rintro rfl
  have hex : digitOf 16 c = some d := by
    simp only [digitOf, Option.filter_eq_some_iff, decide_eq_true_eq] at h ⊢
    exact ⟨h.1, by omega⟩
  have hnone : digitOf 16 c = none := by
    simp only [List.mem_cons, List.not_mem_nil, or_false] at hx
    rcases hx with rfl | rfl | rfl | rfl <;> rfl
  rw [hnone] at hex
  cases hex

namespace Numeral

variable {base n : ℕ} {ds : List Char}

theorem ne_nil (h : Numeral base ds n) : ds ≠ [] := by
  cases h with
  | digit => exact List.cons_ne_nil _ _
  | snoc => exact List.append_ne_nil_of_right_ne_nil _ (List.cons_ne_nil _ _)

theorem isDigit (h : Numeral base ds n) : ∀ c ∈ ds, ∃ d, digitOf base c = some d := by
  induction h with
  | @digit c d hc =>
    intro c' hc'
    exact ⟨d, List.mem_singleton.mp hc' ▸ hc⟩
  | @snoc ds n c d _ hc ih =>
    intro c' hc'
    rcases List.mem_append.mp hc' with hin | hlast
    · exact ih c' hin
    · exact ⟨d, List.mem_singleton.mp hlast ▸ hc⟩

theorem head (h : Numeral base ds n) : ∃ c rest d, ds = c :: rest ∧ digitOf base c = some d := by
  obtain ⟨c, rest, rfl⟩ := List.exists_cons_of_ne_nil h.ne_nil
  obtain ⟨d, hd⟩ := h.isDigit c List.mem_cons_self
  exact ⟨c, rest, d, rfl, hd⟩

end Numeral

theorem readDigits_append {base : ℕ} {ds : List Char} (hds : ∀ c ∈ ds, ∃ d, digitOf base c = some d)
    (value : Option ℕ) (cs : List Char) :
    readDigits base value (ds ++ cs) = readDigits base (readDigits base value ds) cs := by
  induction ds generalizing value with
  | nil => rfl
  | cons c ds ih =>
    obtain ⟨d, hd⟩ := hds c List.mem_cons_self
    simp only [List.cons_append, readDigits, hd]
    exact ih (fun c' hc' => hds c' (List.mem_cons_of_mem c hc')) _

theorem Numeral.readDigits {base n : ℕ} {ds : List Char} (h : Numeral base ds n) :
    Debug.readDigits base none ds = some n := by
  induction h with
  | digit hc => simp [Debug.readDigits, hc]
  | snoc hds hc ih =>
    rw [readDigits_append hds.isDigit, ih]
    simp [Debug.readDigits, hc]

/-! ## The conversion -/

/-- A hexadecimal number without its prefix is read as it is. -/
theorem skipHexPrefix_digits {ds : List Char} (hds : ∀ c ∈ ds, ∃ d, digitOf 16 c = some d) :
    skipHexPrefix ds = ds := by
  unfold skipHexPrefix
  split
  case h_1 x c rest =>
    obtain ⟨d, hd⟩ := hds x (by simp)
    have hx : ¬ (x = 'x' ∨ x = 'X') := by
      simp only [not_or]
      exact ⟨digitOf_ne hd (Nat.le_refl _) (by simp), digitOf_ne hd (Nat.le_refl _) (by simp)⟩
    rw [if_neg fun hboth => hx hboth.1]
  case h_2 => rfl

/-- What `stoul` makes of the digits it comes to. -/
def ofDigits (n : ℕ) : Option (BitVec 64) := if n < 2 ^ 64 then some (BitVec.ofNat 64 n) else none

theorem Numeral.stoul {base n : ℕ} {ds : List Char} (hbase : base = 10 ∨ base = 16)
    (h : Numeral base ds n) : Debug.stoul base ds = ofDigits n := by
  have hread := h.readDigits
  obtain ⟨c, rest, d, rfl, hd⟩ := h.head
  have hskip : (if base = 16 then skipHexPrefix (c :: rest) else c :: rest) = c :: rest := by
    split
    case isTrue heq =>
      subst heq
      exact skipHexPrefix_digits h.isDigit
    case isFalse => rfl
  simp only [Debug.stoul, List.dropWhile_cons, digitOf_not_space hd, Bool.false_eq_true, if_false,
    readSign_digit hd, hskip, hread, ofDigits]

theorem Numeral.stoul_prefixed {n : ℕ} {x : Char} {ds : List Char} (hx : x = 'x' ∨ x = 'X')
    (h : Numeral 16 ds n) : Debug.stoul 16 ('0' :: x :: ds) = ofDigits n := by
  have hread := h.readDigits
  obtain ⟨c, rest, d, rfl, hd⟩ := h.head
  have hzero : digitOf 16 '0' = some 0 := by decide
  have hskip : skipHexPrefix ('0' :: x :: c :: rest) = c :: rest := by
    simp only [skipHexPrefix, hx, hd, Option.isSome_some, and_self, if_true]
  simp only [Debug.stoul, List.dropWhile_cons, digitOf_not_space hzero, Bool.false_eq_true,
    if_false, readSign_digit hzero, if_true, hskip, hread, ofDigits]

theorem readDigits_none {base : ℕ} {cs : List Char}
    (h : ∀ c rest, cs = c :: rest → digitOf base c = none) : readDigits base none cs = none := by
  cases cs with
  | nil => rfl
  | cons c rest => simp only [readDigits, h c rest rfl]

theorem readSign_spec (cs : List Char) :
    ∃ sign ∈ [[], ['-'], ['+']], cs = sign ++ (readSign cs).2 := by
  unfold readSign
  split
  · exact ⟨['-'], by simp, rfl⟩
  · exact ⟨['+'], by simp, rfl⟩
  · exact ⟨[], by simp, rfl⟩

/-- The conversion of a string that no number begins is an exception. -/
theorem stoul_none {base : ℕ} (hbase : base = 10 ∨ base = 16) {cs : List Char}
    (h : ¬ NumberBegins base cs) : stoul base cs = none := by
  obtain ⟨sign, hsign, hcs⟩ := readSign_spec (cs.dropWhile isSpace)
  have hdigit : ∀ c rest, (readSign (cs.dropWhile isSpace)).2 = c :: rest →
      digitOf base c = none := by
    intro c rest hrest
    cases hd : digitOf base c with
    | none => rfl
    | some d =>
      rw [hrest] at hcs
      exact absurd ⟨cs.takeWhile isSpace, sign, c, rest,
        by rw [← hcs, List.takeWhile_append_dropWhile],
        fun b hb => List.mem_takeWhile_imp hb, hsign, by rw [hd]; rfl⟩ h
  have hskip : (if base = 16 then skipHexPrefix (readSign (cs.dropWhile isSpace)).2
      else (readSign (cs.dropWhile isSpace)).2) = (readSign (cs.dropWhile isSpace)).2 := by
    split
    case isFalse => rfl
    case isTrue heq =>
      subst heq
      unfold skipHexPrefix
      split
      case h_1 x c rest hrest =>
        exact absurd (hdigit '0' _ hrest) (by decide)
      case h_2 => rfl
  simp only [stoul, hskip, readDigits_none hdigit]

/-! ## The parser -/

/-- The test for a prefix. -/
def Prefixed (cs : List Char) : Prop :=
  2 < cs.length ∧ cs[0]? = some '0' ∧ (cs[1]? = some 'x' ∨ cs[1]? = some 'X')

theorem parseAddress_prefixed {s : String} (h : Prefixed s.toList) :
    parseAddress s = (stoul 16 s.toList).map (·.setWidth 32) := by
  have hne : s.toList ≠ [] := fun hnil => absurd h.1 (by simp [hnil])
  have hpre : 2 < s.toList.length ∧ s.toList[0]? = some '0' ∧
      (s.toList[1]? = some 'x' ∨ s.toList[1]? = some 'X') := h
  simp only [parseAddress, if_neg hne, if_pos hpre]

theorem parseAddress_conversion {s : String} (hne : s.toList ≠ []) (h : ¬ Prefixed s.toList) :
    parseAddress s =
      (stoul (conversion s.toList).1 (conversion s.toList).2).map (·.setWidth 32) := by
  have hpre : ¬ (2 < s.toList.length ∧ s.toList[0]? = some '0' ∧
      (s.toList[1]? = some 'x' ∨ s.toList[1]? = some 'X')) := h
  simp only [parseAddress, if_neg hne, if_neg hpre, conversion]
  split <;> rfl

theorem Numeral.not_prefixed {base n : ℕ} {ds cs : List Char} (hbase : base ≤ 16)
    (h : Numeral base ds n) (hcs : cs = [] ∨ ∃ x, cs = [x]) : ¬ Prefixed (ds ++ cs) := by
  intro ⟨hlen, _, hx⟩
  have hsecond : 1 < ds.length := by
    rcases hcs with rfl | ⟨x, rfl⟩ <;> simp at hlen <;> omega
  rw [List.getElem?_append_left hsecond, List.getElem?_eq_getElem hsecond] at hx
  obtain ⟨d, hd⟩ := h.isDigit ds[1] (List.getElem_mem hsecond)
  rcases hx with hx | hx
  · exact digitOf_ne hd hbase (by simp) (Option.some.inj hx)
  · exact digitOf_ne hd hbase (by simp) (Option.some.inj hx)

/-- Neither the prefix nor the suffix is taken for something else. -/
theorem parseAddress_format {s : String} {n : ℕ}
    (h : AddressFormat ['x', 'X'] ['h', 'H'] s.toList n) :
    parseAddress s = (ofDigits n).map (·.setWidth 32) := by
  generalize hcs : s.toList = cs at h
  cases h with
  | @prefixed x ds n hx hds =>
    obtain ⟨c, rest, _, rfl, _⟩ := hds.head
    have hx' : x = 'x' ∨ x = 'X' := by simpa using hx
    have hpre : Prefixed ('0' :: x :: c :: rest) := ⟨by simp, rfl, by simpa using hx'⟩
    rw [parseAddress_prefixed (hcs ▸ hpre), hcs, hds.stoul_prefixed hx']
  | @suffixed h ds n hh hds =>
    have hconv : conversion (ds ++ [h]) = (16, ds) := by
      rw [conversion, if_pos (by simpa using hh), List.dropLast_concat]
    rw [parseAddress_conversion (by simp [hcs])
      (hcs ▸ hds.not_prefixed (Nat.le_refl _) (.inr ⟨h, rfl⟩)), hcs, hconv, hds.stoul (.inr rfl)]
  | decimal hds =>
    have hlast : ¬ (cs.getLast? = some 'h' ∨ cs.getLast? = some 'H') := by
      rw [List.getLast?_eq_getLast_of_ne_nil hds.ne_nil]
      obtain ⟨d, hd⟩ := hds.isDigit _ (List.getLast_mem hds.ne_nil)
      rintro (h | h)
      · exact digitOf_ne hd (by decide) (by simp) (Option.some.inj h)
      · exact digitOf_ne hd (by decide) (by simp) (Option.some.inj h)
    have hconv : conversion cs = (10, cs) := if_neg hlast
    have hplain := hds.not_prefixed (by decide) (.inl rfl)
    rw [List.append_nil] at hplain
    rw [parseAddress_conversion (hcs ▸ hds.ne_nil) (hcs ▸ hplain), hcs, hconv, hds.stoul (.inl rfl)]

/-- A prefixed string begins with the digit 0. -/
theorem Prefixed.numberBegins {cs : List Char} (h : Prefixed cs) :
    NumberBegins (conversion cs).1 (conversion cs).2 := by
  obtain ⟨hlen, hzero, _⟩ := h
  match cs, hlen, hzero with
  | c :: x :: y :: rest, _, hzero =>
    obtain rfl : c = '0' := Option.some.inj hzero
    unfold conversion
    split
    · refine ⟨[], [], '0', (x :: y :: rest).dropLast, ?_, by simp, by simp, rfl⟩
      rw [List.dropLast_cons_of_ne_nil (List.cons_ne_nil _ _)]
      rfl
    · exact ⟨[], [], '0', x :: y :: rest, rfl, by simp, by simp, rfl⟩

theorem parseAddress_none {s : String} (hne : s.toList ≠ [])
    (h : ¬ NumberBegins (conversion s.toList).1 (conversion s.toList).2) :
    parseAddress s = none := by
  have hbase : (conversion s.toList).1 = 10 ∨ (conversion s.toList).1 = 16 := by
    unfold conversion
    split
    · exact .inr rfl
    · exact .inl rfl
  rw [parseAddress_conversion hne fun hpre => h hpre.numberBegins, stoul_none hbase h]
  rfl

/-- The empty string is 0, a number of one of the formats is itself if it is below `2 ^ 32`
and refused from `2 ^ 64` on, and a string that no number begins is refused. -/
theorem parse_address_formats (s : String) :
    (s = "" → parseAddress s = some 0) ∧
    (∀ n, AddressFormat ['x', 'X'] ['h', 'H'] s.toList n → n < 2 ^ 32 →
      parseAddress s = some (BitVec.ofNat 32 n)) ∧
    (∀ n, AddressFormat ['x', 'X'] ['h', 'H'] s.toList n → 2 ^ 64 ≤ n → parseAddress s = none) ∧
    (s ≠ "" → ¬ NumberBegins (conversion s.toList).1 (conversion s.toList).2 →
      parseAddress s = none) := by
  refine ⟨?_, fun n hformat hn => ?_, fun n hformat hn => ?_, fun hne hnone => ?_⟩
  · rintro rfl
    rfl
  · rw [parseAddress_format hformat, ofDigits, if_pos (by omega), Option.map_some,
      BitVec.setWidth_ofNat_of_le (by decide)]
  · rw [parseAddress_format hformat, ofDigits, if_neg (by omega), Option.map_none]
  · exact parseAddress_none (fun h => hne (String.toList_eq_nil_iff.mp h)) hnone

theorem parse_address_suffixed : parseAddress "1fH" = some 31 := by
  have hnumeral : Numeral 16 ['1', 'f'] (1 * 16 + 15) := .snoc (.digit (by decide)) (by decide)
  exact (parse_address_formats "1fH").2.1 _ (.suffixed (by decide) hnumeral) (by decide)

/-- The string has a value if it is of one of the three formats in small letters, and then
what the format says. -/
def ParsesExactly (s : String) : Prop :=
  ∀ v : Word, parseAddress s = some v ↔
    ∃ n < 2 ^ 32, AddressFormat ['x'] ['h'] s.toList n ∧ v = BitVec.ofNat 32 n

/-- Of no format are `10H`, which is 16, and the empty string, which is 0 but which no
command passes on. -/
theorem formats_not_exact : ¬ ParsesExactly "10H" ∧ ¬ ParsesExactly "" := by
  refine ⟨fun h => ?_, fun h => ?_⟩
  · obtain ⟨n, _, hformat, _⟩ := (h 16).mp (by decide)
    have hchars : "10H".toList = ['1', '0', 'H'] := by decide
    generalize hcs : "10H".toList = cs at hformat
    rw [hchars] at hcs
    cases hformat with
    | prefixed => cases hcs
    | suffixed hx =>
      have hlast := congrArg List.getLast? hcs
      rw [List.getLast?_concat, List.mem_singleton.mp hx] at hlast
      exact absurd hlast (by decide)
    | decimal hds =>
      obtain ⟨d, hd⟩ := hds.isDigit 'H' (hcs ▸ by decide)
      have hnone : digitOf 10 'H' = none := by decide
      exact absurd (hnone.symm.trans hd) nofun
  · obtain ⟨n, _, hformat, _⟩ := (h 0).mp rfl
    generalize hcs : "".toList = cs at hformat
    cases hformat with
    | prefixed => cases hcs
    | suffixed => exact List.append_ne_nil_of_right_ne_nil _ (List.cons_ne_nil _ _) hcs.symm
    | decimal hds => exact hds.ne_nil hcs.symm

end RiscvEmulator.Debug
