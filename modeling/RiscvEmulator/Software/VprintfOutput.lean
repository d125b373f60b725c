import RiscvEmulator.Software.VprintfNumbers

/-! # What `vsnprintf` leaves in the buffer

The directives of a format have a text of any length, up to the first that is cut short or
undefined. The buffer has as much of it as leaves room for the NUL, and a directive of the
second kind does harm only where the loop comes to it. -/
namespace RiscvEmulator.Software
open Memory

namespace Vprintf
/-! ## The text of a format -/

/-- What a directive stands for, if it is defined. -/
def Conversion.text (arg : Arg) : Conversion → Option (List Byte)
  | .unsignedLong | .unsigned => some (numeral 10 arg.word.toNat)
  | .hexLong width | .hex width => some (padded width (numeral 16 arg.word.toNat))
  | .decimal =>
    if arg.word.toInt = -2 ^ 31 then none else some (signedNumeral arg.word.toInt)
  | .string => some arg.string.chars
  | .char => some [arg.word.setWidth 8]
  | .literal c => some [c]
  | .skipped => some []

/-- The text up to the first directive that has none, and whether there is no such
directive. A `%` at the end ends the text. -/
def formatText (args : Nat → Arg) (format : List Byte) (ap : Nat) : List Byte × Bool :=
  match format with
  | [] => ([], true)
  | c :: format =>
    if c ≠ chr '%' then
      let (text, clean) := formatText args format ap
      (c :: text, clean)
    else if format = [] then ([], true)
    else match h : parseDirective format with
      | .error _ => ([], false)
      | .ok (conversion, rest) =>
        have := parseDirective_length h
        match conversion.text (args ap) with
        | none => ([], false)
        | some chars =>
          let (text, clean) :=
            formatText args rest (if conversion.takesArg then ap + 1 else ap)
          (chars ++ text, clean)
termination_by format.length
decreasing_by
  · exact Nat.lt_succ_self _
  · exact Nat.lt_succ_of_lt this

variable {str : Nat → Byte} {size : Word} {args : Nat → Arg} {text chars : List Byte} {c : Byte}

/-! ## The buffer -/

/-- A buffer that begins with a text. -/
def filled (str : Nat → Byte) (text : List Byte) : Out where
  str i := text.getD i (str i)
  written := BitVec.ofNat 32 text.length

theorem filled_written (h : text.length < 2 ^ 32) : (filled str text).written.toNat = text.length :=
  Nat.mod_eq_of_lt h

theorem put_filled (h : text.length < size.toNat) :
    put size (filled str text) c = .ok (filled str (text ++ [c])) := by
  have hwritten : (filled str text).written.toNat = text.length :=
    filled_written (Nat.lt_trans h size.isLt)
  have hroom : (filled str text).written < size := by
    rw [BitVec.lt_def, hwritten]
    exact h
  unfold put
  rw [if_pos hroom, hwritten]
  unfold filled
  congr 2
  · funext i
    rcases Nat.lt_trichotomy i text.length with hlt | rfl | hgt
    · rw [Function.update_of_ne (Nat.ne_of_lt hlt), List.getD_append _ _ _ _ hlt]
    · rw [Function.update_self, List.getD_append_right _ _ _ _ (Nat.le_refl _), Nat.sub_self]
      rfl
    · rw [Function.update_of_ne (Nat.ne_of_gt hgt), List.getD_eq_default (text ++ [c])]
      · exact List.getD_eq_default _ _ (Nat.le_of_lt hgt)
      · rw [List.length_append, List.length_singleton]
        exact hgt
  · rw [List.length_append, BitVec.ofNat_add]
    rfl

/-- There is room for a character and the NUL. -/
theorem room_iff (hsize : size ≠ 0) (h : text.length ≤ size.toNat - 1) :
    (filled str text).written < size - 1 ↔ text.length < size.toNat - 1 := by
  have hpos : 0 < size.toNat := Nat.pos_of_ne_zero (toNat_ne_zero hsize)
  have hlt := size.isLt
  have hsub : (size - 1).toNat = size.toNat - 1 :=
    BitVec.toNat_sub_of_le (show (1 : Word).toNat ≤ size.toNat from hpos)
  rw [BitVec.lt_def, filled_written (by omega), hsub]

/-- A loop that writes characters stops where the room ends. -/
theorem putAll_filled (hsize : size ≠ 0) (h : text.length ≤ size.toNat - 1) :
    putAll size (filled str text) chars =
      .ok (filled str ((text ++ chars).take (size.toNat - 1))) := by
  have hpos : 0 < size.toNat := Nat.pos_of_ne_zero (toNat_ne_zero hsize)
  induction chars generalizing text with
  | nil => rw [List.append_nil, List.take_of_length_le h]; rfl
  | cons c chars ih =>
    unfold putAll
    split
    · next hroom =>
      have hlt := (room_iff hsize h).mp hroom
      have hlength : (text ++ [c]).length ≤ size.toNat - 1 := by
        rw [List.length_append, List.length_singleton]
        omega
      have hnext := ih hlength
      rw [List.append_assoc] at hnext
      rw [put_filled (by omega)]
      exact hnext
    · next hfull =>
      have heq : text.length = size.toNat - 1 :=
        Nat.le_antisymm h (Nat.le_of_not_lt fun hlt => hfull ((room_iff hsize h).mpr hlt))
      rw [← heq, List.take_left]

/-- Truncating twice truncates once. -/
theorem take_append_take (a b d : List Byte) (n : Nat) :
    ((a ++ b).take n ++ d).take n = (a ++ (b ++ d)).take n := by
  rw [← List.append_assoc]
  generalize a ++ b = l
  rw [List.take_append, List.take_append, List.take_take, Nat.min_self, List.length_take]
  rcases Nat.le_total n l.length with hle | hge
  · rw [Nat.min_eq_left hle, Nat.sub_self, Nat.sub_eq_zero_of_le hle]
  · rw [Nat.min_eq_right hge]

/-! ## Directives -/

theorem padding_append (width : Nat) (fill : Bool) (digits : List Byte) :
    Conversion.padding width fill digits ++ digits =
      if fill then padded width digits else digits := by
  unfold Conversion.padding padded
  cases fill with
  | false => simp
  | true =>
    by_cases hlt : digits.length < width
    · rw [if_pos ⟨hlt, rfl⟩]
      rfl
    · rw [if_neg fun h => hlt h.1, Nat.sub_eq_zero_of_le (Nat.le_of_not_lt hlt)]
      rfl

theorem padded_zero (digits : List Byte) : padded 0 digits = digits := by
  unfold padded
  rw [Nat.zero_sub]
  rfl

/-- A number that is written after its padding. -/
theorem putAll_padded (hsize : size ≠ 0) (h : text.length ≤ size.toNat - 1) {width target : Nat}
    (htarget : 0 < width → target = width) (digits : List Byte) :
    (do putAll size (← putAll size (filled str text)
        (Conversion.padding target (0 < width) digits)) digits) =
      .ok (filled str ((text ++ padded width digits).take (size.toNat - 1))) := by
  have hpad : Conversion.padding target (0 < width) digits ++ digits = padded width digits := by
    rw [padding_append]
    by_cases hwidth : 0 < width
    · rw [htarget hwidth]
      simp [hwidth]
    · rw [Nat.eq_zero_of_not_pos hwidth, padded_zero]
      simp
  rw [putAll_filled hsize h]
  show putAll size (filled str _) digits = _
  rw [putAll_filled hsize (List.length_take_le _ _), take_append_take, hpad]

/-- A directive writes its text, as far as there is room. -/
theorem output_filled (hsize : size ≠ 0) (h : text.length ≤ size.toNat - 1) (arg : Arg)
    (conversion : Conversion) : conversion.output size arg (filled str text) =
      match conversion.text arg with
      | none => .error .signedOverflow
      | some chars => .ok (filled str ((text ++ chars).take (size.toNat - 1))) := by
  cases conversion with
  | unsignedLong => rw [Conversion.output, unsignedNumber_eq]; exact putAll_filled hsize h
  | unsigned => rw [Conversion.output, unsignedNumber_eq]; exact putAll_filled hsize h
  | hexLong width =>
    rw [Conversion.output, hexNumber_eq]
    exact putAll_padded hsize h (fun _ => rfl) _
  | hex width =>
    rw [Conversion.output, hexNumber_eq]
    exact putAll_padded hsize h (fun hwidth => if_pos hwidth) _
  | decimal =>
    rw [Conversion.output, signedNumber_eq, Conversion.text]
    by_cases hmin : arg.word.toInt = -2 ^ 31
    · rw [if_pos hmin, if_pos hmin]
      rfl
    · rw [if_neg hmin, if_neg hmin]
      exact putAll_filled hsize h
  | string => exact putAll_filled hsize h
  | char => exact putAll_filled hsize h
  | literal c => exact putAll_filled hsize h
  | skipped =>
    rw [Conversion.output, Conversion.text]
    dsimp only
    rw [List.append_nil, List.take_of_length_le h]

/-! ## The loop -/

/-- A `%` at the end of the format. -/
theorem loop_last {ap : Nat} {o : Out} (hroom : o.written < size - 1) :
    loop size args [chr '%'] ap o = .ok o := by
  rw [loop, if_pos hroom, if_neg (by simp), if_pos rfl]

theorem formatText_last {ap : Nat} : formatText args [chr '%'] ap = ([], true) := by
  rw [formatText, if_neg (by simp), if_pos rfl]

theorem loop_percent {format : List Byte} {ap : Nat} {o : Out} (hroom : o.written < size - 1)
    (hne : format ≠ []) : loop size args (chr '%' :: format) ap o =
      match parseDirective format with
      | .error fault => .error fault
      | .ok r => r.1.output size (args ap) o >>=
        loop size args r.2 (if r.1.takesArg then ap + 1 else ap) := by
  rw [loop, if_pos hroom, if_neg (by simp), if_neg hne]
  split
  · next hparse => rw [hparse]
  · next hparse =>
    dsimp only
    rw [hparse]

theorem formatText_percent {format : List Byte} {ap : Nat} (hne : format ≠ []) :
    formatText args (chr '%' :: format) ap =
      match parseDirective format with
      | .error _ => ([], false)
      | .ok r => match r.1.text (args ap) with
        | none => ([], false)
        | some chars =>
          (chars ++ (formatText args r.2 (if r.1.takesArg then ap + 1 else ap)).1,
            (formatText args r.2 (if r.1.takesArg then ap + 1 else ap)).2) := by
  rw [formatText, if_neg (by simp), if_neg hne]
  split
  · next hparse => rw [hparse]
  · next hparse =>
    dsimp only
    rw [hparse]

theorem loop_full {format : List Byte} {ap : Nat} {o : Out} (hfull : ¬o.written < size - 1) :
    loop size args format ap o = .ok o := by
  cases format with
  | nil => rw [loop]
  | cons c format => rw [loop, if_neg hfull]

/-- What the loop is to leave after a text, or that it faults. -/
def LoopEnds (str : Nat → Byte) (size : Word) (text : List Byte) (rest : List Byte × Bool)
    (result : Except Fault Out) : Prop :=
  if rest.2 = true ∨ size.toNat - 1 ≤ (text ++ rest.1).length then
    result = .ok (filled str ((text ++ rest.1).take (size.toNat - 1)))
  else ∃ fault, result = .error fault

/-- What comes first is written first. -/
theorem LoopEnds.after {first : List Byte} {rest : List Byte × Bool} {result : Except Fault Out}
    (h : LoopEnds str size ((text ++ first).take (size.toNat - 1)) rest result) :
    LoopEnds str size text (first ++ rest.1, rest.2) result := by
  unfold LoopEnds at h ⊢
  have hlength : (((text ++ first).take (size.toNat - 1)) ++ rest.1).length =
      min (size.toNat - 1) (text ++ first).length + rest.1.length := by
    rw [List.length_append, List.length_take]
  have hwhole : (text ++ (first ++ rest.1)).length =
      (text ++ first).length + rest.1.length := by
    rw [← List.append_assoc, List.length_append]
  rw [take_append_take, hlength] at h
  rw [hwhole]
  by_cases hcond : rest.2 = true ∨ size.toNat - 1 ≤ (text ++ first).length + rest.1.length
  · rw [if_pos hcond]
    rwa [if_pos (hcond.imp_right fun _ => by omega)] at h
  · rw [if_neg hcond]
    rwa [if_neg fun h' => hcond (h'.imp_right fun _ => by omega)] at h

theorem loop_ends (hsize : size ≠ 0) {format : List Byte} {ap : Nat}
    (h : text.length ≤ size.toNat - 1) :
    LoopEnds str size text (formatText args format ap)
      (loop size args format ap (filled str text)) := by
  induction hn : format.length using Nat.strongRecOn generalizing format ap text with
  | ind n ih =>
    subst hn
    by_cases hroom : (filled str text).written < size - 1
    · have hlt := (room_iff hsize h).mp hroom
      cases format with
      | nil =>
        rw [loop, formatText]
        unfold LoopEnds
        rw [if_pos (Or.inl rfl), List.append_nil, List.take_of_length_le h]
      | cons d format =>
        by_cases hpercent : d = chr '%'
        · subst hpercent
          by_cases hlast : format = []
          · subst hlast
            rw [loop_last hroom, formatText_last]
            unfold LoopEnds
            rw [if_pos (Or.inl rfl), List.append_nil, List.take_of_length_le h]
          · rw [loop_percent hroom hlast, formatText_percent hlast]
            cases hparse : parseDirective format with
            | error fault =>
              unfold LoopEnds
              rw [List.append_nil, if_neg (by simp; omega)]
              exact ⟨fault, rfl⟩
            | ok r =>
              have hshorter := parseDirective_length hparse
              dsimp only
              rw [output_filled hsize h]
              cases r.1.text (args ap) with
              | none =>
                unfold LoopEnds
                rw [List.append_nil, if_neg (by simp; omega)]
                exact ⟨.signedOverflow, rfl⟩
              | some chars =>
                exact (ih r.2.length (Nat.lt_succ_of_lt hshorter) (List.length_take_le _ _)
                  rfl).after
        · rw [loop, formatText, if_pos hroom, if_pos hpercent, if_pos hpercent,
            put_filled (by omega)]
          have hone : (text ++ [d]).length ≤ size.toNat - 1 := by
            rw [List.length_append, List.length_singleton]
            exact hlt
          have hrest : LoopEnds str size ((text ++ [d]).take (size.toNat - 1))
              (formatText args format ap)
              (loop size args format ap (filled str (text ++ [d]))) := by
            rw [List.take_of_length_le hone]
            exact ih format.length (Nat.lt_succ_self _) hone rfl
          exact hrest.after
    · -- The buffer is full, and the rest of the text is cut off.
      have heq : text.length = size.toNat - 1 :=
        Nat.le_antisymm h (Nat.le_of_not_lt fun hlt => hroom ((room_iff hsize h).mpr hlt))
      unfold LoopEnds
      rw [if_pos (Or.inr (by rw [← heq, List.length_append]; exact Nat.le_add_right _ _)),
        loop_full hroom, ← heq, List.take_left]

/-! ## The call -/

/-- The buffer has these characters, with a NUL behind them if it has a place; nothing else
is written, and they are counted. -/
structure Printed (str : Nat → Byte) (size : Word) (chars : List Byte)
    (result : Word × (Nat → Byte)) : Prop where
  count : result.1.toInt = chars.length
  content : ∀ i c, chars[i]? = some c → result.2 i = c
  terminated : 0 < size.toNat → chars.length < size.toNat ∧ result.2 chars.length = 0
  kept : ∀ i, size.toNat ≤ i ∨ chars.length < i → result.2 i = str i

/-- No fault, and as much of the text as there is room for. -/
def Safe (str : Nat → Byte) (size : Word) (format : CString) (args : Nat → Arg) : Prop :=
  ∃ result, vsnprintf str size format args = .ok result ∧
    Printed str size ((formatText args format.chars 0).1.take (size.toNat - 1)) result

theorem toInt_ofNat_iff {n : Nat} (h : n < 2 ^ 32) :
    (BitVec.ofNat 32 n).toInt = n ↔ n < 2 ^ 31 := by
  rw [BitVec.toInt_eq_toNat_cond, BitVec.toNat_ofNat, Nat.mod_eq_of_lt h]
  split <;> omega

/-- A filled buffer is closed with the NUL. -/
theorem printed_filled_iff (h : text.length < size.toNat) :
    Printed str size text
      ((filled str text).written, Function.update (filled str text).str text.length 0) ↔
    text.length < 2 ^ 31 := by
  have hcount := toInt_ofNat_iff (Nat.lt_trans h size.isLt)
  refine ⟨fun hp => hcount.mp hp.count, fun hlt => ⟨hcount.mpr hlt, ?_, ?_, ?_⟩⟩
  · intro i c hi
    have hlt := (List.getElem?_eq_some_iff.mp hi).1
    dsimp only
    rw [Function.update_of_ne (Nat.ne_of_lt hlt)]
    unfold filled
    dsimp only
    rw [List.getD_eq_getElem?_getD, hi]
    rfl
  · refine fun _ => ⟨h, ?_⟩
    dsimp only
    rw [Function.update_self]
  · intro i hi
    have hbehind : text.length < i := hi.elim (Nat.lt_of_lt_of_le h) id
    dsimp only
    rw [Function.update_of_ne (Nat.ne_of_gt hbehind)]
    exact List.getD_eq_default _ _ (Nat.le_of_lt hbehind)

/-- Nothing can be written into no buffer, the NUL neither. -/
theorem vsnprintf_zero (format : CString) (result : Word × (Nat → Byte)) :
    vsnprintf str 0 format args ≠ .ok result := by
  intro h
  unfold vsnprintf at h
  cases hloop : loop 0 args format.chars 0 { str := str, written := 0 } with
  | error fault =>
    rw [hloop] at h
    cases h
  | ok o =>
    rw [hloop] at h
    dsimp only [bind, Except.bind] at h
    rw [if_neg (by simp), if_pos rfl] at h
    cases h

theorem vsnprintf_filled {format : CString} (ht : text.length < size.toNat)
    (hloop : loop size args format.chars 0 { str := str, written := 0 } = .ok (filled str text)) :
    vsnprintf str size format args = .ok ((filled str text).written,
      Function.update (filled str text).str text.length 0) := by
  have hwritten : (filled str text).written.toNat = text.length :=
    filled_written (Nat.lt_trans ht size.isLt)
  have hroom : (filled str text).written < size := by
    rw [BitVec.lt_def, hwritten]
    exact ht
  unfold vsnprintf
  rw [hloop]
  dsimp only [bind, Except.bind]
  rw [if_pos hroom, hwritten]
  rfl

/-- No bad directive is reached. -/
def Reaches (size : Word) (whole : List Byte × Bool) : Prop :=
  whole.2 = true ∨ size.toNat - 1 ≤ whole.1.length

variable (str) in
/-- What a call returns whose loop ends. -/
theorem vsnprintf_ok (hsize : size ≠ 0) {format : CString}
    (h : Reaches size (formatText args format.chars 0)) : ∃ result,
      vsnprintf str size format args = .ok result ∧
      (Printed str size ((formatText args format.chars 0).1.take (size.toNat - 1)) result ↔
        min (size.toNat - 1) (formatText args format.chars 0).1.length < 2 ^ 31) := by
  have hpos : 0 < size.toNat := Nat.pos_of_ne_zero (toNat_ne_zero hsize)
  have hends : LoopEnds str size [] (formatText args format.chars 0)
      (loop size args format.chars 0 (filled str [])) := loop_ends hsize (Nat.zero_le _)
  unfold LoopEnds at hends
  unfold Reaches at h
  rw [List.nil_append, if_pos h] at hends
  have hlength : ((formatText args format.chars 0).1.take (size.toNat - 1)).length <
      size.toNat := by
    have := List.length_take_le (size.toNat - 1) (formatText args format.chars 0).1
    omega
  refine ⟨_, vsnprintf_filled hlength hends, ?_⟩
  rw [printed_filled_iff hlength, List.length_take]

theorem vsnprintf_fault (hsize : size ≠ 0) {format : CString}
    (h : ¬Reaches size (formatText args format.chars 0)) (result : Word × (Nat → Byte)) :
    vsnprintf str size format args ≠ .ok result := by
  have hends : LoopEnds str size [] (formatText args format.chars 0)
      (loop size args format.chars 0 (filled str [])) := loop_ends hsize (Nat.zero_le _)
  unfold LoopEnds at hends
  unfold Reaches at h
  rw [List.nil_append, if_neg h] at hends
  obtain ⟨fault, hfault⟩ := hends
  intro hok
  have hloop : loop size args format.chars 0 { str := str, written := 0 } = .error fault := hfault
  unfold vsnprintf at hok
  rw [hloop] at hok
  cases hok

/-- The call is safe exactly if there is a buffer, no directive that is cut short or
undefined is reached, and the count fits in an `int`. -/
theorem vsnprintf_safe_iff (str : Nat → Byte) (size : Word) (format : CString)
    (args : Nat → Arg) : Safe str size format args ↔ size ≠ 0 ∧
      Reaches size (formatText args format.chars 0) ∧
      min (size.toNat - 1) (formatText args format.chars 0).1.length < 2 ^ 31 := by
  by_cases hsize : size = 0
  · subst hsize
    exact iff_of_false (fun ⟨result, hok, _⟩ => vsnprintf_zero format result hok) fun h => h.1 rfl
  · by_cases hreaches : Reaches size (formatText args format.chars 0)
    · obtain ⟨result, hok, hprinted⟩ := vsnprintf_ok str hsize hreaches
      constructor
      · rintro ⟨result', hok', hp⟩
        obtain rfl := Except.ok.inj (hok.symm.trans hok')
        exact ⟨hsize, hreaches, hprinted.mp hp⟩
      · rintro ⟨-, -, hcount⟩
        exact ⟨result, hok, hprinted.mpr hcount⟩
    · exact iff_of_false (fun ⟨result, hok, _⟩ => vsnprintf_fault hsize hreaches result hok)
        fun h => hreaches h.2.1

/-- A buffer of size 0 is written to all the same. -/
theorem vsnprintf_no_buffer : ¬∀ str size format args, Safe str size format args := by
  intro h
  obtain ⟨result, hok, -⟩ := h (fun _ => 0) 0 ⟨[], by simp⟩ fun _ => ⟨0, ⟨[], by simp⟩⟩
  exact vsnprintf_zero _ result hok

/-! ## Integers -/

/-- The directives that print an integer. -/
inductive IntegerConversion where
  | d | u | lu | x | X | lx | lX
deriving DecidableEq, Repr

namespace IntegerConversion

def letters : IntegerConversion → List Byte
  | .d => [chr 'd']
  | .u => [chr 'u']
  | .lu => [chr 'l', chr 'u']
  | .x => [chr 'x']
  | .X => [chr 'X']
  | .lx => [chr 'l', chr 'x']
  | .lX => [chr 'l', chr 'X']

def conversion (width : Nat) : IntegerConversion → Conversion
  | .d => .decimal
  | .u => .unsigned
  | .lu => .unsignedLong
  | .x | .X => .hex width
  | .lx | .lX => .hexLong width

/-- What is to be printed for a value. -/
def numeralOf (width : Nat) (val : Word) : IntegerConversion → List Byte
  | .d => signedNumeral val.toInt
  | .u | .lu => numeral 10 val.toNat
  | .x | .X | .lx | .lX => padded width (numeral 16 val.toNat)

theorem letters_noNul (k : IntegerConversion) : ∀ c ∈ k.letters, c ≠ 0 := by
  cases k <;> decide

theorem parseLetters_letters (k : IntegerConversion) (width : Nat) :
    parseLetters width k.letters = .ok (k.conversion width, []) := by
  cases k <;> rfl

theorem text_conversion (k : IntegerConversion) (width : Nat) (arg : Arg) :
    (k.conversion width).text arg =
      if k = .d ∧ arg.word.toInt = -2 ^ 31 then none
      else some (k.numeralOf width arg.word) := by
  cases k <;> first | rfl | simp [conversion, Conversion.text, numeralOf]

end IntegerConversion

/-- The digits of a width. -/
structure Width where
  digits : List Byte
  areDigits : ∀ c ∈ digits, isDigit c = true

def widthFrom (width : Nat) (digits : List Byte) : Nat :=
  digits.foldl (fun width c => width * 10 + (c - chr '0').toNat) width

def Width.value (w : Width) : Nat := widthFrom 0 w.digits

theorem le_widthFrom (width : Nat) (digits : List Byte) : width ≤ widthFrom width digits := by
  induction digits generalizing width with
  | nil => exact Nat.le_refl _
  | cons c digits ih =>
    have hrest := ih (width * 10 + (c - chr '0').toNat)
    exact Nat.le_trans (by omega) hrest

/-- The width that is read is that of its digits, if it is an `int`. -/
theorem parseWidth_digits {width : Nat} {digits rest : List Byte}
    (hdigits : ∀ c ∈ digits, isDigit c = true) (hrest : ∀ c ∈ rest.head?, isDigit c = false)
    (hwidth : width < 2 ^ 31) : parseWidth width (digits ++ rest) =
      if widthFrom width digits < 2 ^ 31 then .ok (widthFrom width digits, rest)
      else .error .signedOverflow := by
  induction digits generalizing width with
  | nil =>
    rw [List.nil_append]
    have hvalue : widthFrom width [] = width := rfl
    rw [hvalue, if_pos hwidth]
    cases rest with
    | nil => rfl
    | cons c rest =>
      unfold parseWidth
      rw [hrest c rfl]
      rfl
  | cons c digits ih =>
    have hle := le_widthFrom (width * 10 + (c - chr '0').toNat) digits
    have hcons : widthFrom width (c :: digits) =
      widthFrom (width * 10 + (c - chr '0').toNat) digits := rfl
    rw [List.cons_append, parseWidth, if_pos (hdigits c List.mem_cons_self), hcons]
    dsimp only
    split
    · next hfits => exact ih (fun e he => hdigits e (List.mem_cons_of_mem c he)) hfits
    · next hover => rw [if_neg (by omega)]

/-- A `%` with a width and the letters of a conversion. -/
def directive (width : Width) (k : IntegerConversion) : CString where
  chars := chr '%' :: (width.digits ++ k.letters)
  noNul := by
    have hdigit : ∀ c, isDigit c = true → c ≠ 0 := by decide
    intro c hc
    rcases List.mem_cons.mp hc with rfl | hc
    · decide
    · rcases List.mem_append.mp hc with hc | hc
      · exact hdigit c (width.areDigits c hc)
      · exact k.letters_noNul c hc

variable (args) in
/-- The text of a directive, if its width is an `int` and its value has one. -/
theorem formatText_directive (width : Width) (k : IntegerConversion) :
    formatText args (directive width k).chars 0 =
      if width.value < 2 ^ 31 ∧ ¬(k = .d ∧ (args 0).word.toInt = -2 ^ 31) then
        (k.numeralOf width.value (args 0).word, true)
      else ([], false) := by
  have hne : width.digits ++ k.letters ≠ [] := by cases k <;> simp [IntegerConversion.letters]
  have hhead : ∀ c ∈ k.letters.head?, isDigit c = false := by cases k <;> decide
  have hparse : parseDirective (width.digits ++ k.letters) =
      if width.value < 2 ^ 31 then .ok (k.conversion width.value, [])
      else .error .signedOverflow := by
    unfold parseDirective
    rw [parseWidth_digits width.areDigits hhead (by decide)]
    by_cases hwidth : width.value < 2 ^ 31
    · rw [if_pos hwidth, if_pos (show widthFrom 0 width.digits < 2 ^ 31 from hwidth)]
      exact k.parseLetters_letters _
    · rw [if_neg hwidth, if_neg (show ¬widthFrom 0 width.digits < 2 ^ 31 from hwidth)]
      rfl
  unfold directive
  rw [formatText_percent hne, hparse]
  by_cases hwidth : width.value < 2 ^ 31
  · rw [if_pos hwidth]
    dsimp only
    rw [k.text_conversion]
    by_cases hmin : k = .d ∧ (args 0).word.toInt = -2 ^ 31
    · have hout : ¬(width.value < 2 ^ 31 ∧ ¬(k = .d ∧ (args 0).word.toInt = -2 ^ 31)) :=
        fun h => h.2 hmin
      rw [if_pos hmin, if_neg hout]
    · have hin : width.value < 2 ^ 31 ∧ ¬(k = .d ∧ (args 0).word.toInt = -2 ^ 31) :=
        ⟨hwidth, hmin⟩
      rw [if_neg hmin, if_pos hin, formatText]
      simp
  · rw [if_neg hwidth, if_neg fun h => hwidth h.1]

theorem numeral_length (base n k : Nat) (hbase : 1 < base) (hk : 0 < k) (h : n < base ^ k) :
    0 < (numeral base n).length ∧ (numeral base n).length ≤ k := by
  by_cases hzero : n = 0
  · subst hzero
    exact ⟨Nat.one_pos, hk⟩
  · rw [numeral_pos hzero, List.length_reverse, List.length_map]
    exact ⟨List.length_pos_of_ne_nil (Nat.digits_ne_nil_iff_ne_zero.mpr hzero),
      (Nat.digits_length_le_iff hbase n).mpr h⟩

theorem signedNumeral_length (val : Word) :
    0 < (signedNumeral val.toInt).length ∧ (signedNumeral val.toInt).length ≤ 11 := by
  have hlt := val.toInt_lt
  have hle := val.le_toInt
  have hdigits := numeral_length 10 val.toInt.natAbs 10 (by decide) (by decide) (by omega)
  unfold signedNumeral
  split
  · rw [List.length_cons]
    omega
  · omega

theorem padded_length (width : Nat) (digits : List Byte) :
    (padded width digits).length = max width digits.length := by
  unfold padded
  rw [List.length_append, List.length_replicate]
  omega

/-- A numeral has a digit, and no more of them than its width asks for or a word has. -/
theorem numeralOf_length (k : IntegerConversion) (width : Nat) (val : Word) :
    0 < (k.numeralOf width val).length ∧ (k.numeralOf width val).length ≤ max width 11 := by
  have hval := val.isLt
  have hdecimal := numeral_length 10 val.toNat 10 (by decide) (by decide) (by omega)
  have hhex := numeral_length 16 val.toNat 8 (by decide) (by decide) hval
  have hpadded := padded_length width (numeral 16 val.toNat)
  have hsigned := signedNumeral_length val
  cases k <;> simp only [IntegerConversion.numeralOf] <;> omega

/-- `divmod10` divides by 10, and a directive prints its numeral unless its width or the
negative of its value is no `int`. -/
theorem integer_conversions (n : Word) (k : IntegerConversion) (width : Width)
    (str : Nat → Byte) (size : Word) (args : Nat → Arg) : divmod10 n = (n / 10, n % 10) ∧
    ((k.numeralOf width.value (args 0).word).length < size.toNat →
      ((∃ result, vsnprintf str size (directive width k) args = .ok result ∧
        Printed str size (k.numeralOf width.value (args 0).word) result) ↔
      width.value < 2 ^ 31 ∧ ¬(k = .d ∧ (args 0).word.toInt = -2 ^ 31))) := by
  refine ⟨divmod10_eq n, fun hroom => ?_⟩
  obtain ⟨hpos, hlength⟩ := numeralOf_length k width.value (args 0).word
  have hsize : size ≠ 0 := by
    rintro rfl
    exact absurd hroom (Nat.not_lt_zero _)
  have htext := formatText_directive args width k
  by_cases hdefined : width.value < 2 ^ 31 ∧ ¬(k = .d ∧ (args 0).word.toInt = -2 ^ 31)
  · rw [if_pos hdefined] at htext
    have hreaches : Reaches size (formatText args (directive width k).chars 0) :=
      .inl (congrArg Prod.snd htext)
    obtain ⟨result, hok, hprinted⟩ := vsnprintf_ok str hsize hreaches
    rw [htext] at hprinted
    dsimp only at hprinted
    rw [List.take_of_length_le (by omega), Nat.min_eq_right (by omega)] at hprinted
    have hcount : (k.numeralOf width.value (args 0).word).length < 2 ^ 31 := by omega
    exact iff_of_true ⟨result, hok, hprinted.mpr hcount⟩ hdefined
  · rw [if_neg hdefined] at htext
    have hreaches : ¬Reaches size (formatText args (directive width k).chars 0) := by
      rw [htext]
      rintro (h | h)
      · cases h
      · rw [List.length_nil] at h
        omega
    exact iff_of_false (fun ⟨result, hok, _⟩ => vsnprintf_fault hsize hreaches result hok) hdefined

/-- `%08X` of `0xBEEF` into 16 bytes. -/
theorem integer_conversions_hex : (∃ result, vsnprintf (fun _ => 0) 16
      (directive ⟨[chr '0', chr '8'], by decide⟩ .X) (fun _ => ⟨0xBEEF, ⟨[], by simp⟩⟩) =
        .ok result ∧
    Printed (fun _ => 0) 16 ("0000BEEF".toList.map chr) result) :=
  ((integer_conversions 0 .X ⟨[chr '0', chr '8'], by decide⟩ (fun _ => 0) 16
    fun _ => ⟨0xBEEF, ⟨[], by simp⟩⟩).2 (by decide)).mpr ⟨by decide, by decide⟩

/-- The negative of the smallest integer, that `%d` takes, is undefined. -/
theorem smallest_integer_undefined :
    ¬∀ (k : IntegerConversion) (width : Width) (str : Nat → Byte) (size : Word)
      (args : Nat → Arg), (k.numeralOf width.value (args 0).word).length < size.toNat →
      ∃ result, vsnprintf str size (directive width k) args = .ok result ∧
        Printed str size (k.numeralOf width.value (args 0).word) result := by
  intro h
  have hroom : (IntegerConversion.d.numeralOf 0 0x80000000).length < (16 : Word).toNat := by decide
  obtain ⟨result, hok, -⟩ := h .d ⟨[], by simp⟩ (fun _ => 0) 16
    (fun _ => ⟨0x80000000, ⟨[], by simp⟩⟩) hroom
  refine vsnprintf_fault (by decide) ?_ result hok
  rw [formatText_directive, if_neg fun h => h.2 ⟨rfl, by decide⟩]
  rintro (h | h)
  · cases h
  · exact absurd h (by decide)

end Vprintf
end RiscvEmulator.Software
