import Mathlib.Data.Nat.Digits.Defs
import Mathlib.Logic.Function.Basic
import RiscvEmulator.Memory.Word

/-! # Formatted output

`vsnprintf` of `vprintf.c`, with the numbers it prints. What the language leaves undefined
and every access outside of a buffer is a fault; the target has 32-bit `int`, `long` and
`size_t`. -/
namespace RiscvEmulator.Software
open Memory

namespace Vprintf

inductive Fault where
  | formatRead | bufferWrite | numBuf | signedOverflow
deriving DecidableEq, Repr

/-- The characters before a terminating NUL. -/
structure CString where
  chars : List Byte
  noNul : ∀ c ∈ chars, c ≠ 0

/-- An argument as the directive reads it that takes it. -/
structure Arg where
  word : Word
  string : CString

/-- The code of a character of the source. -/
def chr (c : Char) : Byte := BitVec.ofNat 8 c.toNat

/-! ## Numbers -/

/-- One of the loops of `divmod10`: take a chunk from `r` as long as it fits. -/
def subtractChunks (chunk add : Word) (q r : Word) : Word × Word :=
  if 0 < chunk ∧ chunk ≤ r then subtractChunks chunk add (q + add) (r - chunk) else (q, r)
termination_by r.toNat
decreasing_by
  rename_i h
  have hpos : 0 < chunk.toNat := h.1
  have hle : chunk.toNat ≤ r.toNat := h.2
  rw [BitVec.toNat_sub_of_le h.2]
  omega

/-- The quotient and the remainder. -/
def divmod10 (n : Word) : Word × Word :=
  let (q, r) := subtractChunks 1000 100 0 n
  let (q, r) := subtractChunks 100 10 q r
  subtractChunks 10 1 q r

theorem subtractChunks_eq {chunk : Word} (hpos : 0 < chunk.toNat) (add q r : Word) :
    subtractChunks chunk add q r = (q + add * BitVec.ofNat 32 (r.toNat / chunk.toNat),
      BitVec.ofNat 32 (r.toNat % chunk.toNat)) := by
  fun_induction subtractChunks chunk add q r with
  | case1 q r h ih =>
    have hle : chunk.toNat ≤ r.toNat := h.2
    have hdiv : r.toNat / chunk.toNat = (r.toNat - chunk.toNat) / chunk.toNat + 1 :=
      (Nat.div_eq_sub_div hpos hle)
    have hmod : r.toNat % chunk.toNat = (r.toNat - chunk.toNat) % chunk.toNat :=
      Nat.mod_eq_sub_mod hle
    rw [ih, BitVec.toNat_sub_of_le h.2, ← hmod, hdiv, BitVec.ofNat_add, BitVec.mul_add,
      BitVec.add_assoc, BitVec.add_comm add]
    simp
  | case2 q r h =>
    have hlt : r.toNat < chunk.toNat := by
      by_contra hle
      exact h ⟨hpos, Nat.le_of_not_lt hle⟩
    rw [Nat.div_eq_of_lt hlt, Nat.mod_eq_of_lt hlt]
    simp

theorem divmod10_eq (n : Word) : divmod10 n = (n / 10, n % 10) := by
  unfold divmod10
  rw [subtractChunks_eq (by decide)]
  dsimp only
  rw [subtractChunks_eq (by decide), subtractChunks_eq (by decide)]
  have hn := n.isLt
  have h1000 : (1000 : Word).toNat = 1000 := rfl
  have h100 : (100 : Word).toNat = 100 := rfl
  have h10 : (10 : Word).toNat = 10 := rfl
  have hr : (BitVec.ofNat 32 (n.toNat % 1000)).toNat = n.toNat % 1000 :=
    Nat.mod_eq_of_lt (by omega)
  have hr' : (BitVec.ofNat 32 (n.toNat % 1000 % 100)).toNat = n.toNat % 1000 % 100 :=
    Nat.mod_eq_of_lt (by omega)
  rw [h1000, h100, h10, hr, hr']
  refine Prod.ext ?_ (BitVec.eq_of_toNat_eq ?_)
  · have hsum : (0 + 100 * BitVec.ofNat 32 (n.toNat / 1000) +
        10 * BitVec.ofNat 32 (n.toNat % 1000 / 100) +
        1 * BitVec.ofNat 32 (n.toNat % 1000 % 100 / 10) : Word) =
        BitVec.ofNat 32 (0 + 100 * (n.toNat / 1000) + 10 * (n.toNat % 1000 / 100) +
          1 * (n.toNat % 1000 % 100 / 10)) := by
      simp only [BitVec.ofNat_add, BitVec.ofNat_mul]
      rfl
    have hquotient : 0 + 100 * (n.toNat / 1000) + 10 * (n.toNat % 1000 / 100) +
        1 * (n.toNat % 1000 % 100 / 10) = n.toNat / 10 := by omega
    apply BitVec.eq_of_toNat_eq
    rw [hsum, hquotient, BitVec.toNat_udiv, h10, BitVec.toNat_ofNat]
    exact Nat.mod_eq_of_lt (by omega)
  · rw [BitVec.toNat_ofNat, BitVec.toNat_umod, h10, Nat.mod_eq_of_lt (by omega)]
    omega

/-- `num_buf[i++] = c`. -/
def push (numBuf : List Byte) (c : Byte) : Except Fault (List Byte) :=
  if numBuf.length < 20 then .ok (numBuf ++ [c]) else .error .numBuf

/-- The decimal digits, the last one first. -/
def decimalDigits (numBuf : List Byte) (val : Word) : Except Fault (List Byte) :=
  if 0 < val then do
    let numBuf ← push numBuf (chr '0' + (divmod10 val).2.setWidth 8)
    decimalDigits numBuf (divmod10 val).1
  else .ok numBuf
termination_by val.toNat
decreasing_by
  rename_i h
  have hpos : 0 < val.toNat := h
  rw [divmod10_eq]
  exact Nat.lt_of_le_of_lt (Nat.le_of_eq (BitVec.toNat_udiv ..)) (Nat.div_lt_self hpos (by decide))

/-- `hex_chars`. -/
def hexChars (digit : Nat) : Byte := chr (String.toList "0123456789ABCDEF" |>.getD digit '0')

def hexDigits (numBuf : List Byte) (val : Word) : Except Fault (List Byte) :=
  if 0 < val then do
    let numBuf ← push numBuf (hexChars (val &&& 0xF).toNat)
    hexDigits numBuf (val >>> 4)
  else .ok numBuf
termination_by val.toNat
decreasing_by
  rename_i h
  have hpos : 0 < val.toNat := h
  rw [BitVec.toNat_ushiftRight, Nat.shiftRight_eq_div_pow]
  exact Nat.div_lt_self hpos (by decide)

/-- The swaps that reverse a number in place. -/
def swapEnds (numBuf : List Byte) (j : Nat) : List Byte :=
  let i := numBuf.length
  (numBuf.set j (numBuf.getD (i - 1 - j) 0)).set (i - 1 - j) (numBuf.getD j 0)

def reverseNumber (numBuf : List Byte) : List Byte :=
  (List.range (numBuf.length / 2)).foldl swapEnds numBuf

/-- What `%u` and `%lu` leave in `num_buf`. -/
def unsignedNumber (val : Word) : Except Fault (List Byte) :=
  if val = 0 then push [] (chr '0') else return reverseNumber (← decimalDigits [] val)

/-- What `%x` and its kind leave there. -/
def hexNumber (val : Word) : Except Fault (List Byte) :=
  if val = 0 then push [] (chr '0') else return reverseNumber (← hexDigits [] val)

/-- What `%d` leaves there. The smallest integer has no negative. -/
def signedNumber (val : Word) : Except Fault (List Byte) :=
  if val = 0 then push [] (chr '0')
  else if val.toInt < 0 then do
    if val.toInt = -2 ^ 31 then throw .signedOverflow
    let numBuf ← decimalDigits [] (-val)
    let numBuf ← push numBuf (chr '-')
    return reverseNumber numBuf
  else return reverseNumber (← decimalDigits [] val)

/-! ## Output -/

/-- The buffer and how much of it is written. -/
structure Out where
  str : Nat → Byte
  written : Word

/-- `str[written++] = c`. -/
def put (size : Word) (o : Out) (c : Byte) : Except Fault Out :=
  if o.written < size then
    .ok { str := Function.update o.str o.written.toNat c, written := o.written + 1 }
  else .error .bufferWrite

/-- A loop that writes characters as long as there is room for the NUL. -/
def putAll (size : Word) (o : Out) : List Byte → Except Fault Out
  | [] => .ok o
  | c :: chars => if o.written < size - 1 then do putAll size (← put size o c) chars else .ok o

/-! ## Directives -/

/-- What follows a `%` and its width. -/
inductive Conversion where
  | unsignedLong
  | hexLong (width : Nat)
  /-- `l` with a letter that it does not know. -/
  | skipped
  | string
  | char
  | decimal
  | unsigned
  | hex (width : Nat)
  /-- `%%`, or a letter that it does not know. -/
  | literal (c : Byte)
deriving DecidableEq, Repr

namespace Conversion

def takesArg : Conversion → Bool
  | .skipped | .literal _ => false
  | _ => true

/-- The zeros before a hexadecimal number. -/
def padding (targetWidth : Nat) (fillZero : Bool) (numBuf : List Byte) : List Byte :=
  if numBuf.length < targetWidth ∧ fillZero then
    List.replicate (targetWidth - numBuf.length) (chr '0')
  else []

def output (size : Word) (arg : Arg) (o : Out) : Conversion → Except Fault Out
  | .unsignedLong | .unsigned => do putAll size o (← unsignedNumber arg.word)
  | .hexLong width => do
    let numBuf ← hexNumber arg.word
    putAll size (← putAll size o (padding width (0 < width) numBuf)) numBuf
  | .hex width => do
    let numBuf ← hexNumber arg.word
    let targetWidth := if 0 < width then width else 8
    putAll size (← putAll size o (padding targetWidth (0 < width) numBuf)) numBuf
  | .decimal => do putAll size o (← signedNumber arg.word)
  | .string => putAll size o arg.string.chars
  | .char => putAll size o [arg.word.setWidth 8]
  | .literal c => putAll size o [c]
  | .skipped => .ok o

end Conversion

def isDigit (c : Byte) : Bool := chr '0' ≤ c && c ≤ chr '9'

/-- The width, in an `int`, and what follows it. -/
def parseWidth (width : Nat) : List Byte → Except Fault (Nat × List Byte)
  | [] => .ok (width, [])
  | c :: format =>
    if isDigit c then
      let width := width * 10 + (c - chr '0').toNat
      if width < 2 ^ 31 then parseWidth width format else .error .signedOverflow
    else .ok (width, c :: format)

/-- The letters of a directive. With none of them left, the NUL is passed and the next
character of the format is one behind it. -/
def parseLetters (width : Nat) : List Byte → Except Fault (Conversion × List Byte)
  | [] => .error .formatRead
  | c :: format => match Char.ofNat c.toNat with
    | 'l' => match format with
      | [] => .error .formatRead
      | c :: format => match Char.ofNat c.toNat with
        | 'u' => .ok (.unsignedLong, format)
        | 'X' | 'x' => .ok (.hexLong width, format)
        | _ => .ok (.skipped, format)
    | 's' => .ok (.string, format)
    | 'c' => .ok (.char, format)
    | 'd' => .ok (.decimal, format)
    | 'u' => .ok (.unsigned, format)
    | 'X' | 'x' => .ok (.hex width, format)
    | _ => .ok (.literal c, format)

def parseDirective (format : List Byte) : Except Fault (Conversion × List Byte) := do
  let (width, format) ← parseWidth 0 format
  parseLetters width format

theorem parseWidth_length {width : Nat} {format : List Byte} {r : Nat × List Byte}
    (h : parseWidth width format = .ok r) : r.2.length ≤ format.length := by
  induction format generalizing width with
  | nil => cases h; exact Nat.le_refl _
  | cons c format ih =>
    unfold parseWidth at h
    split at h
    · dsimp only at h
      split at h
      · exact Nat.le_succ_of_le (ih h)
      · cases h
    · cases h
      exact Nat.le_refl _

theorem parseLetters_length {width : Nat} {format : List Byte} {r : Conversion × List Byte}
    (h : parseLetters width format = .ok r) : r.2.length < format.length := by
  unfold parseLetters at h
  split at h
  · cases h
  · split at h
    case h_1 =>
      split at h
      · cases h
      · split at h <;> cases h <;> exact Nat.lt_succ_of_lt (Nat.lt_succ_self _)
    all_goals
      cases h
      exact Nat.lt_succ_self _

/-- A directive takes at least one character. -/
theorem parseDirective_length {format : List Byte} {r : Conversion × List Byte}
    (h : parseDirective format = .ok r) : r.2.length < format.length := by
  unfold parseDirective at h
  cases hwidth : parseWidth 0 format with
  | error fault => rw [hwidth] at h; cases h
  | ok w =>
    rw [hwidth] at h
    exact Nat.lt_of_lt_of_le (parseLetters_length h) (parseWidth_length hwidth)

/-- The loop of `vsnprintf`; `ap` is the place of the next argument. -/
def loop (size : Word) (args : Nat → Arg) (format : List Byte) (ap : Nat) (o : Out) :
    Except Fault Out :=
  match format with
  | [] => .ok o
  | c :: format =>
    if o.written < size - 1 then
      if c ≠ chr '%' then do
        loop size args format ap (← put size o c)
      else if format = [] then .ok o
      else match h : parseDirective format with
        | .error fault => .error fault
        | .ok (conversion, rest) => do
          have := parseDirective_length h
          let o ← conversion.output size (args ap) o
          loop size args rest (if conversion.takesArg then ap + 1 else ap) o
    else .ok o
termination_by format.length
decreasing_by
  · exact Nat.lt_succ_self _
  · exact Nat.lt_succ_of_lt this

/-- The result and the buffer after it. -/
def vsnprintf (str : Nat → Byte) (size : Word) (format : CString) (args : Nat → Arg) :
    Except Fault (Word × (Nat → Byte)) := do
  let o ← loop size args format.chars 0 { str := str, written := 0 }
  if o.written < size then return (o.written, Function.update o.str o.written.toNat 0)
  else if size = 0 then throw .bufferWrite
  else return (o.written, Function.update o.str (size - 1).toNat 0)

end Vprintf
end RiscvEmulator.Software
