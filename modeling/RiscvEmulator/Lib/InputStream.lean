import Mathlib.Data.List.GetD

/-! # Seekable input streams

A read that finds less than it asks for leaves the stream in its fail state, in which it
neither seeks nor reads any more. What is read into a table of a default value is then
what the data has there, as long as no read has failed before. -/
namespace RiscvEmulator.Lib

structure InputStream (α : Type) where
  data : List α
  pos : Nat
  failed : Bool

namespace InputStream
variable {α : Type}

def ofList (data : List α) : InputStream α := ⟨data, 0, false⟩

def seekg (s : InputStream α) (pos : Nat) : InputStream α :=
  if s.failed then s else { s with pos := pos }

/-- Up to `n` items, fewer if there are no more. -/
def read (s : InputStream α) (n : Nat) : List α × InputStream α :=
  if s.failed then ([], s)
  else
    let items := (s.data.drop s.pos).take n
    (items, { s with pos := s.pos + items.length, failed := items.length < n })

/-- The items in the first places of a table of `size` places, the default in the others. -/
def fill (default : α) (size : Nat) (items : List α) : List α :=
  items ++ List.replicate (size - items.length) default

/-- `size` places of the data from `pos` on, all default if the stream has failed. -/
def view (default : α) (s : InputStream α) (pos size : Nat) : List α :=
  (List.range size).map fun j => if s.failed then default else s.data.getD (pos + j) default

variable (default : α) (s : InputStream α) (pos n size : Nat)

@[simp] theorem length_view : (s.view default pos size).length = size := by
  simp [view]

theorem getD_view {j : Nat} (hj : j < size) : (s.view default pos size).getD j default =
    if s.failed then default else s.data.getD (pos + j) default := by
  simp [view, hj]

theorem seekg_read_data : ((s.seekg pos).read n).2.data = s.data := by
  unfold seekg read
  cases hfailed : s.failed <;> simp [hfailed]

/-- A read fails if the data ends before. -/
theorem seekg_read_failed : ((s.seekg pos).read n).2.failed =
    (s.failed || decide (s.data.length - pos < n)) := by
  unfold seekg read
  cases hfailed : s.failed with
  | true => simp [hfailed]
  | false =>
    simp only [Bool.false_eq_true, if_false, List.length_take, List.length_drop, Bool.false_or,
      decide_eq_decide]
    omega

theorem length_seekg_read : ((s.seekg pos).read n).1.length =
    if s.failed then 0 else min n (s.data.length - pos) := by
  unfold seekg read
  cases hfailed : s.failed <;> simp [hfailed]

/-- What a read that fits into a table makes of it. -/
theorem fill_seekg_read (hsize : size ≤ n) (hfits : ((s.seekg pos).read n).1.length ≤ size) :
    fill default size ((s.seekg pos).read n).1 = s.view default pos size := by
  have hlength := s.length_seekg_read pos n
  apply List.ext_getElem
  · simp only [fill, List.length_append, List.length_replicate, length_view]
    omega
  · intro j hj hj'
    have hview := hj'
    rw [length_view] at hview
    rw [← List.getD_eq_getElem _ default hj, ← List.getD_eq_getElem _ default hj',
      getD_view _ _ _ _ hview]
    unfold fill
    by_cases hread : j < ((s.seekg pos).read n).1.length
    · rw [List.getD_append _ _ _ _ hread]
      unfold seekg read at hread ⊢
      cases hfailed : s.failed with
      | true => simp [hfailed] at hread
      | false =>
        simp only [hfailed, Bool.false_eq_true, if_false, List.length_take] at hread ⊢
        simp [List.getD_eq_getElem?_getD, show j < n by omega]
    · rw [List.getD_append_right _ _ _ _ (Nat.le_of_not_lt hread),
        List.getD_replicate _ (by omega)]
      cases hfailed : s.failed with
      | true => rfl
      | false =>
        simp only [hfailed, Bool.false_eq_true, if_false] at hlength ⊢
        rw [List.getD_eq_default _ _ (by omega)]

end InputStream
end RiscvEmulator.Lib
