import Mathlib.Data.List.Basic
import Mathlib.Data.Set.BooleanAlgebra
import Mathlib.Logic.Function.Basic
import Mathlib.Order.CompletePartialOrder

/-! # Loops that store

A loop goes through its keys and stores in the cell of each a value computed from the
memory as it is then. If no key stores where a later one looks or stores, each cell ends
with the value computed from the memory at the start. -/
namespace RiscvEmulator.Lib.Scatter

variable {κ α β σ : Type*} [DecidableEq α] {cell : κ → α} {value : κ → (α → β) → β}
  {keys : List κ} {m m' : α → β} {a : α} {k : κ}

/-- The memory after the loop. -/
def scatter (cell : κ → α) (value : κ → (α → β) → β) (keys : List κ) (m : α → β) : α → β :=
  keys.foldl (fun m k => Function.update m (cell k) (value k m)) m

@[simp] theorem scatter_nil (m : α → β) : scatter cell value [] m = m := rfl

@[simp] theorem scatter_cons (k : κ) (keys : List κ) (m : α → β) :
    scatter cell value (k :: keys) m =
      scatter cell value keys (Function.update m (cell k) (value k m)) := rfl

/-- A loop over a larger state is such a loop on the memory, if each turn is. -/
theorem foldl_scatter (memory : σ → α → β) (body : κ → σ → σ)
    (h : ∀ k ∈ keys, ∀ s, memory (body k s) =
      Function.update (memory s) (cell k) (value k (memory s))) (s : σ) :
    memory (keys.foldl (fun s k => body k s) s) = scatter cell value keys (memory s) := by
  induction keys generalizing s with
  | nil => rfl
  | cons k keys ih =>
    rw [List.foldl_cons, ih fun k' hk' => h k' (List.mem_cons_of_mem k hk'), scatter_cons,
      h k List.mem_cons_self]

theorem scatter_frame (h : ∀ k ∈ keys, a ≠ cell k) : scatter cell value keys m a = m a := by
  induction keys generalizing m with
  | nil => rfl
  | cons k keys ih =>
    rw [scatter_cons, ih fun k' hk' => h k' (List.mem_cons_of_mem k hk')]
    exact Function.update_of_ne (h k List.mem_cons_self) ..

/-- The value is computed from these cells only. -/
def Needs (f : (α → β) → β) (cells : Set α) : Prop :=
  ∀ m m', (∀ a ∈ cells, m a = m' a) → f m = f m'

/-- No key stores where a later one looks or stores. -/
def Unhindered (cell : κ → α) (reads : κ → Set α) (keys : List κ) : Prop :=
  keys.Pairwise fun k k' => cell k ∉ reads k' ∧ cell k ≠ cell k'

theorem scatter_at (reads : κ → Set α) (hneeds : ∀ k ∈ keys, Needs (value k) (reads k))
    (h : Unhindered cell reads keys) (hk : k ∈ keys) :
    scatter cell value keys m (cell k) = value k m := by
  induction keys generalizing m with
  | nil => cases hk
  | cons k₀ keys ih =>
    obtain ⟨hlater, hrest⟩ := List.pairwise_cons.mp h
    rw [scatter_cons]
    rcases List.mem_cons.mp hk with rfl | hk'
    · rw [scatter_frame fun k' hk' => (hlater k' hk').2, Function.update_self]
    · -- what a later key needs is as at the start
      rw [ih (fun k' hk' => hneeds k' (List.mem_cons_of_mem k₀ hk')) hrest hk']
      refine hneeds k hk _ _ fun a ha => Function.update_of_ne ?_ ..
      rintro rfl
      exact (hlater k hk').1 ha

/-- Where no key looks at a cell that is stored in, keys may also come twice. -/
theorem scatter_apart (reads : κ → Set α) (hneeds : ∀ k ∈ keys, Needs (value k) (reads k))
    (hinj : ∀ k ∈ keys, ∀ k' ∈ keys, cell k = cell k' → k = k')
    (happart : ∀ k ∈ keys, ∀ k' ∈ keys, cell k' ∉ reads k) (hk : k ∈ keys) :
    scatter cell value keys m (cell k) = value k m := by
  induction keys generalizing m with
  | nil => cases hk
  | cons k₀ keys ih =>
    rw [scatter_cons]
    by_cases hlater : k ∈ keys
    · have htail : ∀ k' ∈ keys, k' ∈ k₀ :: keys := fun k' => List.mem_cons_of_mem k₀
      rw [ih (fun k' hk' => hneeds k' (htail k' hk'))
        (fun k' hk' l hl => hinj k' (htail k' hk') l (htail l hl))
        (fun k' hk' l hl => happart k' (htail k' hk') l (htail l hl)) hlater]
      refine hneeds k hk _ _ fun a ha => Function.update_of_ne ?_ ..
      rintro rfl
      exact happart k hk k₀ List.mem_cons_self ha
    · obtain rfl : k = k₀ := (List.mem_cons.mp hk).resolve_right hlater
      rw [scatter_frame, Function.update_self]
      intro k' hk' heq
      exact hlater (hinj k hk k' (List.mem_cons_of_mem k hk') heq ▸ hk')

/-! ## Turns that store in several cells -/

section Turns
omit [DecidableEq α]
variable (memory : σ → α → β) (body : κ → σ → σ) (touches : κ → Set α) (keys : List κ)

/-- A turn leaves all other cells alone, and what it leaves in its own depends on what it
finds in them. -/
structure Confined : Prop where
  frame : ∀ k ∈ keys, ∀ s, ∀ a ∉ touches k, memory (body k s) a = memory s a
  own : ∀ k ∈ keys, ∀ s s', (∀ a ∈ touches k, memory s a = memory s' a) →
    ∀ a ∈ touches k, memory (body k s) a = memory (body k s') a

variable {memory body touches keys}

theorem Confined.tail (h : Confined memory body touches (k :: keys)) :
    Confined memory body touches keys :=
  ⟨fun k' hk' => h.frame k' (List.mem_cons_of_mem k hk'),
    fun k' hk' => h.own k' (List.mem_cons_of_mem k hk')⟩

theorem Confined.foldl_frame (h : Confined memory body touches keys)
    (ha : ∀ k ∈ keys, a ∉ touches k) (s : σ) :
    memory (keys.foldl (fun s k => body k s) s) a = memory s a := by
  induction keys generalizing s with
  | nil => rfl
  | cons k keys ih =>
    rw [List.foldl_cons, ih h.tail fun k' hk' => ha k' (List.mem_cons_of_mem k hk')]
    exact h.frame k List.mem_cons_self s a (ha k List.mem_cons_self)

/-- Turns with cells of their own come to what each makes of the start. -/
theorem Confined.foldl_at (h : Confined memory body touches keys)
    (hdisjoint : keys.Pairwise fun k k' => Disjoint (touches k) (touches k'))
    (hk : k ∈ keys) (ha : a ∈ touches k) (s : σ) :
    memory (keys.foldl (fun s k => body k s) s) a = memory (body k s) a := by
  induction keys generalizing s with
  | nil => cases hk
  | cons k₀ keys ih =>
    obtain ⟨hlater, hrest⟩ := List.pairwise_cons.mp hdisjoint
    rw [List.foldl_cons]
    rcases List.mem_cons.mp hk with rfl | hk'
    · exact h.tail.foldl_frame (fun k' hk' => Set.disjoint_left.mp (hlater k' hk') ha) _
    · rw [ih h.tail hrest hk']
      refine h.own k hk _ _ (fun b hb => ?_) a ha
      exact h.frame k₀ List.mem_cons_self s b (Set.disjoint_right.mp (hlater k hk') hb)

end Turns

end RiscvEmulator.Lib.Scatter
