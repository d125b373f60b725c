import Mathlib.Data.Finset.Card

/-! # Serving what waits

A server takes one waiting element at a time, the first in some order, until there is
none. It has then served all of them, each once and in that order. -/
namespace RiscvEmulator.Lib.Draining
variable {σ α : Type}

/-- Turns of a server, at most so many, with what it has served. -/
def drain (serve : σ → Option (α × σ)) : Nat → σ → List α × σ
  | 0, s => ([], s)
  | turns + 1, s =>
    match serve s with
    | none => ([], s)
    | some (a, t) => (a :: (drain serve turns t).1, (drain serve turns t).2)

/-- What one turn does in the states that are good. -/
structure Serves (serve : σ → Option (α × σ)) (good : σ → Prop) (waits : σ → α → Prop)
    (before : α → α → Prop) : Prop where
  idle : ∀ {s}, good s → serve s = none → ∀ a, ¬waits s a
  first : ∀ {s a t}, good s → serve s = some (a, t) →
    waits s a ∧ ∀ b, waits s b → b ≠ a → before a b
  left : ∀ {s a t}, good s → serve s = some (a, t) →
    good t ∧ ∀ b, waits t b ↔ waits s b ∧ b ≠ a

variable {serve : σ → Option (α × σ)} {good : σ → Prop} {waits : σ → α → Prop}
  {before : α → α → Prop} {s t : σ} {a : α} {turns : Nat}

theorem drain_none (h : serve s = none) (turns : Nat) : drain serve turns s = ([], s) := by
  cases turns with
  | zero => rfl
  | succ turns => simp [drain, h]

theorem drain_some (h : serve s = some (a, t)) (turns : Nat) :
    drain serve (turns + 1) s = (a :: (drain serve turns t).1, (drain serve turns t).2) := by
  simp [drain, h]

namespace Serves

theorem good_drain (h : Serves serve good waits before) (hs : good s) :
    good (drain serve turns s).2 := by
  induction turns generalizing s with
  | zero => exact hs
  | succ turns ih =>
    cases hserve : serve s with
    | none =>
      rw [drain_none hserve]
      exact hs
    | some r =>
      obtain ⟨a, t⟩ := r
      rw [drain_some hserve]
      exact ih (h.left hs hserve).1

/-- What a turn takes away of the element that it serves, the turns take away of those that
they serve. -/
theorem holds_drain (h : Serves serve good waits before) {holds : σ → α → Prop}
    (hstep : ∀ {s a t}, good s → serve s = some (a, t) → ∀ b, holds t b ↔ holds s b ∧ b ≠ a)
    (hs : good s) (b : α) :
    holds (drain serve turns s).2 b ↔ holds s b ∧ b ∉ (drain serve turns s).1 := by
  induction turns generalizing s with
  | zero => simp [drain]
  | succ turns ih =>
    cases hserve : serve s with
    | none => simp [drain_none hserve]
    | some r =>
      obtain ⟨a, t⟩ := r
      simp only [drain_some hserve, ih (h.left hs hserve).1, hstep hs hserve, List.mem_cons, not_or,
        and_assoc]

/-- Only what waits is served. -/
theorem waits_of_mem (h : Serves serve good waits before) (hs : good s) {b : α}
    (hb : b ∈ (drain serve turns s).1) : waits s b := by
  induction turns generalizing s with
  | zero => simp [drain] at hb
  | succ turns ih =>
    cases hserve : serve s with
    | none => simp [drain_none hserve] at hb
    | some r =>
      obtain ⟨a, t⟩ := r
      simp only [drain_some hserve, List.mem_cons] at hb
      rcases hb with rfl | hb
      · exact (h.first hs hserve).1
      · exact (((h.left hs hserve).2 b).mp (ih (h.left hs hserve).1 hb)).1

theorem pairwise_drain (h : Serves serve good waits before) (hs : good s) :
    (drain serve turns s).1.Pairwise before := by
  induction turns generalizing s with
  | zero => simp [drain]
  | succ turns ih =>
    cases hserve : serve s with
    | none => simp [drain_none hserve]
    | some r =>
      obtain ⟨a, t⟩ := r
      obtain ⟨ht, hleft⟩ := h.left hs hserve
      rw [drain_some hserve]
      refine List.pairwise_cons.mpr ⟨fun b hb => ?_, ih ht⟩
      obtain ⟨hwaits, hne⟩ := (hleft b).mp (h.waits_of_mem ht hb)
      exact (h.first hs hserve).2 b hwaits hne

/-- With a turn for each element that may wait, none is left. -/
theorem not_waits_drain [DecidableEq α] (h : Serves serve good waits before) (hs : good s)
    {all : Finset α} (hall : ∀ a, waits s a → a ∈ all) (hturns : all.card ≤ turns) (b : α) :
    ¬waits (drain serve turns s).2 b := by
  induction turns generalizing s all with
  | zero =>
    intro hb
    have hempty : all = ∅ := Finset.card_eq_zero.mp (Nat.le_zero.mp hturns)
    exact absurd (hall b hb) (by simp [hempty])
  | succ turns ih =>
    cases hserve : serve s with
    | none =>
      rw [drain_none hserve]
      exact h.idle hs hserve b
    | some r =>
      obtain ⟨a, t⟩ := r
      obtain ⟨ht, hleft⟩ := h.left hs hserve
      rw [drain_some hserve]
      have hrest : ∀ c, waits t c → c ∈ all.erase a := by
        intro c hc
        obtain ⟨hwaits, hne⟩ := (hleft c).mp hc
        exact Finset.mem_erase.mpr ⟨hne, hall c hwaits⟩
      have hcard := Finset.card_erase_of_mem (hall a (h.first hs hserve).1)
      exact ih ht hrest (by omega)

/-- All that waits has been served. -/
theorem mem_drain [DecidableEq α] (h : Serves serve good waits before) (hs : good s)
    {all : Finset α} (hall : ∀ a, waits s a → a ∈ all) (hturns : all.card ≤ turns) (b : α) :
    b ∈ (drain serve turns s).1 ↔ waits s b := by
  refine ⟨h.waits_of_mem hs, fun hb => ?_⟩
  by_contra hnot
  have hleft : waits (drain serve turns s).2 b :=
    (h.holds_drain (fun hs hserve => (h.left hs hserve).2) hs b).mpr ⟨hb, hnot⟩
  exact h.not_waits_drain hs hall hturns b hleft

end Serves
end RiscvEmulator.Lib.Draining
