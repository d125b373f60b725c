import Mathlib.Data.List.Induction

/-! # What has happened since

A past-time operator on lists of events: one of some kind has happened, and none
of another kind after it. A state that an event of the first kind sets and one of
the second kind clears tells exactly that. -/
namespace RiscvEmulator.Lib.History

variable {σ ε : Type*}

/-- An event with `p`, and none with `q` after it. -/
def Since (p q : ε → Prop) (past : List ε) : Prop :=
  ∃ earlier e later, past = earlier ++ e :: later ∧ p e ∧ ∀ e' ∈ later, ¬ q e'

variable {p q : ε → Prop}

theorem not_since_nil : ¬ Since p q [] := by
  rintro ⟨earlier, e, later, h, _⟩
  exact absurd h.symm (List.append_ne_nil_of_right_ne_nil _ (List.cons_ne_nil _ _))

/-- What the last event makes of it. -/
theorem since_concat_iff {past : List ε} {e : ε} :
    Since p q (past ++ [e]) ↔ p e ∨ (Since p q past ∧ ¬ q e) := by
  constructor
  · rintro ⟨earlier, e', later, h, hp, hq⟩
    induction later using List.reverseRecOn with
    | nil =>
      obtain ⟨_, he⟩ := List.append_inj' h rfl
      rw [List.cons.inj he |>.1]
      exact .inl hp
    | append_singleton later e'' _ =>
      rw [← List.cons_append, ← List.append_assoc] at h
      obtain ⟨hpast, he⟩ := List.append_inj' h rfl
      rw [List.cons.inj he |>.1]
      exact .inr ⟨⟨earlier, e', later, hpast, hp, fun a ha => hq a (by simp [ha])⟩,
        hq e'' (by simp)⟩
  · rintro (hp | ⟨⟨earlier, e', later, rfl, hp, hq⟩, hqe⟩)
    · exact ⟨past, e, [], rfl, hp, by simp⟩
    · refine ⟨earlier, e', later ++ [e], by simp, hp, fun a ha => ?_⟩
      rcases List.mem_append.mp ha with h | h
      · exact hq a h
      · rw [List.mem_singleton.mp h]
        exact hqe

/-- Where each step sets `S` on `p`, else clears it on `q`, and else leaves it, `S` is
`Since p q` of the run. -/
theorem foldl_iff_since {step : σ → ε → σ} {Inv S : σ → Prop}
    (hinv : ∀ s e, Inv s → Inv (step s e))
    (hstep : ∀ s e, Inv s → (S (step s e) ↔ p e ∨ (S s ∧ ¬ q e)))
    (es : List ε) {s : σ} (hs : Inv s) (hS : ¬ S s) :
    S (es.foldl step s) ↔ Since p q es := by
  induction es using List.reverseRecOn with
  | nil => exact iff_of_false hS not_since_nil
  | append_singleton es e ih =>
    rw [List.foldl_append, since_concat_iff, ← ih]
    exact hstep _ e (List.foldlRecOn es step hs fun s hs e _ => hinv s e hs)

end RiscvEmulator.Lib.History
