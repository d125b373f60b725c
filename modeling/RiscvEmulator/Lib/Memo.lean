import Mathlib.Logic.Basic

/-! # Remembering answers

A table in front of a partial function that remembers some of its answers. Which
of them it keeps, and how long, is left open: as long as it invents none, asking
the table first gives nothing but what the function gives. -/
namespace RiscvEmulator.Lib.Memo

variable {σ Q A K V : Type*}

/-- Every remembered pair is one of the function. -/
def Faithful (remembers : K → V → Prop) (f : K → Option V) : Prop :=
  ∀ k v, remembers k v → f k = some v

namespace Faithful
variable {p p' : K → V → Prop} {f : K → Option V}

/-- Forgetting, and learning an answer of the function. -/
theorem learn (h : Faithful p f) (hp : ∀ k v, p' k v → p k v ∨ f k = some v) :
    Faithful p' f := by
  intro k v h'
  rcases hp k v h' with hold | hv
  · exact h k v hold
  · exact hv

end Faithful

/-! ## Sequences of questions -/

/-- The answers to questions asked one after another. -/
def answers (ask : σ → Q → A × σ) (s : σ) : List Q → List A
  | [] => []
  | q :: qs => (ask s q).1 :: answers ask (ask s q).2 qs

/-- The state after the questions. -/
def afterAsking (ask : σ → Q → A × σ) (s : σ) (qs : List Q) : σ :=
  qs.foldl (fun s q => (ask s q).2) s

/-- What every question keeps holds after all of them. -/
theorem afterAsking_inv {ask : σ → Q → A × σ} {Inv : σ → Prop}
    (hstep : ∀ s q, Inv s → Inv (ask s q).2) (qs : List Q) {s : σ} (hs : Inv s) :
    Inv (afterAsking ask s qs) := by
  induction qs generalizing s with
  | nil => exact hs
  | cons q qs ih => exact ih (hstep s q hs)

/-- If an invariant makes every answer the one of `reference`, then so are the
answers to any sequence of questions. -/
theorem answers_eq_map {ask : σ → Q → A × σ} {reference : Q → A} {Inv : σ → Prop}
    {Fair : Q → Prop} (hstep : ∀ s q, Inv s → Inv (ask s q).2)
    (hanswer : ∀ s q, Inv s → Fair q → (ask s q).1 = reference q) (qs : List Q)
    (hqs : ∀ q ∈ qs, Fair q) {s : σ} (hs : Inv s) : answers ask s qs = qs.map reference := by
  induction qs generalizing s with
  | nil => rfl
  | cons q qs ih =>
    rw [answers, List.map_cons, hanswer s q hs (hqs q List.mem_cons_self),
      ih (fun q' hq' => hqs q' (List.mem_cons_of_mem q hq')) (hstep s q hs)]

end RiscvEmulator.Lib.Memo
