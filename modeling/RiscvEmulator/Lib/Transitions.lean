import Mathlib.Data.List.Count

/-! # Runs of a deterministic machine

A machine is a partial function to the next configuration and an event. A run
may be asked to keep to the configurations in which a guard holds. -/
namespace RiscvEmulator.Lib.Transitions

variable {C E : Type*} {next : C → Option (E × C)} {ok : C → Prop} {c c' c'' : C}
  {e : E} {es es' : List E}

/-- From `c` the machine comes to the last configuration with these events, and every
configuration that it leaves meets the guard. -/
inductive Runs (next : C → Option (E × C)) (ok : C → Prop) : C → List E → C → Prop
  | nil (c : C) : Runs next ok c [] c
  | cons {c : C} {e : E} {c' : C} {es : List E} {c'' : C} :
    ok c → next c = some (e, c') → Runs next ok c' es c'' → Runs next ok c (e :: es) c''

/-- Without a guard. -/
abbrev Free (_ : C) : Prop := True

theorem Runs.single (hok : ok c) (h : next c = some (e, c')) : Runs next ok c [e] c' :=
  .cons hok h (.nil c')

theorem Runs.trans (h : Runs next ok c es c') (h' : Runs next ok c' es' c'') :
    Runs next ok c (es ++ es') c'' := by
  induction h with
  | nil => exact h'
  | cons hok hnext _ ih => exact .cons hok hnext (ih h')

/-- The events of so many transitions, or of all there are, and where they lead. -/
def advance (next : C → Option (E × C)) : Nat → C → List E × C
  | 0, c => ([], c)
  | k + 1, c =>
    match next c with
    | none => ([], c)
    | some (e, c') => (e :: (advance next k c').1, (advance next k c').2)

theorem runs_advance {k : Nat} (hok : ∀ j < k, ok (advance next j c).2) :
    Runs next ok c (advance next k c).1 (advance next k c).2 := by
  induction k generalizing c with
  | zero => exact .nil c
  | succ k ih =>
    unfold advance
    cases h : next c with
    | none => exact .nil c
    | some r =>
      refine .cons (hok 0 k.succ_pos) h (ih fun j hj => ?_)
      have hlater := hok (j + 1) (Nat.succ_lt_succ hj)
      unfold advance at hlater
      rw [h] at hlater
      exact hlater

/-- What the transitions keep holds at the end. -/
theorem Runs.invariant {P : C → Prop} (h : Runs next ok c es c')
    (hstep : ∀ c e c', P c → ok c → next c = some (e, c') → P c') (hc : P c) : P c' := by
  induction h with
  | nil => exact hc
  | cons hok hnext _ ih => exact ih (hstep _ _ _ hc hok hnext)

/-- A budget for an event, which each occurrence takes 1 from. -/
theorem Runs.count_le [DecidableEq E] {P : Nat → C → Prop} {a : E} (h : Runs next ok c es c')
    (hstep : ∀ b c e c', P b c → ok c → next c = some (e, c') →
      ∃ b', P b' c' ∧ b' + (if e = a then 1 else 0) ≤ b) {b : Nat} (hc : P b c) :
    es.count a ≤ b := by
  induction h generalizing b with
  | nil => exact Nat.zero_le b
  | @cons c e c' es c'' hok hnext _ ih =>
    obtain ⟨b', hc', hle⟩ := hstep b c e c' hc hok hnext
    have hrest := ih hc'
    rw [List.count_cons]
    simp only [beq_iff_eq]
    omega

end RiscvEmulator.Lib.Transitions
