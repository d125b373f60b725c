import Mathlib.Data.List.Basic

/-! # Loops that can fail

A loop over a list whose body can fail keeps an invariant that its body keeps,
and every turn of it begins where the turns before it have led. -/
namespace RiscvEmulator.Lib.Fold

variable {σ α ε : Type}

/-- The loop over `l` from `s` comes to the turn of `a` in state `t`. -/
def Turn (f : σ → α → Except ε σ) (l : List α) (s : σ) (a : α) (t : σ) : Prop :=
  ∃ before after, l = before ++ a :: after ∧ before.foldlM f s = .ok t

theorem bind_eq_ok {β : Type} {x : Except ε α} {f : α → Except ε β} {b : β}
    (h : x >>= f = .ok b) : ∃ a, x = .ok a ∧ f a = .ok b := by
  cases x with
  | error e => cases h
  | ok a => exact ⟨a, rfl, h⟩

theorem eq_ok_of_toOption {x : Except ε α} {a : α} (h : x.toOption = some a) : x = .ok a := by
  cases x with
  | error e => cases h
  | ok b => exact congrArg Except.ok (Option.some.inj h)

theorem foldlM_cons_ok {f : σ → α → Except ε σ} {a : α} {l : List α} {s t : σ}
    (h : (a :: l).foldlM f s = .ok t) : ∃ u, f s a = .ok u ∧ l.foldlM f u = .ok t := by
  rw [List.foldlM_cons] at h
  exact bind_eq_ok h

theorem foldlM_invariant {f : σ → α → Except ε σ} {P : σ → Prop}
    (hbody : ∀ s a s', P s → f s a = .ok s' → P s') {l : List α} {s t : σ}
    (h : l.foldlM f s = .ok t) (hs : P s) : P t := by
  induction l generalizing s with
  | nil =>
    rw [List.foldlM_nil] at h
    cases h
    exact hs
  | cons a l ih =>
    obtain ⟨u, hu, hrest⟩ := foldlM_cons_ok h
    exact ih hrest (hbody s a u hs hu)

theorem Turn.invariant {f : σ → α → Except ε σ} {P : σ → Prop}
    (hbody : ∀ s a s', P s → f s a = .ok s' → P s') {l : List α} {s t : σ} {a : α}
    (h : Turn f l s a t) (hs : P s) : P t := by
  obtain ⟨before, after, _, hbefore⟩ := h
  exact foldlM_invariant hbody hbefore hs

/-- A loop that fails does so in one of its turns. -/
theorem foldlM_error {f : σ → α → Except ε σ} {l : List α} {s : σ} {e : ε}
    (h : l.foldlM f s = .error e) : ∃ a t, Turn f l s a t ∧ f t a = .error e := by
  induction l generalizing s with
  | nil => cases h
  | cons a l ih =>
    cases hf : f s a with
    | error e' =>
      rw [List.foldlM_cons, hf] at h
      cases h
      exact ⟨a, s, ⟨[], l, rfl, rfl⟩, hf⟩
    | ok u =>
      rw [List.foldlM_cons, hf] at h
      obtain ⟨b, t, ⟨before, after, hl, hbefore⟩, ht⟩ := ih h
      refine ⟨b, t, ⟨a :: before, after, by rw [hl]; rfl, ?_⟩, ht⟩
      rw [List.foldlM_cons, hf]
      exact hbefore

/-! ## Loops that do not fail -/

/-- A loop over the numbers below `m` whose turns all succeed, with an invariant
that says how far it has come. -/
theorem foldlM_range_ok {f : σ → Nat → Except ε σ} {P : Nat → σ → Prop} {s : σ} {m : Nat}
    (hs : P 0 s) (hbody : ∀ k < m, ∀ t, P k t → ∃ u, f t k = .ok u ∧ P (k + 1) u) :
    ∃ t, (List.range m).foldlM f s = .ok t ∧ P m t := by
  induction m with
  | zero => exact ⟨s, rfl, hs⟩
  | succ m ih =>
    obtain ⟨t, hrun, ht⟩ := ih fun k hk => hbody k (by omega)
    obtain ⟨u, hu, hP⟩ := hbody m (by omega) t ht
    refine ⟨u, ?_, hP⟩
    rw [List.range_succ, List.foldlM_append, hrun]
    show List.foldlM f t [m] = .ok u
    rw [List.foldlM_cons, hu]
    rfl

/-- A loop whose turns return or not whatever the state returns if every turn does. -/
theorem foldlM_returns_iff {f : σ → α → Except ε σ} {P : α → Prop}
    (hturn : ∀ s a, (∃ t, f s a = .ok t) ↔ P a) (l : List α) (s : σ) :
    (∃ t, l.foldlM f s = .ok t) ↔ ∀ a ∈ l, P a := by
  induction l generalizing s with
  | nil => exact iff_of_true ⟨s, rfl⟩ nofun
  | cons a l ih =>
    rw [List.forall_mem_cons, List.foldlM_cons, ← hturn s a]
    cases hf : f s a with
    | error e => exact iff_of_false (fun ⟨_, h⟩ => nomatch h) fun ⟨⟨_, h⟩, _⟩ => nomatch h
    | ok u =>
      rw [and_iff_right ⟨u, rfl⟩]
      exact ih u

/-! ## How a loop fails -/

/-- What a computation fails with. -/
def errorOf : Except ε α → Option ε
  | .ok _ => none
  | .error e => some e

@[simp] theorem errorOf_ok (a : α) : errorOf (.ok a : Except ε α) = none := rfl

@[simp] theorem errorOf_error (e : ε) : errorOf (.error e : Except ε α) = some e := rfl

@[simp] theorem errorOf_map {β : Type} (f : α → β) (x : Except ε α) :
    errorOf (x.map f) = errorOf x := by
  cases x <;> rfl

theorem errorOf_eq_none_iff {x : Except ε α} : errorOf x = none ↔ ∃ a, x = .ok a := by
  cases x with
  | ok a => exact ⟨fun _ => ⟨a, rfl⟩, fun _ => rfl⟩
  | error e => exact ⟨nofun, fun h => by obtain ⟨a, ha⟩ := h; cases ha⟩

theorem errorOf_eq_some_iff {x : Except ε α} {e : ε} : errorOf x = some e ↔ x = .error e := by
  cases x with
  | ok a => exact ⟨nofun, nofun⟩
  | error e' => exact ⟨fun h => congrArg _ (Option.some.inj h), fun h => by cases h; rfl⟩

/-- Where what follows fails the same way whatever the result. -/
theorem errorOf_bind {β : Type} {x : Except ε α} {f : α → Except ε β} {o : Option ε}
    (h : ∀ a, errorOf (f a) = o) : errorOf (x >>= f) = (errorOf x).or o := by
  cases x with
  | ok a => exact h a
  | error e => rfl

/-- A loop whose turns fail the same way in every state fails as the first of them
that does. -/
theorem errorOf_foldlM {f : σ → α → Except ε σ} {g : α → Option ε}
    (h : ∀ s a, errorOf (f s a) = g a) (l : List α) (s : σ) :
    errorOf (l.foldlM f s) = l.findSome? g := by
  induction l generalizing s with
  | nil => rfl
  | cons a l ih =>
    rw [List.foldlM_cons, errorOf_bind ih, h, List.findSome?_cons]
    cases g a <;> rfl

theorem findSome?_range_eq_some_iff {g : Nat → Option ε} {m : Nat} {e : ε} :
    (List.range m).findSome? g = some e ↔ ∃ i < m, g i = some e ∧ ∀ k < i, g k = none := by
  induction m with
  | zero => exact ⟨nofun, fun h => by obtain ⟨i, hi, _⟩ := h; omega⟩
  | succ m ih =>
    rw [List.range_succ, List.findSome?_append]
    cases hm : (List.range m).findSome? g with
    | some e' =>
      rw [hm] at ih
      show some e' = some e ↔ _
      rw [ih]
      constructor
      · rintro ⟨i, hi, hg, hbefore⟩
        exact ⟨i, by omega, hg, hbefore⟩
      · rintro ⟨i, hi, hg, hbefore⟩
        refine ⟨i, ?_, hg, hbefore⟩
        by_contra hlast
        obtain ⟨k, hk, hsome⟩ := List.exists_of_findSome?_eq_some hm
        rw [hbefore k (by have := List.mem_range.mp hk; omega)] at hsome
        cases hsome
    | none =>
      have hnone : ∀ k < m, g k = none := fun k hk =>
        List.findSome?_eq_none_iff.mp hm k (List.mem_range.mpr hk)
      have hlast : (none : Option ε).or ([m].findSome? g) = g m := by
        cases hg : g m <;> simp [hg]
      rw [hlast]
      constructor
      · exact fun hg => ⟨m, by omega, hg, hnone⟩
      · rintro ⟨i, hi, hg, _⟩
        by_cases him : i < m
        · rw [hnone i him] at hg
          cases hg
        · rwa [show m = i by omega]

end RiscvEmulator.Lib.Fold
