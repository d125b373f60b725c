import Mathlib.Logic.Basic

/-! # Accesses to one cell

A system keeps the value of a cell at several places, and its accesses look at
one place and change one. Whatever the places are, its runs are those of a single
cell as long as every access finds what the last change has left at its place. -/
namespace RiscvEmulator.Lib.OneCell

variable {σ π ε β : Type*}

/-- What a cell makes of the accesses: whether one fits the value, and the value it
leaves. -/
structure Cell (ε β : Type*) where
  fits : ε → β → Prop
  next : ε → β → β

/-- The accesses one after another on a cell with value `v`, which ends as `w`. -/
def Cell.Admits (C : Cell ε β) (v : β) : List ε → β → Prop
  | [], w => w = v
  | e :: es, w => C.fits e v ∧ C.Admits (C.next e v) es w

/-- Runs of a system that keep track of the place of the last change. -/
inductive Tracked (quiet : σ → σ → Prop) (access : π → σ → ε → σ → Prop) (place : ε → π → π) :
    π → σ → List ε → π → σ → Prop
  | nil (p : π) (s : σ) : Tracked quiet access place p s [] p s
  | quiet {p q : π} {s s' t : σ} {es : List ε} :
    quiet s s' → Tracked quiet access place p s' es q t → Tracked quiet access place p s es q t
  | access {p q : π} {s s' t : σ} {e : ε} {es : List ε} :
    access p s e s' → Tracked quiet access place (place e p) s' es q t →
    Tracked quiet access place p s (e :: es) q t

variable {quiet : σ → σ → Prop} {access : π → σ → ε → σ → Prop} {place : ε → π → π}

/-- If quiet steps leave all places alone, and an access fits what the place of the
last change holds and leaves what it should at the next, then a run is one of a
single cell. -/
theorem Tracked.admits {C : Cell ε β} {look : σ → π → β} {Inv : σ → Prop}
    (hquiet : ∀ s s', Inv s → quiet s s' → Inv s' ∧ look s' = look s)
    (haccess : ∀ p s e s', Inv s → access p s e s' →
      Inv s' ∧ C.fits e (look s p) ∧ look s' (place e p) = C.next e (look s p))
    {p q : π} {s t : σ} {es : List ε} (h : Tracked quiet access place p s es q t) (hs : Inv s) :
    C.Admits (look s p) es (look t q) ∧ Inv t := by
  induction h with
  | nil p s => exact ⟨rfl, hs⟩
  | quiet hq _ ih =>
    obtain ⟨hs', hlook⟩ := hquiet _ _ hs hq
    rw [← hlook]
    exact ih hs'
  | access ha _ ih =>
    obtain ⟨hs', hfits, hnext⟩ := haccess _ _ _ _ hs ha
    obtain ⟨hes, ht⟩ := ih hs'
    rw [hnext] at hes
    exact ⟨⟨hfits, hes⟩, ht⟩

end RiscvEmulator.Lib.OneCell
