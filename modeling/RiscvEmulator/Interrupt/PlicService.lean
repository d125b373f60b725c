import Mathlib.Data.Finset.Range
import RiscvEmulator.Interrupt.PlicSelection
import RiscvEmulator.Lib.Draining

/-! # Handlers that claim until nothing is left

A handler of a target claims a source and completes it, until it is given 0. It is given
every source that the target can be given, once, in the order of priorities and ids, and
the controller then signals nothing more to the target. -/
namespace RiscvEmulator.Interrupt
open Memory Lib.Draining

namespace PLIC

/-- A turn of the handler: the source that it has claimed and completed. -/
def serve (targetId : Nat) (p : PLIC) : Option (Nat × PLIC) :=
  if (p.claim targetId).1 = 0 then none
  else some ((p.claim targetId).1, (p.claim targetId).2.complete targetId (p.claim targetId).1)

/-- Source `s` is given before the other one. -/
def Before (p : PLIC) (s other : Nat) : Prop :=
  p.priorities other < p.priorities s ∨ p.priorities other = p.priorities s ∧ s < other

instance (p : PLIC) : DecidableRel p.Before := fun _ _ => inferInstanceAs (Decidable (_ ∨ _ ∧ _))

/-- The controller between turns: nothing is claimed, and nothing but pending bits has
changed. -/
structure Serving (p : PLIC) (targetId : Nat) (q : PLIC) : Prop where
  target : q.isValidTargetId targetId = true
  free : q.claimed targetId = 0
  rest : q = { p with pending := q.pending }

variable {p q r : PLIC} {t s : Nat}

/-! ## A turn -/

theorem claim_free (ht : p.isValidTargetId t = true) (hfree : p.claimed t = 0) :
    p.claim t = (p.findHighestPriorityPending t,
      if p.findHighestPriorityPending t ≠ 0 then p.markClaimed t (p.findHighestPriorityPending t)
      else p) := by
  unfold claim claimPending
  rw [if_pos ht, if_neg (not_not.mpr hfree)]

theorem serve_none (ht : p.isValidTargetId t = true) (hfree : p.claimed t = 0)
    (h : p.serve t = none) (s : Nat) : ¬p.Eligible t s := by
  have hzero : p.findHighestPriorityPending t = 0 := by
    unfold serve at h
    rw [claim_free ht hfree] at h
    by_contra hne
    simp [hne] at h
  rcases findHighestPriorityPending_spec p t with ⟨_, hnone⟩ | hselected
  · exact hnone s
  · exact absurd hzero hselected.ne_zero

/-- The source that is served is the selected one, and loses its pending bit. -/
theorem serve_some (ht : p.isValidTargetId t = true) (hfree : p.claimed t = 0)
    (h : p.serve t = some (s, r)) : p.Selected t s ∧ r = { p with pending := r.pending } ∧
      ∀ other, r.getPendingBit other = (p.getPendingBit other && decide (other ≠ s)) := by
  have hne : p.findHighestPriorityPending t ≠ 0 := by
    intro hzero
    unfold serve at h
    simp [claim_free ht hfree, hzero] at h
  have hselected : p.Selected t (p.findHighestPriorityPending t) :=
    (findHighestPriorityPending_spec p t).resolve_left fun h => hne h.1
  have hvalid := hselected.eligible.valid
  have htaken := markClaimed_taken (t := t) hvalid
  unfold serve at h
  rw [claim_free ht hfree, if_neg hne] at h
  obtain ⟨hs, hr⟩ := Prod.mk.inj (Option.some.inj h)
  simp only [if_pos hne] at hs hr
  subst hs
  generalize p.findHighestPriorityPending t = s at *
  -- the claim that `complete` takes back is the one just entered
  have hcomplete : (p.markClaimed t s).complete t s =
      { p with pending := (p.markClaimed t s).pending } := by
    rw [htaken.rest]
    unfold complete completeClaimed
    simp only [isValidTargetId, isValidSourceId] at ht hvalid ⊢
    rw [ht, hvalid]
    simp [← hfree]
  rw [hcomplete] at hr
  subst hr
  refine ⟨hselected, rfl, fun other => ?_⟩
  have hbit := htaken.pending (other / 32) (other % 32) (Nat.mod_lt _ (by omega))
  rw [show 32 * (other / 32) + other % 32 = other by omega] at hbit
  unfold getPendingBit bitmapWords
  simp only [hbit, Bool.and_assoc]

/-- What a change of pending bits makes of the sources to be given. -/
theorem eligible_pending (h : r = { p with pending := r.pending }) (other : Nat) :
    r.Eligible t other ↔ p.isValidSourceId other = true ∧ r.getPendingBit other = true ∧
      p.getEnableBit t other = true ∧ p.thresholds t < p.priorities other := by
  have hvalid : r.isValidSourceId other = p.isValidSourceId other := by rw [h]; rfl
  have henable : r.getEnableBit t other = p.getEnableBit t other := by rw [h]; rfl
  have habove : r.thresholds t < r.priorities other ↔ p.thresholds t < p.priorities other := by
    rw [h]
  constructor
  · intro he
    exact ⟨hvalid ▸ he.valid, he.pending, henable ▸ he.enabled, habove.mp he.above⟩
  · rintro ⟨hv, hp, he, ha⟩
    exact ⟨hvalid ▸ hv, hp, henable ▸ he, habove.mpr ha⟩

/-- The handler serves what waits for the target. -/
theorem serves (p : PLIC) (t : Nat) :
    Serves (serve t) (p.Serving t) (fun q s => q.Eligible t s) p.Before where
  idle h hserve := serve_none h.target h.free hserve
  first := by
    intro q s r h hserve
    obtain ⟨hselected, -, -⟩ := serve_some h.target h.free hserve
    have hpriorities : q.priorities = p.priorities := by rw [h.rest]
    refine ⟨hselected.eligible, fun other hother hne => ?_⟩
    unfold Before
    rw [← hpriorities]
    exact (hselected.best other hother).imp_right fun hle =>
      ⟨hle.1, Nat.lt_of_le_of_ne hle.2 (Ne.symm hne)⟩
  left := by
    intro q s r h hserve
    obtain ⟨-, hrest, hpending⟩ := serve_some h.target h.free hserve
    refine ⟨⟨?_, ?_, ?_⟩, fun other => ?_⟩
    · rw [hrest]
      exact h.target
    · rw [hrest]
      exact h.free
    · rw [hrest, h.rest]
    · rw [eligible_pending hrest, eligible_pending (rfl : q = { q with pending := q.pending }),
        hpending]
      simp only [Bool.and_eq_true, decide_eq_true_eq]
      tauto

/-- From a target with nothing claimed, a handler with a turn for every source is given
exactly the sources that the target can be given, in the order of their priorities and
ids, and each once. It leaves their pending bits clear and all else as it was, and nothing
more is signalled to the target. -/
theorem handler_drains (ht : p.isValidTargetId t = true) (hfree : p.claimed t = 0) {turns : Nat}
    (hturns : p.numSources ≤ turns) :
    let (served, q) := drain (serve t) turns p
    served.Pairwise p.Before ∧ (∀ s, s ∈ served ↔ p.Eligible t s) ∧
      q = { p with pending := q.pending } ∧
      (∀ s, q.getPendingBit s = true ↔ p.getPendingBit s = true ∧ s ∉ served) ∧
      q.hasPendingInterrupts t = false := by
  have hgood : p.Serving t p := ⟨ht, hfree, rfl⟩
  have hall : ∀ s, p.Eligible t s → s ∈ Finset.range p.numSources := by
    intro s hs
    have hvalid := hs.valid
    unfold isValidSourceId at hvalid
    simp only [Bool.and_eq_true, decide_eq_true_eq] at hvalid
    exact Finset.mem_range.mpr hvalid.2
  have hcard : (Finset.range p.numSources).card ≤ turns := by
    rwa [Finset.card_range]
  have hstep : ∀ {q s r}, p.Serving t q → q.serve t = some (s, r) → ∀ other,
      r.getPendingBit other = true ↔ q.getPendingBit other = true ∧ other ≠ s := by
    intro q s r hq hserve other
    rw [(serve_some hq.target hq.free hserve).2.2 other]
    simp
  have hafter : p.Serving t (drain (serve t) turns p).2 := (p.serves t).good_drain hgood
  refine ⟨(p.serves t).pairwise_drain hgood, (p.serves t).mem_drain hgood hall hcard, hafter.rest,
    (p.serves t).holds_drain hstep hgood, ?_⟩
  have hnone := (p.serves t).not_waits_drain hgood hall hcard
  rcases findHighestPriorityPending_spec (drain (serve t) turns p).2 t with ⟨hzero, -⟩ | hselected
  · simp [hasPendingInterrupts, hzero]
  · exact absurd hselected.eligible (hnone _)

/-- The sources of one priority in the order of their ids. -/
theorem handler_drains_two :
    let (served, q) := drain (serve 0) 32 twoPending
    served.Pairwise twoPending.Before ∧ (∀ s, s ∈ served ↔ twoPending.Eligible 0 s) ∧
      q = { twoPending with pending := q.pending } ∧
      (∀ s, q.getPendingBit s = true ↔ twoPending.getPendingBit s = true ∧ s ∉ served) ∧
      q.hasPendingInterrupts 0 = false := by
  have hsources : twoPending.numSources ≤ 32 := by decide
  exact handler_drains (p := twoPending) (t := 0) (by decide) (by decide) hsources

example : (drain (serve 0) 2 twoPending).1 = [5, 9] := by decide +kernel

end PLIC
end RiscvEmulator.Interrupt
