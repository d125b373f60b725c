import Mathlib.Data.List.Range
import RiscvEmulator.Interrupt.Plic
import RiscvEmulator.Lib.Best

/-! # The choice of a claim

The scan of `find_highest_priority_pending` over the sources keeps the best one so far.
What it ends with is the source of the highest priority among those a target can be
given, and `claim` takes that one: it clears its pending bit and enters the claim. -/
namespace RiscvEmulator.Interrupt
open Memory Lib.Best

namespace PLIC

/-- A source that a target can be given. -/
structure Eligible (p : PLIC) (targetId sourceId : Nat) : Prop where
  valid : p.isValidSourceId sourceId = true
  pending : p.getPendingBit sourceId = true
  enabled : p.getEnableBit targetId sourceId = true
  above : p.thresholds targetId < p.priorities sourceId

/-- The source of the highest priority, and of the lowest id among equals. -/
structure Selected (p : PLIC) (targetId sourceId : Nat) : Prop where
  eligible : p.Eligible targetId sourceId
  best : ∀ other, p.Eligible targetId other →
    p.priorities other < p.priorities sourceId ∨
      p.priorities other = p.priorities sourceId ∧ sourceId ≤ other

/-- `q` is `p` with the pending bit of the source cleared and its claim entered. -/
structure Taken (p : PLIC) (targetId sourceId : Nat) (q : PLIC) : Prop where
  rest : q = { p with
    pending := q.pending, claimed := Function.update p.claimed targetId sourceId }
  pending : ∀ word bit, bit < 32 → (q.pending word).getLsbD bit =
    ((p.pending word).getLsbD bit && decide (32 * word + bit ≠ sourceId))

variable {p : PLIC} {t s : Nat}

/-! ## The scan -/

/-- The priority with which a source takes part in the scan. -/
def offered (p : PLIC) (targetId source : Nat) : Option Word :=
  if p.getPendingBit source && p.getEnableBit targetId source &&
      decide (p.thresholds targetId < p.priorities source) then some (p.priorities source) else none

theorem offered_eq_some {v : Word} (hs : p.isValidSourceId s = true) :
    p.offered t s = some v ↔ p.Eligible t s ∧ p.priorities s = v := by
  unfold offered
  constructor
  · intro h
    split at h
    · next hbits =>
      rw [Bool.and_eq_true, Bool.and_eq_true, decide_eq_true_iff] at hbits
      exact ⟨⟨hs, hbits.1.1, hbits.1.2, hbits.2⟩, Option.some.inj h⟩
    · cases h
  · intro h
    rw [if_pos, h.2]
    rw [h.1.pending, h.1.enabled, decide_eq_true h.1.above]
    rfl

theorem findHighestPriorityPending_eq (p : PLIC) (t : Nat) : p.findHighestPriorityPending t =
    (((List.range p.numSources).drop 1).foldl (keepBetter (p.offered t)) (0, 0)).1 := by
  unfold findHighestPriorityPending
  congr 2
  funext best source
  unfold keepBetter offered
  cases p.getPendingBit source <;> cases p.getEnableBit t source <;>
    by_cases habove : p.thresholds t < p.priorities source <;> simp [habove]

/-- The scan comes to the valid sources, -/
theorem mem_scan {s : Nat} : s ∈ (List.range p.numSources).drop 1 ↔ p.isValidSourceId s = true := by
  rw [List.range_eq_range', List.drop_range', List.mem_range'_1]
  unfold isValidSourceId
  rw [Bool.and_eq_true, decide_eq_true_iff, decide_eq_true_iff]
  omega

/-- in the order of their ids. -/
theorem scan_sorted {before after : List Nat}
    (h : (List.range p.numSources).drop 1 = before ++ s :: after) :
    (∀ x ∈ before, x < s) ∧ ∀ x ∈ after, s < x := by
  have hsorted : ((List.range p.numSources).drop 1).Pairwise (· < ·) :=
    List.pairwise_lt_range.drop
  rw [h, List.pairwise_append, List.pairwise_cons] at hsorted
  exact ⟨fun x hx => hsorted.2.2 x hx s List.mem_cons_self, hsorted.2.1.1⟩

/-- The scan ends with the source to be given, or with 0 if there is none. -/
theorem findHighestPriorityPending_spec (p : PLIC) (t : Nat) :
    (p.findHighestPriorityPending t = 0 ∧ ∀ s, ¬p.Eligible t s) ∨
      p.Selected t (p.findHighestPriorityPending t) := by
  rw [findHighestPriorityPending_eq]
  rcases foldl_keepBetter (p.offered t) ((List.range p.numSources).drop 1) (0, 0) with
    ⟨hkept, hnone⟩ | ⟨before, s, after, v, hl, hv, hend, _, hbefore, hafter⟩
  · rw [hkept]
    refine .inl ⟨rfl, fun s hs => ?_⟩
    -- a priority above a threshold is above 0
    have hle := hnone s (mem_scan.mpr hs.valid) _ ((offered_eq_some hs.valid).mpr ⟨hs, rfl⟩)
    have habove := hs.above
    rw [BitVec.le_def] at hle
    rw [BitVec.lt_def] at habove
    exact absurd (Nat.lt_of_lt_of_le habove hle) (Nat.not_lt_zero _)
  · rw [hend]
    right
    have hvalid : p.isValidSourceId s = true := mem_scan.mp (by rw [hl]; simp)
    obtain ⟨heligible, rfl⟩ := (offered_eq_some hvalid).mp hv
    obtain ⟨hlow, hhigh⟩ := scan_sorted hl
    refine ⟨heligible, fun other hother => ?_⟩
    have hoffered := (offered_eq_some hother.valid).mpr ⟨hother, rfl⟩
    have hmem := mem_scan.mpr hother.valid
    rw [hl, List.mem_append, List.mem_cons] at hmem
    rcases hmem with hmem | rfl | hmem
    · exact .inl (hbefore other hmem _ hoffered)
    · exact .inr ⟨rfl, Nat.le_refl _⟩
    · rcases Std.le_iff_lt_or_eq.mp (hafter other hmem _ hoffered) with hlt | heq
      · exact .inl hlt
      · exact .inr ⟨heq, (hhigh other hmem).le⟩

theorem Selected.ne_zero (h : p.Selected t s) : s ≠ 0 := by
  intro hs
  have hvalid := h.eligible.valid
  rw [hs] at hvalid
  exact absurd hvalid (by simp [isValidSourceId])

/-! ## The claim -/

/-- A valid source has a bit in the bitmap. -/
theorem bitmapWords_of_valid (hs : p.isValidSourceId s = true) : s / 32 < p.bitmapWords := by
  unfold isValidSourceId at hs
  rw [Bool.and_eq_true, decide_eq_true_iff, decide_eq_true_iff] at hs
  unfold bitmapWords
  omega

theorem updateBit_clear (v : Word) (s k : Nat) (hk : k < 32) :
    (updateBit v s false).getLsbD k = (v.getLsbD k && decide (k ≠ s % 32)) := by
  have hmod : s % 32 < 32 := Nat.mod_lt _ (by omega)
  have hbit : (1#32 <<< (s % 32)).getLsbD k = decide (k = s % 32) := by
    rw [BitVec.getLsbD_shiftLeft, BitVec.getLsbD_one]
    by_cases hks : k = s % 32
    · simp [hks, hmod]
    · simp only [hks, decide_false, hk, decide_true, Bool.true_and]
      by_cases hlt : k < s % 32 <;> simp [hlt]
      omega
  unfold updateBit
  rw [if_neg Bool.false_ne_true, BitVec.getLsbD_and, BitVec.getLsbD_not, hbit]
  simp [hk]

theorem markClaimed_taken (hs : p.isValidSourceId s = true) : p.Taken t s (p.markClaimed t s) := by
  have hword := bitmapWords_of_valid hs
  have hmark : p.markClaimed t s = { p with
      claimed := Function.update p.claimed t s
      pending := Function.update p.pending (s / 32) (updateBit (p.pending (s / 32)) s false) } :=
    if_pos hword
  rw [hmark]
  refine ⟨rfl, fun word bit hbit => ?_⟩
  show (Function.update p.pending (s / 32) _ word).getLsbD bit = _
  by_cases hw : word = s / 32
  · rw [hw, Function.update_self, updateBit_clear _ _ _ hbit]
    congr 2
    simp only [ne_eq, eq_iff_iff]
    omega
  · have hne : 32 * word + bit ≠ s := by omega
    rw [Function.update_of_ne hw, decide_eq_true hne, Bool.and_true]

/-- A target with nothing claimed is given the selected source, which is taken, or 0 if
there is none; and the controller signals a pending interrupt exactly if there is one. -/
theorem claim_selects (p : PLIC) (t : Nat) (ht : p.isValidTargetId t = true)
    (hfree : p.claimed t = 0) :
    ((p.claim t).1 = 0 ∧ (∀ s, ¬p.Eligible t s) ∧ (p.claim t).2 = p ∨
      p.Selected t (p.claim t).1 ∧ p.Taken t (p.claim t).1 (p.claim t).2) ∧
    (p.hasPendingInterrupts t = true ↔ (p.claim t).1 ≠ 0) := by
  have hclaim : p.claim t = (p.findHighestPriorityPending t,
      if p.findHighestPriorityPending t ≠ 0 then p.markClaimed t (p.findHighestPriorityPending t)
      else p) := by
    unfold claim claimPending
    rw [if_pos ht, if_neg (not_not.mpr hfree)]
  rw [hclaim]
  constructor
  · rcases findHighestPriorityPending_spec p t with ⟨hzero, hnone⟩ | hselected
    · exact .inl ⟨hzero, hnone, if_neg (not_not.mpr hzero)⟩
    · refine .inr ⟨hselected, ?_⟩
      rw [if_pos hselected.ne_zero]
      exact markClaimed_taken hselected.eligible.valid
  · have htarget : t < p.numTargets := of_decide_eq_true ht
    simp [hasPendingInterrupts, htarget]

/-- Two sources of one priority are pending for target 0. -/
def twoPending : PLIC :=
  let p := ((init 32 1).setPriority 5 2).setPriority 9 2
  let p := (p.setEnable 0 5 true).setEnable 0 9 true
  (p.setPending 5 true).setPending 9 true

theorem claim_selects_five :
    (twoPending.isValidTargetId 0 = true ∧ twoPending.claimed 0 = 0) ∧
      ((twoPending.claim 0).1 = 0 ∧ (∀ s, ¬twoPending.Eligible 0 s) ∧
          (twoPending.claim 0).2 = twoPending ∨
        twoPending.Selected 0 (twoPending.claim 0).1 ∧
          twoPending.Taken 0 (twoPending.claim 0).1 (twoPending.claim 0).2) ∧
      (twoPending.hasPendingInterrupts 0 = true ↔ (twoPending.claim 0).1 ≠ 0) :=
  ⟨⟨by decide, by decide⟩, claim_selects twoPending 0 (by decide) (by decide)⟩

/-- A claim changes more than the pending bits. -/
theorem claim_recorded : ¬∀ (p : PLIC) (t : Nat), p.isValidTargetId t = true → p.claimed t = 0 →
    (p.claim t).2 = { p with pending := (p.claim t).2.pending } := by
  intro h
  have hclaimed := congrArg (·.claimed 0) (h twoPending 0 (by decide) (by decide))
  exact absurd hclaimed (by decide)

end PLIC
end RiscvEmulator.Interrupt
