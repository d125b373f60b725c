import Mathlib.Data.List.Induction
import RiscvEmulator.Interrupt.Plic

/-! # Claims of interrupt sources

Runs of calls of the PLIC from the constructor on. `claim` keeps what a target has
claimed and clears the pending bit of what it takes; but a source that is in service
can be raised again and claimed by another target, and `claim_interrupt` looks at no
claim at all. -/
namespace RiscvEmulator.Interrupt
open Memory

inductive PlicCall where
  | setPending (sourceId : Nat) (pending : Bool)
  | setPriority (sourceId : Nat) (priority : Word)
  | setEnable (targetId sourceId : Nat) (enabled : Bool)
  | setThreshold (targetId : Nat) (threshold : Word)
  | claim (targetId : Nat)
  | claimInterrupt (targetId sourceId : Nat)
  | complete (targetId sourceId : Nat)
deriving DecidableEq

namespace PLIC

def call (p : PLIC) : PlicCall → PLIC
  | .setPending sourceId pending => p.setPending sourceId pending
  | .setPriority sourceId priority => p.setPriority sourceId priority
  | .setEnable targetId sourceId enabled => p.setEnable targetId sourceId enabled
  | .setThreshold targetId threshold => p.setThreshold targetId threshold
  | .claim targetId => (p.claim targetId).2
  | .claimInterrupt targetId sourceId => p.claimInterrupt targetId sourceId
  | .complete targetId sourceId => p.complete targetId sourceId

/-- The controller after the calls, from the constructor on. -/
def afterCalls (numSources numTargets : Nat) (calls : List PlicCall) : PLIC :=
  calls.foldl call (init numSources numTargets)

/-- No source is claimed by two targets. -/
def Exclusive (claimed : Nat → Nat) : Prop :=
  ∀ t t', claimed t ≠ 0 → claimed t' = claimed t → t' = t

/-- No target loses its claim, except by completing it. -/
def KeepsClaims (p : PLIC) (a : PlicCall) : Prop :=
  ∀ t, p.claimed t ≠ 0 →
    (p.call a).claimed t = p.claimed t ∨ a = .complete t (p.claimed t)

/-- The source that a claim would enter is not claimed by another target, and
`claim_interrupt` does not replace a claim. -/
def ClaimsFree (p : PLIC) : PlicCall → Prop
  | .claim t => p.isValidTargetId t = true → p.claimed t = 0 →
      p.findHighestPriorityPending t ≠ 0 →
        ∀ t', p.claimed t' ≠ p.findHighestPriorityPending t
  | .claimInterrupt t s => p.isValidTargetId t = true → p.isValidSourceId s = true →
      (p.claimed t = 0 ∨ p.claimed t = s) ∧ ∀ t', t' ≠ t → p.claimed t' ≠ s
  | _ => True

/-- In every state of the run no source is claimed twice, and every call of the run
keeps the claims. -/
def ClaimsSafe (numSources numTargets : Nat) (calls : List PlicCall) : Prop :=
  (∀ earlier later, calls = earlier ++ later →
    Exclusive (afterCalls numSources numTargets earlier).claimed) ∧
  ∀ earlier a later, calls = earlier ++ a :: later →
    (afterCalls numSources numTargets earlier).KeepsClaims a

variable {p : PLIC} {claimed : Nat → Nat} {t s : Nat}

/-! ## What a call makes of the claims -/

theorem updatePendingBit_claimed (p : PLIC) (sourceId : Nat) (pending : Bool) :
    (p.updatePendingBit sourceId pending).claimed = p.claimed := by
  unfold updatePendingBit
  split <;> rfl

theorem markClaimed_claimed (p : PLIC) (targetId sourceId : Nat) :
    (p.markClaimed targetId sourceId).claimed =
      Function.update p.claimed targetId sourceId :=
  updatePendingBit_claimed _ _ _

theorem updateEnableBit_claimed (p : PLIC) (targetId sourceId : Nat) (enabled : Bool) :
    (p.updateEnableBit targetId sourceId enabled).claimed = p.claimed := by
  unfold updateEnableBit
  split <;> rfl

theorem claim_claimed (p : PLIC) (t : Nat) : (p.claim t).2.claimed =
    if p.isValidTargetId t = true ∧ p.claimed t = 0 then
      Function.update p.claimed t (p.findHighestPriorityPending t)
    else p.claimed := by
  unfold claim claimPending
  by_cases ht : p.isValidTargetId t = true
  · by_cases hc : p.claimed t = 0
    · rw [if_pos ht, if_neg (not_not.mpr hc), if_pos ⟨ht, hc⟩]
      by_cases hs : p.findHighestPriorityPending t = 0
      · simp only [hs, ne_eq, not_true_eq_false, if_false]
        rw [← hc, Function.update_eq_self]
      · simp only [hs, ne_eq, not_false_eq_true, if_true]
        exact markClaimed_claimed _ _ _
    · rw [if_pos ht, if_pos hc, if_neg fun h => hc h.2]
  · rw [if_neg ht, if_neg fun h => ht h.1]

theorem claimInterrupt_claimed (p : PLIC) (t s : Nat) : (p.claimInterrupt t s).claimed =
    if p.isValidTargetId t = true ∧ p.isValidSourceId s = true then
      Function.update p.claimed t s else p.claimed := by
  unfold claimInterrupt
  simp only [Bool.and_eq_true]
  split
  · exact markClaimed_claimed _ _ _
  · rfl

theorem complete_claimed (p : PLIC) (t s : Nat) : (p.complete t s).claimed =
    if p.isValidTargetId t = true ∧ p.isValidSourceId s = true ∧ p.claimed t = s then
      Function.update p.claimed t 0 else p.claimed := by
  unfold complete completeClaimed
  by_cases hv : p.isValidTargetId t = true ∧ p.isValidSourceId s = true
  · rw [if_pos (by simpa using hv)]
    by_cases hc : p.claimed t = s
    · rw [if_pos hc, if_pos ⟨hv.1, hv.2, hc⟩]
    · rw [if_neg hc, if_neg fun h => hc h.2.2]
  · rw [if_neg (by simpa using hv), if_neg fun h => hv ⟨h.1, h.2.1⟩]

/-- The other calls do not touch the claims. -/
theorem set_claimed (p : PLIC) (source target : Nat) (b : Bool) (v : Word) :
    (p.setPending source b).claimed = p.claimed ∧ (p.setPriority source v).claimed = p.claimed ∧
      (p.setEnable target source b).claimed = p.claimed ∧
      (p.setThreshold target v).claimed = p.claimed := by
  refine ⟨?_, ?_, ?_, ?_⟩
  · unfold setPending
    split
    · exact updatePendingBit_claimed _ _ _
    · rfl
  · unfold setPriority
    split <;> rfl
  · unfold setEnable
    split
    · exact updateEnableBit_claimed _ _ _ _
    · rfl
  · unfold setThreshold
    split <;> rfl

/-! ## One call -/

theorem Exclusive.update_iff (h : Exclusive claimed) (hs : s ≠ 0) :
    Exclusive (Function.update claimed t s) ↔ ∀ t', t' ≠ t → claimed t' ≠ s := by
  constructor
  · intro h' t' ht' hclaimed
    refine ht' (h' t t' ?_ ?_)
    · rwa [Function.update_self]
    · rw [Function.update_of_ne ht', Function.update_self, hclaimed]
  · intro hother t₁ t₂ h₁ h₂
    by_cases ht₁ : t₁ = t
    · subst ht₁
      by_contra ht₂
      rw [Function.update_of_ne ht₂, Function.update_self] at h₂
      exact hother t₂ ht₂ h₂
    · rw [Function.update_of_ne ht₁] at h₁ h₂
      by_cases ht₂ : t₂ = t
      · rw [ht₂, Function.update_self] at h₂
        exact absurd h₂.symm (hother t₁ ht₁)
      · rw [Function.update_of_ne ht₂] at h₂
        exact h t₁ t₂ h₁ h₂

theorem Exclusive.release (h : Exclusive claimed) (t : Nat) :
    Exclusive (Function.update claimed t 0) := by
  intro t₁ t₂ h₁ h₂
  have ht₁ : t₁ ≠ t := by
    rintro rfl
    exact h₁ (Function.update_self ..)
  rw [Function.update_of_ne ht₁] at h₁ h₂
  by_cases ht₂ : t₂ = t
  · rw [ht₂, Function.update_self] at h₂
    exact absurd h₂.symm h₁
  · rw [Function.update_of_ne ht₂] at h₂
    exact h t₁ t₂ h₁ h₂

theorem call_safe_of_same {a : PlicCall} (h : Exclusive p.claimed)
    (hsame : (p.call a).claimed = p.claimed) : Exclusive (p.call a).claimed ∧ p.KeepsClaims a := by
  refine ⟨hsame ▸ h, fun t _ => .inl ?_⟩
  rw [hsame]

/-- A claim of a free target is safe if the source it takes is free. -/
theorem claim_safe_iff (h : Exclusive p.claimed) (t : Nat) :
    (Exclusive (p.call (.claim t)).claimed ∧ p.KeepsClaims (.claim t)) ↔
      p.ClaimsFree (.claim t) := by
  have hcall : (p.call (.claim t)).claimed = _ := claim_claimed p t
  by_cases hc : p.isValidTargetId t = true ∧ p.claimed t = 0
  · rw [if_pos hc] at hcall
    have hkeeps : p.KeepsClaims (.claim t) := by
      intro t' ht'
      have hne : t' ≠ t := by
        rintro rfl
        exact ht' hc.2
      exact .inl (by rw [hcall, Function.update_of_ne hne])
    by_cases hs : p.findHighestPriorityPending t = 0
    · rw [hs, ← hc.2, Function.update_eq_self] at hcall
      exact iff_of_true ⟨hcall ▸ h, hkeeps⟩ fun _ _ hne => absurd hs hne
    · rw [hcall, h.update_iff hs]
      constructor
      · rintro ⟨hother, _⟩ _ _ _ t' hclaimed
        refine hother t' ?_ hclaimed
        rintro rfl
        exact hs (hclaimed.symm.trans hc.2)
      · exact fun hfree => ⟨fun t' _ => hfree hc.1 hc.2 hs t', hkeeps⟩
  · rw [if_neg hc] at hcall
    exact iff_of_true (call_safe_of_same h hcall) fun ht hclaimed => absurd ⟨ht, hclaimed⟩ hc

/-- The direct entry point does not look at what the target has claimed. -/
theorem claimInterrupt_safe_iff (h : Exclusive p.claimed) (t s : Nat) :
    (Exclusive (p.call (.claimInterrupt t s)).claimed ∧ p.KeepsClaims (.claimInterrupt t s)) ↔
      p.ClaimsFree (.claimInterrupt t s) := by
  have hcall : (p.call (.claimInterrupt t s)).claimed = _ := claimInterrupt_claimed p t s
  by_cases hv : p.isValidTargetId t = true ∧ p.isValidSourceId s = true
  · rw [if_pos hv] at hcall
    have hs : s ≠ 0 := by
      rintro rfl
      exact absurd hv.2 (by simp [isValidSourceId])
    rw [hcall, h.update_iff hs]
    constructor
    · rintro ⟨hother, hkeeps⟩ _ _
      refine ⟨?_, hother⟩
      by_cases hzero : p.claimed t = 0
      · exact .inl hzero
      · rcases hkeeps t hzero with hsame | hcomplete
        · rw [hcall, Function.update_self] at hsame
          exact .inr hsame.symm
        · cases hcomplete
    · intro hfree
      obtain ⟨hself, hother⟩ := hfree hv.1 hv.2
      refine ⟨hother, fun t' ht' => .inl ?_⟩
      rw [hcall]
      by_cases hne : t' = t
      · subst hne
        rw [Function.update_self]
        exact (hself.resolve_left ht').symm
      · rw [Function.update_of_ne hne]
  · rw [if_neg hv] at hcall
    exact iff_of_true (call_safe_of_same h hcall) fun ht hs => absurd ⟨ht, hs⟩ hv

theorem complete_safe (h : Exclusive p.claimed) (t s : Nat) :
    Exclusive (p.call (.complete t s)).claimed ∧ p.KeepsClaims (.complete t s) := by
  have hcall : (p.call (.complete t s)).claimed = _ := complete_claimed p t s
  by_cases hc : p.isValidTargetId t = true ∧ p.isValidSourceId s = true ∧ p.claimed t = s
  · rw [if_pos hc] at hcall
    refine ⟨hcall ▸ h.release t, fun t' ht' => ?_⟩
    by_cases hne : t' = t
    · subst hne
      exact .inr (by rw [hc.2.2])
    · exact .inl (by rw [hcall, Function.update_of_ne hne])
  · rw [if_neg hc] at hcall
    exact call_safe_of_same h hcall

/-- From a state with no source claimed twice, a call keeps that and all claims exactly
if it enters a free source for a free target. -/
theorem call_safe_iff (h : Exclusive p.claimed) (a : PlicCall) :
    (Exclusive (p.call a).claimed ∧ p.KeepsClaims a) ↔ p.ClaimsFree a := by
  cases a with
  | setPending s b => exact iff_of_true (call_safe_of_same h (set_claimed p s 0 b 0).1) trivial
  | setPriority s v =>
    exact iff_of_true (call_safe_of_same h (set_claimed p s 0 true v).2.1) trivial
  | setEnable t s b =>
    exact iff_of_true (call_safe_of_same h (set_claimed p s t b 0).2.2.1) trivial
  | setThreshold t v =>
    exact iff_of_true (call_safe_of_same h (set_claimed p 0 t true v).2.2.2) trivial
  | claim t => exact claim_safe_iff h t
  | claimInterrupt t s => exact claimInterrupt_safe_iff h t s
  | complete t s => exact iff_of_true (complete_safe h t s) trivial

/-! ## Every run -/

theorem afterCalls_concat (numSources numTargets : Nat) (calls : List PlicCall) (a : PlicCall) :
    afterCalls numSources numTargets (calls ++ [a]) =
      (afterCalls numSources numTargets calls).call a :=
  List.foldl_append ..

/-- A run is safe exactly if every claim that it enters is of a free source for a free
target. -/
theorem claimsSafe_iff (numSources numTargets : Nat) (calls : List PlicCall) :
    ClaimsSafe numSources numTargets calls ↔ ∀ earlier a later, calls = earlier ++ a :: later →
      (afterCalls numSources numTargets earlier).ClaimsFree a := by
  constructor
  · rintro ⟨hexclusive, hkeeps⟩ earlier a later hcalls
    have hnext := hexclusive (earlier ++ [a]) later (by rw [hcalls, List.append_cons])
    rw [afterCalls_concat] at hnext
    exact (call_safe_iff (hexclusive earlier _ hcalls) a).mp ⟨hnext, hkeeps earlier a later hcalls⟩
  · intro hfree
    have hexclusive : ∀ earlier later, calls = earlier ++ later →
        Exclusive (afterCalls numSources numTargets earlier).claimed := by
      intro earlier
      induction earlier using List.reverseRecOn with
      | nil => exact fun _ _ t t' ht => absurd rfl ht
      | append_singleton earlier a ih =>
        intro later hcalls
        rw [← List.append_cons] at hcalls
        rw [afterCalls_concat]
        exact ((call_safe_iff (ih _ hcalls) a).mpr (hfree earlier a later hcalls)).1
    exact ⟨hexclusive, fun earlier a later hcalls =>
      ((call_safe_iff (hexclusive earlier _ hcalls) a).mpr (hfree earlier a later hcalls)).2⟩

/-- Source 1 is raised again while target 0 serves it, and target 1 claims it too. -/
theorem claimed_twice : ¬ ClaimsSafe 32 2 [.setPriority 1 1, .setEnable 0 1 true,
    .setEnable 1 1 true, .setPending 1 true, .claim 0, .setPending 1 true, .claim 1] := by
  intro h
  have hexclusive := h.1 _ [] (List.append_nil _).symm
  exact absurd (hexclusive 0 1 (by decide) (by decide)) (by decide)

end PLIC
end RiscvEmulator.Interrupt
