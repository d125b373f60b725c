import Mathlib.Data.List.FinRange
import Mathlib.Data.List.Perm.Basic
import RiscvEmulator.Lib.History

/-! # Slots in the order of their use

A table whose slots may hold keys, a list of the slots, and the keys used so far, the
last one at the end. If every use moves its slot to the front, then of two slots in
the list the first one's key was used after the second one's, and the slot at the end
is the one to give up. -/
namespace RiscvEmulator.Lib.Recency
open History

variable {ι κ : Type*} {past : List κ} {key key' : ι → Option κ} {order : List ι} {i : ι} {k : κ}

/-- `k` has been used since `k'` was used last. -/
def UsedSince (past : List κ) (k k' : κ) : Prop := Since (· = k) (· = k') past

/-- Each slot's key has been used since those of the slots behind it. -/
def ByUse (past : List κ) (key : ι → Option κ) (order : List ι) : Prop :=
  order.Pairwise fun i j => ∀ k k', key i = some k → key j = some k' → UsedSince past k k'

theorem usedSince_self (past : List κ) (k k' : κ) : UsedSince (past ++ [k]) k k' :=
  since_concat_iff.mpr (.inl rfl)

theorem UsedSince.later {k₁ k₂ : κ} (h : UsedSince past k₁ k₂) (hk : k ≠ k₂) :
    UsedSince (past ++ [k]) k₁ k₂ :=
  since_concat_iff.mpr (.inr ⟨h, hk⟩)

theorem ByUse.of_empty (h : ∀ i, key i = none) (order : List ι) : ByUse past key order :=
  List.pairwise_of_forall fun i _ _ _ hk => by
    rw [h i] at hk
    cases hk

/-- Slots may be emptied. -/
theorem ByUse.free (h : ByUse past key order) (hsub : ∀ i k, key' i = some k → key i = some k) :
    ByUse past key' order :=
  h.imp fun hij k k' hk hk' => hij k k' (hsub _ k hk) (hsub _ k' hk')

/-- A key that no slot holds is used elsewhere. -/
theorem ByUse.pass (h : ByUse past key order) (hk : ∀ i, key i ≠ some k) :
    ByUse (past ++ [k]) key order :=
  h.imp fun hij k₁ k₂ h₁ h₂ => (hij k₁ k₂ h₁ h₂).later fun heq => hk _ (heq ▸ h₂)

/-- The key of a slot is used, one that it held or one that it gets, and the slot moves
to the front. -/
theorem ByUse.use [DecidableEq ι] (h : ByUse past key order) (hkey : key' i = some k)
    (hothers : ∀ j, j ≠ i → key' j = key j) (hnew : ∀ j, j ≠ i → key j ≠ some k) :
    ByUse (past ++ [k]) key' (i :: order.filter (· != i)) := by
  refine List.pairwise_cons.mpr ⟨fun j _ k₁ k₂ h₁ _ => ?_, ?_⟩
  · obtain rfl : k = k₁ := Option.some.inj (hkey.symm.trans h₁)
    exact usedSince_self past k k₂
  · refine (h.filter _).imp_of_mem fun {j j'} hj hj' hjj k₁ k₂ h₁ h₂ => ?_
    have hne : j ≠ i := by simpa using (List.mem_filter.mp hj).2
    have hne' : j' ≠ i := by simpa using (List.mem_filter.mp hj').2
    rw [hothers j hne] at h₁
    rw [hothers j' hne'] at h₂
    exact (hjj k₁ k₂ h₁ h₂).later fun heq => hnew j' hne' (heq ▸ h₂)

/-- Every other slot's key has been used since that of the slot at the end. -/
theorem ByUse.last (h : ByUse past key order) (hlast : order.getLast? = some i) {j : ι} {k' : κ}
    (hj : j ∈ order) (hne : j ≠ i) (hk : key j = some k) (hk' : key i = some k') :
    UsedSince past k k' := by
  rw [← List.dropLast_append_getLast? i hlast] at h hj
  rcases List.mem_append.mp hj with hj | hj
  · exact (List.pairwise_append.mp h).2.2 j hj i List.mem_cons_self k k' hk hk'
  · exact absurd (List.mem_singleton.mp hj) hne

/-! ## Moving to the front -/

/-- Moving a slot to the front, also when it was missing from the list. -/
theorem front_perm {n : ℕ} {l : List (Fin n)} {i : Fin n} (hn : l.Nodup) (hm : ∀ j, j ≠ i → j ∈ l) :
    (i :: l.filter (· != i)).Perm (List.finRange n) := by
  have hnd : (i :: l.filter (· != i)).Nodup :=
    List.nodup_cons.mpr ⟨by simp, hn.filter _⟩
  refine (List.perm_ext_iff_of_nodup hnd (List.nodup_finRange _)).mpr fun j => ?_
  simp only [List.mem_cons, List.mem_filter, bne_iff_ne, List.mem_finRange, iff_true]
  by_cases hj : j = i
  · exact .inl hj
  · exact .inr ⟨hm j hj, hj⟩

theorem exists_last {n : ℕ} {l : List (Fin n)} (h : l.Perm (List.finRange n)) (hn : 0 < n) :
    ∃ i, l.getLast? = some i := by
  apply Option.ne_none_iff_exists'.mp
  intro hnil
  have hmem : (⟨0, hn⟩ : Fin n) ∈ l := h.mem_iff.mpr (List.mem_finRange _)
  rw [List.getLast?_eq_none_iff.mp hnil] at hmem
  cases hmem

theorem dropLast_eq_filter [DecidableEq ι] {l : List ι} (hn : l.Nodup)
    (hlast : l.getLast? = some i) :
    l.dropLast = l.filter (· != i) := by
  have hsplit := List.dropLast_append_getLast? i hlast
  rw [← hsplit] at hn
  have hnot : i ∉ l.dropLast := fun hmem =>
    List.disjoint_of_nodup_append hn hmem List.mem_cons_self
  conv_rhs => rw [← hsplit, List.filter_append]
  have hkeep : l.dropLast.filter (· != i) = l.dropLast :=
    List.filter_eq_self.mpr fun j hj => by
      simpa using fun heq : j = i => hnot (heq ▸ hj)
  rw [hkeep]
  simp

end RiscvEmulator.Lib.Recency
