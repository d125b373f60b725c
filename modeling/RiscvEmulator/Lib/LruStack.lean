import Mathlib.Data.Finset.Basic
import Mathlib.Data.Finset.Card
import Mathlib.Data.List.TakeDrop
import RiscvEmulator.Lib.Recency

/-! # Least recently used, as a list

A table of `size` slots that gives up the key used least recently is the list of its keys
in the order of their use, cut at `size`. Of two tables that are used and emptied alike,
the keys of the smaller one are the first keys of the larger one. As long as nothing is
dropped, a key stays until `size` others have been used. -/
namespace RiscvEmulator.Lib.LruStack

variable {κ : Type*} [DecidableEq κ] {size size' : ℕ} {stack stack' : List κ} {k : κ}

/-- What happens to a table. -/
inductive Act (κ : Type*) where
  | use (k : κ)
  | drop (k : κ)
  | clear

/-- The key comes to the front. -/
def touch (stack : List κ) (k : κ) : List κ := k :: stack.erase k

/-- The key comes to the front, and the last one may have to go. -/
def use (size : ℕ) (stack : List κ) (k : κ) : List κ := (touch stack k).take size

def act (size : ℕ) (stack : List κ) : Act κ → List κ
  | .use k => use size stack k
  | .drop k => stack.erase k
  | .clear => []

def run (size : ℕ) (stack : List κ) (acts : List (Act κ)) : List κ := acts.foldl (act size) stack

/-! ## Two sizes -/

theorem erase_prefix (h : stack <+: stack') (k : κ) : stack.erase k <+: stack'.erase k := by
  obtain ⟨rest, rfl⟩ := h
  rw [List.erase_append]
  split
  · exact List.prefix_append ..
  · next hk =>
    rw [List.erase_of_not_mem hk]
    exact List.prefix_append ..

theorem touch_extends (h : stack <+: stack') (k : κ) : touch stack k <+: touch stack' k :=
  List.cons_prefix_cons.mpr ⟨rfl, erase_prefix h k⟩

omit [DecidableEq κ] in
theorem take_prefix_take (h : stack <+: stack') (hsize : size ≤ size') :
    stack.take size <+: stack'.take size' := by
  obtain ⟨rest, rfl⟩ := h
  refine List.IsPrefix.trans ?_ (List.take_prefix_take_left hsize)
  rw [List.take_append]
  exact List.prefix_append ..

/-- A larger table keeps what the smaller one keeps, in the same places. -/
theorem act_extends (h : stack <+: stack') (hsize : size ≤ size') (a : Act κ) :
    act size stack a <+: act size' stack' a := by
  cases a with
  | use k => exact take_prefix_take (touch_extends h k) hsize
  | drop k => exact erase_prefix h k
  | clear => exact List.prefix_refl []

theorem run_prefix (h : stack <+: stack') (hsize : size ≤ size') (acts : List (Act κ)) :
    run size stack acts <+: run size' stack' acts := by
  induction acts generalizing stack stack' with
  | nil => exact h
  | cons a acts ih => exact ih (act_extends h hsize a)

/-! ## How long a key stays -/

/-- Only the first keys of a table matter to those it has after a use. -/
theorem use_take (size : ℕ) (stack : List κ) (k : κ) :
    use size (stack.take size) k = use size stack k := by
  unfold use
  by_cases hlong : size ≤ stack.length
  · have hprefix := touch_extends (List.take_prefix size stack) k
    have hlength : size ≤ (touch (stack.take size) k).length := by
      have := List.le_length_erase (a := k) (l := stack.take size)
      rw [List.length_take_of_le hlong] at this
      unfold touch
      rw [List.length_cons]
      omega
    obtain ⟨rest, hrest⟩ := hprefix
    rw [← hrest, List.take_append_of_le_length hlength]
  · rw [List.take_of_length_le (Nat.le_of_not_le hlong)]

/-- Uses may be made on the whole list, which is cut at the end. -/
theorem uses_take (size : ℕ) (stack uses : List κ) :
    uses.foldl (use size) (stack.take size) = (uses.foldl touch stack).take size := by
  induction uses generalizing stack with
  | nil => rfl
  | cons k uses ih =>
    have hcut : use size (stack.take size) k = (touch stack k).take size := use_take size stack k
    rw [List.foldl_cons, List.foldl_cons, hcut, ih]

/-- In front of a key stand those that were used after it. -/
theorem foldl_touch (front stack : List κ) (hnodup : front.Nodup) {uses : List κ}
    (hfront : k ∉ front) (huses : k ∉ uses) :
    ∃ front' rest, uses.foldl touch (front ++ k :: stack) = front' ++ k :: rest ∧
      front'.Nodup ∧ k ∉ front' ∧ front'.toFinset = front.toFinset ∪ uses.toFinset := by
  induction uses generalizing front stack with
  | nil => exact ⟨front, stack, rfl, hnodup, hfront, by simp⟩
  | cons k' uses ih =>
    have hne : k' ≠ k := fun heq => huses (heq ▸ List.mem_cons_self)
    have huses' : k ∉ uses := fun hk => huses (List.mem_cons_of_mem k' hk)
    have hfront' : k ∉ k' :: front.erase k' := by
      intro hk
      rcases List.mem_cons.mp hk with heq | hk
      · exact hne heq.symm
      · exact hfront (List.mem_of_mem_erase hk)
    have hnodup' : (k' :: front.erase k').Nodup :=
      List.nodup_cons.mpr ⟨hnodup.not_mem_erase, hnodup.erase k'⟩
    have hset : (k' :: front.erase k').toFinset = insert k' front.toFinset := by
      ext x
      by_cases hx : x = k'
      · simp [hx]
      · simp [hx, List.mem_erase_of_ne hx]
    have htouch : ∃ stack', touch (front ++ k :: stack) k' =
        (k' :: front.erase k') ++ k :: stack' := by
      unfold touch
      rw [List.erase_append]
      split
      · exact ⟨stack, rfl⟩
      · next hk =>
        rw [List.erase_cons_tail (by simpa using hne.symm), List.erase_of_not_mem hk]
        exact ⟨stack.erase k', rfl⟩
    obtain ⟨stack', htouch⟩ := htouch
    obtain ⟨front'', rest, hrun, hnd, hk, hunion⟩ := ih (k' :: front.erase k') stack' hnodup'
      hfront' huses'
    refine ⟨front'', rest, ?_, hnd, hk, ?_⟩
    · rw [List.foldl_cons, htouch]
      exact hrun
    · rw [hunion, hset, List.toFinset_cons, Finset.insert_union, Finset.union_insert]

/-- A key that was used stays exactly as long as fewer than `size` others have been used. -/
theorem mem_uses_iff (size : ℕ) {uses : List κ} (huses : k ∉ uses) (stack : List κ) :
    k ∈ uses.foldl (use size) (use size stack k) ↔ uses.toFinset.card < size := by
  have hcut : use size stack k = (touch stack k).take size := rfl
  rw [hcut, uses_take]
  obtain ⟨front, rest, hrun, hnodup, hfront, hset⟩ :=
    foldl_touch [] (stack.erase k) List.nodup_nil (k := k) List.not_mem_nil huses
  have hcard : uses.toFinset.card = front.length := by
    rw [← List.toFinset_card_of_nodup hnodup, hset]
    simp
  have htouch : touch stack k = [] ++ k :: stack.erase k := rfl
  rw [htouch, hrun, hcard]
  constructor
  · intro hk
    by_contra hlong
    rw [List.take_append_of_le_length (Nat.le_of_not_lt hlong)] at hk
    exact hfront (List.mem_of_mem_take hk)
  · intro hlt
    obtain ⟨n, hn⟩ := Nat.exists_eq_add_of_lt hlt
    rw [List.take_append, List.take_of_length_le hlt.le, hn]
    have hrest : front.length + n + 1 - front.length = n + 1 := by omega
    rw [hrest]
    simp

/-! ## Slots -/

section Slots
variable {ι : Type*} {key key' : ι → Option κ} {order : List ι} {i : ι}

/-- The keys in slots that are listed in the order of their use. -/
def keys (key : ι → Option κ) (order : List ι) : List κ := order.filterMap key

omit [DecidableEq κ] in
theorem mem_keys : k ∈ keys key order ↔ ∃ i ∈ order, key i = some k := List.mem_filterMap

omit [DecidableEq κ] in
theorem length_keys_le (key : ι → Option κ) (order : List ι) :
    (keys key order).length ≤ order.length := List.length_filterMap_le ..

omit [DecidableEq κ] in
theorem length_keys (h : ∀ i ∈ order, key i ≠ none) : (keys key order).length = order.length := by
  induction order with
  | nil => rfl
  | cons i order ih =>
    obtain ⟨k, hk⟩ := Option.ne_none_iff_exists'.mp (h i List.mem_cons_self)
    unfold keys at ih ⊢
    rw [List.filterMap_cons_some hk, List.length_cons, List.length_cons,
      ih fun j hj => h j (List.mem_cons_of_mem i hj)]

variable [DecidableEq ι]

omit [DecidableEq κ] in
/-- A slot without a key may be left out. -/
theorem keys_filter_none (h : key i = none) :
    keys key (order.filter (· != i)) = keys key order := by
  unfold keys
  rw [List.filterMap_filter]
  refine List.filterMap_congr fun j _ => ?_
  by_cases hj : j = i
  · simp [hj, h]
  · simp [hj]

/-- Without a slot its key is missing. -/
theorem keys_filter (hnodup : order.Nodup) (h : key i = some k)
    (hothers : ∀ j, j ≠ i → key j ≠ some k) :
    keys key (order.filter (· != i)) = (keys key order).erase k := by
  induction order with
  | nil => rfl
  | cons j order ih =>
    obtain ⟨hj, hnodup⟩ := List.nodup_cons.mp hnodup
    unfold keys at ih ⊢
    by_cases heq : j = i
    · subst heq
      have hkeep : (j :: order).filter (· != j) = order := by
        rw [List.filter_cons_of_neg (by simp)]
        exact List.filter_eq_self.mpr fun j' hj' => by
          simpa using fun heq : j' = j => hj (heq ▸ hj')
      rw [hkeep, List.filterMap_cons_some h, List.erase_cons_head]
    · rw [List.filter_cons_of_pos (by simpa using heq)]
      cases hk : key j with
      | none => rw [List.filterMap_cons_none hk, List.filterMap_cons_none hk, ih hnodup]
      | some k' =>
        have hne : k' ≠ k := fun hkk => hothers j heq (hkk ▸ hk)
        rw [List.filterMap_cons_some hk, List.filterMap_cons_some hk, ih hnodup,
          List.erase_cons_tail (by simpa using hne)]

omit [DecidableEq κ] in
theorem keys_congr (hsame : ∀ j, j ≠ i → key' j = key j) :
    keys key' (order.filter (· != i)) = keys key (order.filter (· != i)) :=
  List.filterMap_congr fun j hj => hsame j (by simpa using (List.mem_filter.mp hj).2)

/-- A slot is freed. -/
theorem keys_free (hnodup : order.Nodup) (h : key i = some k)
    (hothers : ∀ j, j ≠ i → key j ≠ some k) (hfree : key' i = none)
    (hsame : ∀ j, j ≠ i → key' j = key j) : keys key' order = (keys key order).erase k := by
  rw [← keys_filter_none hfree, keys_congr hsame, keys_filter hnodup h hothers]

/-- A key is used in the slot that holds it, or put in a free slot, or in the last one when
all are taken, and the slot comes to the front. -/
theorem keys_use (hsize : order.length = size) (hnodup : order.Nodup) (hi : i ∈ order)
    (hkey : key' i = some k)
    (hsame : ∀ j, j ≠ i → key' j = key j) (hnew : ∀ j, j ≠ i → key j ≠ some k)
    (hslot : key i = some k ∨ key i = none ∨
      (∀ j ∈ order, key j ≠ none) ∧ order.getLast? = some i) :
    keys key' (i :: order.filter (· != i)) = use size (keys key order) k := by
  subst hsize
  have hfront : keys key' (i :: order.filter (· != i)) =
      k :: keys key (order.filter (· != i)) := by
    rw [← keys_congr hsame]
    exact List.filterMap_cons_some hkey
  rw [hfront]
  unfold use touch
  by_cases hheld : key i = some k
  · have hk : k ∈ keys key order := mem_keys.mpr ⟨i, hi, hheld⟩
    have hlength := length_keys_le key order
    have hpos := List.length_pos_of_mem hk
    rw [keys_filter hnodup hheld hnew, List.take_of_length_le]
    rw [List.length_cons, List.length_erase_of_mem hk]
    omega
  have hmissing : k ∉ keys key order := by
    intro hk
    obtain ⟨j, _, hj⟩ := mem_keys.mp hk
    by_cases heq : j = i
    · exact hheld (heq ▸ hj)
    · exact hnew j heq hj
  rw [List.erase_of_not_mem hmissing]
  rcases hslot.resolve_left hheld with hfree | ⟨hfull, hlast⟩
  · have hshort : (keys key order).length < order.length := by
      rw [← keys_filter_none hfree]
      refine lt_of_le_of_lt (length_keys_le ..) ?_
      exact List.length_filter_lt_length_iff_exists.mpr ⟨i, hi, by simp⟩
    rw [keys_filter_none hfree, List.take_of_length_le]
    rw [List.length_cons]
    omega
  · -- the last slot's key is cut off
    have hsplit := List.dropLast_append_getLast? i hlast
    have hdrop := Recency.dropLast_eq_filter hnodup hlast
    have hlength : (keys key order.dropLast).length = order.length - 1 := by
      rw [length_keys fun j hj => hfull j (List.mem_of_mem_dropLast hj), List.length_dropLast]
    have hkeys : keys key order = keys key order.dropLast ++ keys key [i] := by
      unfold keys
      rw [← List.filterMap_append, hsplit]
    have hpos := List.length_pos_of_mem hi
    rw [← hdrop, hkeys, ← List.cons_append, List.take_append_of_le_length, List.take_of_length_le]
    · rw [List.length_cons, hlength]
      omega
    · rw [List.length_cons, hlength]
      omega

end Slots

end RiscvEmulator.Lib.LruStack
