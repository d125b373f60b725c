import RiscvEmulator.Ai.Operators
import Mathlib.Order.Bounds.Basic

/-! # Pooling

Where every window lies in the input and the output is apart from it, an output element is
the greatest element of its window, if one is above -10^9, or the mean of the window. -/
namespace RiscvEmulator.Ai
open Memory Lib.Scatter Lib.MixedRadix

/-! ## Loops over a window -/

/-- The body combines the result with the values one after the other, and reads the
elements of `g`. -/
def Folds (body : ℚ × ComputeUnit → ℚ × ComputeUnit) (op : ℚ → ℚ → ℚ) (values : Cells → List ℚ)
    (g : List (TensorDesc × Word)) : Prop :=
  ∀ result u, body (result, u) = ((values u.memory).foldl op result, u.log g)

theorem Folds.forLoop {count : BitVec 16} {op : ℚ → ℚ → ℚ}
    {body : Word → ℚ × ComputeUnit → ℚ × ComputeUnit} {values : Word → Cells → List ℚ}
    {g : Word → List (TensorDesc × Word)} (h : ∀ k, Folds (body k) op (values k) (g k)) :
    Folds (forLoop count body) op (fun m => (counters count).flatMap fun k => values k m)
      ((counters count).flatMap g) := by
  intro result u
  rw [forLoop_eq]
  generalize counters count = l
  induction l generalizing result u with
  | nil => simp [ComputeUnit.log_nil]
  | cons k l ih =>
    rw [List.foldl_cons, h k, ih]
    simp only [ComputeUnit.log_memory, ComputeUnit.log_log, List.flatMap_cons, List.foldl_append]

namespace PoolParams
variable (params : PoolParams) (maxPooling : Bool)

/-- What a tap looks at. -/
def inputIndex (p : Coordinate) (kh kw : Word) : Word :=
  params.input.getTensorIndex ⟨p.n, p.h * params.strideH.setWidth 32 + kh,
    p.w * params.strideW.setWidth 32 + kw, p.c⟩

def op : ℚ → ℚ → ℚ := if maxPooling then max else (· + ·)

def start : ℚ := if maxPooling then -1000000000 else 0

def window (p : Coordinate) (m : Cells) : List ℚ :=
  (counters params.poolH).flatMap fun kh => (counters params.poolW).flatMap fun kw =>
    [params.input.element m (params.inputIndex p kh kw).toNat]

/-- The result of a window as the loop computes it. -/
def value (p : Coordinate) (m : Cells) : ℚ :=
  let result := (params.window p m).foldl (op maxPooling) (start maxPooling)
  if maxPooling then result
  else result / (params.poolH.setWidth 32 * params.poolW.setWidth 32 : Word).toInt

def cell (p : Coordinate) : ℕ := params.output.cell (params.output.getTensorIndex p).toNat

/-- The output elements in the order in which they are written. -/
def keys : List Coordinate :=
  (counters (params.input.dims 0)).flatMap fun n =>
    (counters (params.output.dims 1)).flatMap fun h =>
      (counters (params.output.dims 2)).flatMap fun w =>
        (counters (params.output.dims 3)).map fun c => ⟨n, h, w, c⟩

end PoolParams

theorem poolElement_memory {params : PoolParams} (hout : params.output.dtype.toNat < 4)
    (maxPooling : Bool) (p : Coordinate) (u : ComputeUnit) :
    (poolElement params maxPooling p u).memory = Function.update u.memory (params.cell p)
      (coded params.output.dtype (params.value maxPooling p u.memory)) := by
  have htap : ∀ kh kw, Folds (poolTap params maxPooling p kh kw) (PoolParams.op maxPooling)
      (fun m => [params.input.element m (params.inputIndex p kh kw).toNat])
      [(params.input, params.inputIndex p kh kw)] := by
    intro kh kw result u
    unfold poolTap getElement PoolParams.op
    cases maxPooling <;> rfl
  have hloop : Folds (forLoop params.poolH fun kh => forLoop params.poolW fun kw =>
      poolTap params maxPooling p kh kw) (PoolParams.op maxPooling) (params.window p) _ :=
    Folds.forLoop fun kh => Folds.forLoop fun kw => htap kh kw
  unfold poolElement
  have hstart : (if maxPooling then -1000000000 else 0 : ℚ) = PoolParams.start maxPooling := rfl
  simp only [hstart, hloop _ u]
  exact setElement_memory hout _ _ _

theorem executeTpool_memory {params : PoolParams} (hout : params.output.dtype.toNat < 4)
    (maxPooling : Bool) (u : ComputeUnit) : (executeTpool params maxPooling u).memory =
      scatter params.cell (fun p m => coded params.output.dtype (params.value maxPooling p m))
        params.keys u.memory := by
  have hloops : (executeTpool params maxPooling u).memory =
      (params.keys.foldl (fun u p => poolElement params maxPooling p u) u).memory := by
    unfold executeTpool PoolParams.keys
    simp only [forLoop_eq, List.foldl_flatMap, List.foldl_map]
  rw [hloops]
  exact foldl_scatter ComputeUnit.memory _
    (fun p _ u => poolElement_memory hout maxPooling p u) u

/-! ## What is pooled -/

/-- The sum of what a loop goes through. -/
theorem sum_map_range (k : ℕ) (f : ℕ → ℚ) :
    ((List.range k).map f).sum = ∑ i ∈ Finset.range k, f i := by
  induction k with
  | zero => rfl
  | succ k ih => simp [List.range_succ, Finset.sum_range_succ, ih]

namespace PoolParams

/-- An element of a window. -/
def tap (params : PoolParams) (m : Cells) (p : Coordinate) (kh kw : ℕ) : ℚ :=
  params.input.element m (params.input.position p.n.toNat
    (p.h.toNat * params.strideH.toNat + kh) (p.w.toNat * params.strideW.toNat + kw) p.c.toNat)

/-- What the greatest element of a window is sought among. -/
def candidates (params : PoolParams) (m : Cells) (p : Coordinate) : Set ℚ :=
  {x | x = -1000000000 ∨
    ∃ kh < params.poolH.toNat, ∃ kw < params.poolW.toNat, x = params.tap m p kh kw}

def mean (params : PoolParams) (m : Cells) (p : Coordinate) : ℚ :=
  (∑ kh ∈ Finset.range params.poolH.toNat, ∑ kw ∈ Finset.range params.poolW.toNat,
    params.tap m p kh kw) / (params.poolH.toNat * params.poolW.toNat)

/-- The windows lie in the input, with its channels, and the tensors are apart. The size of
a window and the count of the output are `int`s. -/
structure Consistent (params : PoolParams) : Prop where
  input : params.input.Placed
  output : params.output.Placed
  apart : Separate params.output params.input
  batch : params.input.dims 0 = params.output.dims 0
  channels : params.input.dims 3 = params.output.dims 3
  poolH : 0 < params.poolH.toNat
  poolW : 0 < params.poolW.toNat
  size : params.poolH.toNat * params.poolW.toNat < 2 ^ 31
  count : params.output.elementCount < 2 ^ 31
  height : ∀ h < (params.output.dims 1).toNat,
    h * params.strideH.toNat + params.poolH.toNat ≤ (params.input.dims 1).toNat
  width : ∀ w < (params.output.dims 2).toNat,
    w * params.strideW.toNat + params.poolW.toNat ≤ (params.input.dims 2).toNat

variable {params : PoolParams} {p p' : Coordinate} {maxPooling : Bool}

namespace Consistent
variable (h : params.Consistent)
include h

theorem mem_keys : p ∈ params.keys ↔ params.output.Valid p := by
  unfold keys
  simp only [List.mem_flatMap, List.mem_map, mem_counters, h.batch]
  constructor
  · intro ⟨n, hn, y, hy, x, hx, c, hc, hp⟩
    subst hp
    exact ⟨hn, hy, hx, hc⟩
  · intro hp
    exact ⟨p.n, hp.batch, p.h, hp.height, p.w, hp.width, p.c, hp.channel, rfl⟩

/-- A tap looks at an element of the input. -/
theorem index_toNat (hp : params.output.Valid p) {kh kw : ℕ} (hkh : kh < params.poolH.toNat)
    (hkw : kw < params.poolW.toNat) :
    let position := params.input.position p.n.toNat (p.h.toNat * params.strideH.toNat + kh)
      (p.w.toNat * params.strideW.toNat + kw) p.c.toNat
    (params.inputIndex p (BitVec.ofNat 32 kh) (BitVec.ofNat 32 kw)).toNat = position ∧
      position < params.input.elementCount := by
  intro position
  have hheight := h.height _ hp.height
  have hwidth := h.width _ hp.width
  have hbatch := hp.batch
  have hchannel := hp.channel
  rw [← h.batch] at hbatch
  rw [← h.channels] at hchannel
  have hlt : position < params.input.elementCount :=
    TensorDesc.position_lt hbatch (by omega) (by omega) hchannel
  have hindex : params.inputIndex p (BitVec.ofNat 32 kh) (BitVec.ofNat 32 kw) =
      BitVec.ofNat 32 position := by
    rw [← TensorDesc.getTensorIndex_ofNat h.input.layout_ne]
    unfold inputIndex
    simp only [BitVec.ofNat_add, BitVec.ofNat_mul, BitVec.ofNat_toNat, BitVec.setWidth_eq]
  refine ⟨?_, hlt⟩
  rw [hindex, BitVec.toNat_ofNat]
  exact Nat.mod_eq_of_lt (Nat.lt_of_lt_of_le hlt h.input.count_le)

theorem mem_window (hp : params.output.Valid p) {m : Cells} {x : ℚ} :
    x ∈ params.window p m ↔
      ∃ kh < params.poolH.toNat, ∃ kw < params.poolW.toNat, x = params.tap m p kh kw := by
  unfold window counters
  simp only [List.mem_flatMap, List.mem_map, List.mem_range, List.mem_singleton,
    exists_exists_and_eq_and]
  refine exists_congr fun kh => and_congr_right fun hkh => exists_congr fun kw =>
    and_congr_right fun hkw => ?_
  rw [(h.index_toNat hp hkh hkw).1]
  rfl

theorem sum_window (hp : params.output.Valid p) (m : Cells) :
    (params.window p m).sum = ∑ kh ∈ Finset.range params.poolH.toNat,
      ∑ kw ∈ Finset.range params.poolW.toNat, params.tap m p kh kw := by
  unfold window counters
  simp only [List.flatMap_map, ← List.map_eq_flatMap]
  rw [List.flatMap_def, List.sum_flatten, List.map_map, sum_map_range]
  refine Finset.sum_congr rfl fun kh hkh => ?_
  show ((List.range params.poolW.toNat).map _).sum = _
  rw [sum_map_range]
  refine Finset.sum_congr rfl fun kw hkw => ?_
  rw [(h.index_toNat hp (Finset.mem_range.mp hkh) (Finset.mem_range.mp hkw)).1]
  rfl

end Consistent
end PoolParams

/-- The result of a loop that keeps the greater value. -/
theorem foldl_max_isGreatest (l : List ℚ) (start : ℚ) :
    IsGreatest {x | x = start ∨ x ∈ l} (l.foldl max start) := by
  induction l generalizing start with
  | nil => exact ⟨.inl rfl, fun x hx => (hx.resolve_right List.not_mem_nil).le⟩
  | cons y l ih =>
    obtain ⟨hmem, hle⟩ := ih (max start y)
    refine ⟨?_, fun x hx => ?_⟩
    · rcases hmem with hmax | hin
      · rcases max_choice start y with hs | hy
        · exact .inl (hmax.trans hs)
        · exact .inr (List.mem_cons.mpr (.inl (hmax.trans hy)))
      · exact .inr (List.mem_cons_of_mem y hin)
    · rcases hx with rfl | hx
      · exact (le_max_left _ y).trans (hle (.inl rfl))
      · rcases List.mem_cons.mp hx with rfl | hx
        · exact (le_max_right start x).trans (hle (.inl rfl))
        · exact hle (.inr hx)

/-! ## The output -/

namespace PoolParams.Consistent
variable {params : PoolParams} {p : Coordinate} (h : params.Consistent)
include h

theorem cell_eq (hp : p ∈ params.keys) :
    params.cell p = params.output.cell (params.output.nhwcIndex p) := by
  unfold cell
  rw [h.output.index_toNat (h.mem_keys.mp hp)]

theorem value_needs (maxPooling : Bool) (hp : p ∈ params.keys) :
    Needs (fun m => coded params.output.dtype (params.value maxPooling p m))
      {a | ∃ i < params.input.elementCount, a = params.input.cell i} := by
  intro m m' hm
  have hwindow : params.window p m = params.window p m' := by
    unfold window counters
    simp only [List.flatMap_map]
    refine List.flatMap_congr fun kh hkh => List.flatMap_congr fun kw hkw => ?_
    obtain ⟨hindex, hlt⟩ := h.index_toNat (h.mem_keys.mp hp) (List.mem_range.mp hkh)
      (List.mem_range.mp hkw)
    rw [hindex, element_congr (hm _ ⟨_, hlt, rfl⟩)]
  simp only [value, hwindow]

/-- Each output element is the value of its window. -/
theorem executeTpool_element (maxPooling : Bool) (u : ComputeUnit) (hp : params.output.Valid p) :
    params.output.element (executeTpool params maxPooling u).memory (params.output.nhwcIndex p) =
      stored params.output.dtype (params.value maxPooling p u.memory) := by
  have hk := h.mem_keys.mpr hp
  have hinj : ∀ p ∈ params.keys, ∀ p' ∈ params.keys, params.cell p = params.cell p' → p = p' := by
    intro p hp p' hp' heq
    rw [h.cell_eq hp, h.cell_eq hp'] at heq
    exact TensorDesc.nhwcIndex_inj (h.mem_keys.mp hp) (h.mem_keys.mp hp')
      (TensorDesc.cell_inj heq)
  have happart : ∀ p ∈ params.keys, ∀ p' ∈ params.keys,
      params.cell p' ∉ {a | ∃ i < params.input.elementCount, a = params.input.cell i} := by
    intro p hp p' hp' ⟨i, hi, heq⟩
    rw [h.cell_eq hp'] at heq
    exact h.apart.cell_ne (TensorDesc.nhwcIndex_lt (h.mem_keys.mp hp')) hi heq
  have hat := scatter_apart (m := u.memory) _ (fun p hp => h.value_needs maxPooling hp) hinj
    happart hk
  rw [h.cell_eq hk] at hat
  rw [executeTpool_memory h.output.known]
  exact element_of_coded hat

theorem executeTpool_frame (maxPooling : Bool) (u : ComputeUnit) {a : ℕ}
    (ha : ∀ p, params.output.Valid p → a ≠ params.output.cell (params.output.nhwcIndex p)) :
    (executeTpool params maxPooling u).memory a = u.memory a := by
  rw [executeTpool_memory h.output.known]
  refine scatter_frame fun p hp => ?_
  rw [h.cell_eq hp]
  exact ha p (h.mem_keys.mp hp)

theorem size_toInt :
    (params.poolH.setWidth 32 * params.poolW.setWidth 32 : Word).toInt =
      params.poolH.toNat * params.poolW.toNat := by
  have hsize := h.size
  have hword : (params.poolH.setWidth 32 * params.poolW.setWidth 32 : Word) =
      BitVec.ofNat 32 (params.poolH.toNat * params.poolW.toNat) := by
    rw [BitVec.ofNat_mul, BitVec.ofNat_toNat, BitVec.ofNat_toNat]
  rw [hword, BitVec.toInt_eq_toNat_of_lt]
  · rw [BitVec.toNat_ofNat, Nat.mod_eq_of_lt (by omega)]
    push_cast
    rfl
  · rw [BitVec.toNat_ofNat]
    omega

theorem value_isGreatest (hp : params.output.Valid p) (m : Cells) :
    IsGreatest (params.candidates m p) (params.value true p m) := by
  have hgreatest := foldl_max_isGreatest (params.window p m) (-1000000000)
  simp only [h.mem_window hp] at hgreatest
  exact hgreatest

theorem value_mean (hp : params.output.Valid p) (m : Cells) :
    params.value false p m = params.mean m p := by
  unfold PoolParams.mean
  rw [← h.sum_window hp, List.sum_eq_foldl]
  unfold PoolParams.value
  simp only [Bool.false_eq_true, if_false, h.size_toInt]
  push_cast
  rfl

end PoolParams.Consistent

/-- The maximum and the mean of every window, as the output's type rounds them where no cast
is undefined; and nothing but the output is stored. -/
theorem executeTpool_pools {params : PoolParams} (h : params.Consistent) (u : ComputeUnit) :
    ((∀ p, params.output.Valid p → ∀ x, IsGreatest (params.candidates u.memory p) x →
        Storable params.output.dtype x) →
      ∀ p, params.output.Valid p → ∃ greatest,
        IsGreatest (params.candidates u.memory p) greatest ∧
        params.output.element (executeTpool params true u).memory (params.output.nhwcIndex p) =
          rounded params.output.dtype greatest) ∧
    ((∀ p, params.output.Valid p → Storable params.output.dtype (params.mean u.memory p)) →
      ∀ p, params.output.Valid p →
        params.output.element (executeTpool params false u).memory (params.output.nhwcIndex p) =
          rounded params.output.dtype (params.mean u.memory p)) ∧
    ∀ maxPooling (t : TensorDesc) (j : ℕ),
      (∀ p, params.output.Valid p → params.output.Beside (params.output.nhwcIndex p) t j) →
      t.element (executeTpool params maxPooling u).memory j = t.element u.memory j := by
  refine ⟨fun hfits p hp => ⟨params.value true p u.memory, ?_, ?_⟩, fun hfits p hp => ?_,
    fun maxPooling t j hbeside => element_congr
      (h.executeTpool_frame maxPooling u fun p hp => (hbeside p hp).cell_ne.symm)⟩
  · exact h.value_isGreatest hp u.memory
  · rw [h.executeTpool_element true u hp]
    exact (hfits p hp _ (h.value_isGreatest hp u.memory)).stored_eq h.output.known
  · rw [h.executeTpool_element false u hp, h.value_mean hp]
    exact (hfits p hp).stored_eq h.output.known

/-- Windows of two by two over four by four unsigned bytes. -/
def smallPool : PoolParams where
  input := ⟨0, ![1, 4, 4, 1], 3, 1⟩
  output := ⟨64, ![1, 2, 2, 1], 3, 1⟩
  poolH := 2
  poolW := 2
  strideH := 2
  strideW := 2
  padH := 0
  padW := 0
  countIncludePad := false

/-- Numbers from 0 to 6 in turn. -/
def counted : ComputeUnit := ⟨{}, fun a => (a % 7 : ℕ), []⟩

/-- Every window holds numbers from 0 to 6. -/
theorem smallPool_tap (p : Coordinate) (kh kw : ℕ) :
    0 ≤ smallPool.tap counted.memory p kh kw ∧ smallPool.tap counted.memory p kh kw ≤ 6 := by
  have hlt : ∀ a : ℕ, (0 : ℚ) ≤ (a % 7 : ℕ) ∧ ((a % 7 : ℕ) : ℚ) ≤ 6 := fun a =>
    ⟨Nat.cast_nonneg _, by exact_mod_cast Nat.le_of_lt_succ (Nat.mod_lt a (by decide))⟩
  exact hlt _

theorem smallPool_candidates (p : Coordinate) {x : ℚ}
    (h : IsGreatest (smallPool.candidates counted.memory p) x) : Storable 3 x := by
  have hfirst := smallPool_tap p 0 0
  have hle := h.2 (.inr ⟨0, by decide, 0, by decide, rfl⟩)
  have hmost : x ≤ 6 := by
    rcases h.1 with hx | ⟨kh, _, kw, _, hx⟩
    · linarith
    · exact hx ▸ (smallPool_tap p kh kw).2
  exact storable_byte (hfirst.1.trans hle) (by linarith)

theorem smallPool_mean (p : Coordinate) : Storable 3 (smallPool.mean counted.memory p) := by
  have hsum : smallPool.mean counted.memory p =
      (∑ kh ∈ Finset.range 2, ∑ kw ∈ Finset.range 2, smallPool.tap counted.memory p kh kw) /
        ((2 : ℕ) * (2 : ℕ)) := rfl
  have h00 := smallPool_tap p 0 0
  have h01 := smallPool_tap p 0 1
  have h10 := smallPool_tap p 1 0
  have h11 := smallPool_tap p 1 1
  rw [hsum]
  simp only [Finset.sum_range_succ, Finset.sum_range_zero, zero_add]
  push_cast
  exact storable_byte (by linarith) (by linarith)

theorem executeTpool_pools_small :
    (∀ p, smallPool.output.Valid p → ∃ greatest,
      IsGreatest (smallPool.candidates counted.memory p) greatest ∧
      smallPool.output.element (executeTpool smallPool true counted).memory
        (smallPool.output.nhwcIndex p) = rounded 3 greatest) ∧
    (∀ p, smallPool.output.Valid p →
      smallPool.output.element (executeTpool smallPool false counted).memory
        (smallPool.output.nhwcIndex p) = rounded 3 (smallPool.mean counted.memory p)) ∧
    ∀ maxPooling (t : TensorDesc) (j : ℕ),
      (∀ p, smallPool.output.Valid p →
        smallPool.output.Beside (smallPool.output.nhwcIndex p) t j) →
      t.element (executeTpool smallPool maxPooling counted).memory j =
        t.element counted.memory j := by
  have hpools := @executeTpool_pools smallPool
    ⟨⟨by decide, rfl, by decide⟩, ⟨by decide, rfl, by decide⟩, .inr (by decide), rfl, rfl,
      by decide, by decide, by decide, by decide, by decide, by decide⟩ counted
  exact ⟨hpools.1 fun p _ x hx => smallPool_candidates p hx,
    hpools.2.1 fun p _ => smallPool_mean p, hpools.2.2⟩

end RiscvEmulator.Ai
