import Mathlib.Algebra.BigOperators.Field
import RiscvEmulator.Ai.Pooling

/-! # Softmax

Three passes over the channels of each position, in place: the greatest element, the
exponentials and their sum, the quotients. `exp` of the library is a parameter. -/
namespace RiscvEmulator.Ai
open Memory Lib.Scatter

/-! ## The passes -/

section
variable (exp : ℚ → ℚ) (tensor : TensorDesc) (p : Coordinate)

/-- The index of channel `c` at the position of `p`. -/
def channelIndex (c : Word) : Word := tensor.getTensorIndex { p with c := c }

def maxTap (c : Word) : ℚ × ComputeUnit → ℚ × ComputeUnit := fun (maxVal, u) =>
  let (val, u) := getElement tensor (channelIndex tensor p c) u
  (max maxVal val, u)

def expTap (maxVal : ℚ) (c : Word) : ℚ × ComputeUnit → ℚ × ComputeUnit := fun (sum, u) =>
  let (val, u) := getElement tensor (channelIndex tensor p c) u
  let expVal := exp (val - maxVal)
  (sum + expVal, setElement tensor (channelIndex tensor p c) expVal u)

def divideTap (sum : ℚ) (c : Word) (u : ComputeUnit) : ComputeUnit :=
  let (val, u) := getElement tensor (channelIndex tensor p c) u
  setElement tensor (channelIndex tensor p c) (val / sum) u

def softmaxRow (u : ComputeUnit) : ComputeUnit :=
  let (maxVal, u) := forLoop (tensor.dims 3) (maxTap tensor p) (-1000000000, u)
  let (sum, u) := forLoop (tensor.dims 3) (expTap exp tensor p maxVal) (0, u)
  forLoop (tensor.dims 3) (divideTap tensor p sum) u

def executeTsoftmax (u : ComputeUnit) : ComputeUnit :=
  let elements := tensor.totalElements
  let u := forLoop (tensor.dims 0) (fun i => forLoop (tensor.dims 1) fun h =>
    forLoop (tensor.dims 2) fun w => softmaxRow exp tensor ⟨i, h, w, 0⟩) u
  { u with stats := u.stats.update (elements.setWidth 64) 200 ((elements * 3).setWidth 64) }

end

/-! ## One position -/

section
variable (tensor : TensorDesc) (p : Coordinate)

def channelCell (c : Word) : ℕ := tensor.cell (channelIndex tensor p c).toNat

/-- The channels at a position. -/
def row (m : Cells) : List ℚ :=
  (counters (tensor.dims 3)).map fun c => tensor.element m (channelIndex tensor p c).toNat

/-- The greatest of them, if it is above -10^9. -/
def rowMax (m : Cells) : ℚ := (row tensor p m).foldl max (-1000000000)

variable {tensor p}

theorem maxPass (tensor : TensorDesc) (p : Coordinate) (u : ComputeUnit) :
    ∃ rs, forLoop (tensor.dims 3) (maxTap tensor p) (-1000000000, u) =
      (rowMax tensor p u.memory, u.log rs) := by
  have htap : ∀ c, Folds (maxTap tensor p c) max
      (fun m => [tensor.element m (channelIndex tensor p c).toNat])
      [(tensor, channelIndex tensor p c)] := fun c result u => rfl
  have hloop : Folds (forLoop (tensor.dims 3) (maxTap tensor p)) max _ _ := Folds.forLoop htap
  unfold rowMax row
  rw [List.map_eq_flatMap]
  exact ⟨_, hloop (-1000000000) u⟩

/-- The channels of a position are in cells of their own. -/
def Distinct (tensor : TensorDesc) (p : Coordinate) (l : List Word) : Prop :=
  l.Pairwise fun c c' => channelCell tensor p c ≠ channelCell tensor p c'

/-- The sum of the exponentials, which take the places of the elements. -/
theorem expPass (exp : ℚ → ℚ) (ht : tensor.dtype.toNat < 4) (maxVal : ℚ) {l : List Word}
    (hl : Distinct tensor p l) (sum : ℚ) (u : ComputeUnit) :
    let r := l.foldl (fun s c => expTap exp tensor p maxVal c s) (sum, u)
    r.1 = sum + (l.map fun c =>
      exp (tensor.element u.memory (channelIndex tensor p c).toNat - maxVal)).sum ∧
    r.2.memory = scatter (channelCell tensor p) (fun c m => coded tensor.dtype
      (exp (tensor.element m (channelIndex tensor p c).toNat - maxVal))) l u.memory := by
  induction l generalizing sum u with
  | nil => exact ⟨(add_zero sum).symm, rfl⟩
  | cons c l ih =>
    obtain ⟨hlater, hrest⟩ := List.pairwise_cons.mp hl
    intro r
    have hstep : expTap exp tensor p maxVal c (sum, u) =
        (sum + exp (tensor.element u.memory (channelIndex tensor p c).toNat - maxVal),
          (expTap exp tensor p maxVal c (sum, u)).2) := rfl
    have hmemory : (expTap exp tensor p maxVal c (sum, u)).2.memory =
        Function.update u.memory (channelCell tensor p c) (coded tensor.dtype
          (exp (tensor.element u.memory (channelIndex tensor p c).toNat - maxVal))) :=
      setElement_memory ht _ _ _
    have hfold : r = l.foldl (fun s c => expTap exp tensor p maxVal c s)
        (expTap exp tensor p maxVal c (sum, u)) := rfl
    rw [hstep] at hfold
    obtain ⟨hsum, hscatter⟩ := ih hrest
      (sum + exp (tensor.element u.memory (channelIndex tensor p c).toNat - maxVal))
      (expTap exp tensor p maxVal c (sum, u)).2
    rw [← hfold] at hsum hscatter
    refine ⟨?_, ?_⟩
    · -- the channels still to come are as they were
      rw [hsum, List.map_cons, List.sum_cons, add_assoc]
      congr 2
      refine congrArg List.sum (List.map_congr_left fun c' hc' => ?_)
      rw [hmemory, element_congr (Function.update_of_ne (hlater c' hc').symm ..)]
    · rw [hscatter, hmemory]
      rfl

theorem dividePass (ht : tensor.dtype.toNat < 4) (sum : ℚ) (u : ComputeUnit) :
    (forLoop (tensor.dims 3) (divideTap tensor p sum) u).memory =
      scatter (channelCell tensor p) (fun c m => coded tensor.dtype
        (tensor.element m (channelIndex tensor p c).toNat / sum)) (counters (tensor.dims 3))
        u.memory := by
  rw [forLoop_eq]
  exact foldl_scatter ComputeUnit.memory _ (fun c _ u => setElement_memory ht _ _ _) u

/-- The sum that the quotients have below. -/
def rowSum (exp : ℚ → ℚ) (tensor : TensorDesc) (p : Coordinate) (m : Cells) : ℚ :=
  ((row tensor p m).map fun x => exp (x - rowMax tensor p m)).sum

theorem unhindered_of_distinct {l : List Word} (hl : Distinct tensor p l) :
    Unhindered (channelCell tensor p) (fun c => {channelCell tensor p c}) l :=
  hl.imp fun hne => ⟨hne, hne⟩

/-- A channel after the three passes. -/
theorem softmaxRow_channel (exp : ℚ → ℚ) (ht : tensor.dtype.toNat < 4)
    (hl : Distinct tensor p (counters (tensor.dims 3))) (u : ComputeUnit) {c : Word}
    (hc : c ∈ counters (tensor.dims 3)) :
    (softmaxRow exp tensor p u).memory (channelCell tensor p c) = coded tensor.dtype
      (stored tensor.dtype (exp (tensor.element u.memory (channelIndex tensor p c).toNat -
        rowMax tensor p u.memory)) / rowSum exp tensor p u.memory) := by
  obtain ⟨rs, hmax⟩ := maxPass tensor p u
  obtain ⟨hsum, hexp⟩ := expPass exp ht (rowMax tensor p u.memory) hl 0 (u.log rs)
  have hrow : (0 : ℚ) + ((counters (tensor.dims 3)).map fun c =>
      exp (tensor.element (u.log rs).memory (channelIndex tensor p c).toNat -
        rowMax tensor p u.memory)).sum = rowSum exp tensor p u.memory := by
    unfold rowSum row
    rw [zero_add, List.map_map]
    rfl
  rw [hrow] at hsum
  unfold softmaxRow
  simp only [hmax]
  rw [dividePass ht]
  simp only [forLoop_eq, hsum, hexp]
  have hneeds : ∀ (f : ℚ → ℚ), ∀ c ∈ counters (tensor.dims 3),
      Needs (fun m => coded tensor.dtype (f (tensor.element m (channelIndex tensor p c).toNat)))
        {channelCell tensor p c} := by
    intro f c _ m m' h
    simp only [element_congr (h _ rfl)]
  have hfree := unhindered_of_distinct hl
  rw [scatter_at _ (hneeds fun v => v / rowSum exp tensor p u.memory) hfree hc,
    element_of_coded (scatter_at _ (hneeds fun v => exp (v - rowMax tensor p u.memory)) hfree hc)]
  rfl

theorem softmaxRow_frame (exp : ℚ → ℚ) (ht : tensor.dtype.toNat < 4)
    (hl : Distinct tensor p (counters (tensor.dims 3))) (u : ComputeUnit) {a : ℕ}
    (ha : ∀ c ∈ counters (tensor.dims 3), a ≠ channelCell tensor p c) :
    (softmaxRow exp tensor p u).memory a = u.memory a := by
  obtain ⟨rs, hmax⟩ := maxPass tensor p u
  obtain ⟨-, hexp⟩ := expPass exp ht (rowMax tensor p u.memory) hl 0 (u.log rs)
  unfold softmaxRow
  simp only [hmax]
  rw [dividePass ht, scatter_frame ha]
  simp only [forLoop_eq, hexp]
  rw [scatter_frame ha]
  rfl

end

/-! ## All positions -/

section
variable {tensor : TensorDesc} {p p' : Coordinate}

/-- The positions in the order of the loops. -/
def positions (tensor : TensorDesc) : List Coordinate :=
  (counters (tensor.dims 0)).flatMap fun i => (counters (tensor.dims 1)).flatMap fun h =>
    (counters (tensor.dims 2)).map fun w => ⟨i, h, w, 0⟩

theorem executeTsoftmax_memory (exp : ℚ → ℚ) (tensor : TensorDesc) (u : ComputeUnit) :
    (executeTsoftmax exp tensor u).memory =
      ((positions tensor).foldl (fun u p => softmaxRow exp tensor p u) u).memory := by
  unfold executeTsoftmax positions
  simp only [forLoop_eq, List.foldl_flatMap, List.foldl_map]

theorem counters_nodup (count : BitVec 16) : (counters count).Nodup := by
  refine List.nodup_range.map_on fun i hi j hj h => ?_
  rw [← counter_toNat (List.mem_range.mp hi), ← counter_toNat (List.mem_range.mp hj), h]

theorem mem_positions : p ∈ positions tensor ↔ p.n.toNat < (tensor.dims 0).toNat ∧
    p.h.toNat < (tensor.dims 1).toNat ∧ p.w.toNat < (tensor.dims 2).toNat ∧ p.c = 0 := by
  unfold positions
  simp only [List.mem_flatMap, List.mem_map, mem_counters]
  constructor
  · intro ⟨i, hi, y, hy, x, hx, hp⟩
    subst hp
    exact ⟨hi, hy, hx, rfl⟩
  · intro ⟨hi, hy, hx, hc⟩
    exact ⟨p.n, hi, p.h, hy, p.w, hx, by rw [← hc]⟩

theorem positions_nodup (tensor : TensorDesc) : (positions tensor).Nodup := by
  unfold positions
  refine List.nodup_flatMap.mpr ⟨fun i _ => List.nodup_flatMap.mpr ⟨fun y _ => ?_, ?_⟩, ?_⟩
  · exact (counters_nodup _).map fun x x' h => (Coordinate.mk.inj h).2.2.1
  · refine (counters_nodup _).imp fun hne q hq hq' => ?_
    obtain ⟨x, _, rfl⟩ := List.mem_map.mp hq
    obtain ⟨x', _, h⟩ := List.mem_map.mp hq'
    exact hne (Coordinate.mk.inj h).2.1.symm
  · refine (counters_nodup _).imp fun hne q hq hq' => ?_
    simp only [List.mem_flatMap, List.mem_map] at hq hq'
    obtain ⟨y, _, x, _, rfl⟩ := hq
    obtain ⟨y', _, x', _, h⟩ := hq'
    exact hne (Coordinate.mk.inj h).1.symm

/-- The cells of a position. -/
def channelCells (tensor : TensorDesc) (p : Coordinate) : Set ℕ :=
  {a | ∃ c ∈ counters (tensor.dims 3), a = channelCell tensor p c}

theorem valid_channel (hp : p ∈ positions tensor) {c : Word} (hc : c ∈ counters (tensor.dims 3)) :
    tensor.Valid { p with c := c } := by
  obtain ⟨hn, hh, hw, _⟩ := mem_positions.mp hp
  exact ⟨hn, hh, hw, mem_counters.mp hc⟩

/-- A cell belongs to one channel of one position. -/
theorem channelCell_inj (ht : tensor.Placed) (hp : p ∈ positions tensor)
    (hp' : p' ∈ positions tensor) {c c' : Word} (hc : c ∈ counters (tensor.dims 3))
    (hc' : c' ∈ counters (tensor.dims 3))
    (h : channelCell tensor p c = channelCell tensor p' c') : p = p' ∧ c = c' := by
  have hv := valid_channel hp hc
  have hv' := valid_channel hp' hc'
  unfold channelCell channelIndex at h
  rw [ht.index_toNat hv, ht.index_toNat hv'] at h
  have heq := TensorDesc.nhwcIndex_inj hv hv' (TensorDesc.cell_inj h)
  obtain ⟨hn, hh, hw, hcc⟩ := Coordinate.mk.inj heq
  have hzero := (mem_positions.mp hp).2.2.2
  have hzero' := (mem_positions.mp hp').2.2.2
  refine ⟨?_, hcc⟩
  cases p
  cases p'
  simp only [Coordinate.mk.injEq]
  exact ⟨hn, hh, hw, hzero.trans hzero'.symm⟩

theorem channels_distinct (ht : tensor.Placed) (hp : p ∈ positions tensor) :
    Distinct tensor p (counters (tensor.dims 3)) := by
  refine List.Pairwise.imp_of_mem (fun hc hc' hne h => ?_) (counters_nodup (tensor.dims 3))
  exact hne (channelCell_inj ht hp hp hc hc' h).2

/-- What is left at a position depends on what is found there. -/
theorem softmaxRow_confined (exp : ℚ → ℚ) (ht : tensor.Placed) :
    Confined ComputeUnit.memory (fun p u => softmaxRow exp tensor p u) (channelCells tensor)
      (positions tensor) := by
  refine ⟨fun p hp u a ha => ?_, fun p hp u u' h a ⟨c, hc, ha⟩ => ?_⟩
  · exact softmaxRow_frame exp ht.known (channels_distinct ht hp) u
      fun c hc heq => ha ⟨c, hc, heq⟩
  · have helement : ∀ c ∈ counters (tensor.dims 3),
        tensor.element u.memory (channelIndex tensor p c).toNat =
          tensor.element u'.memory (channelIndex tensor p c).toNat :=
      fun c hc => element_congr (h _ ⟨c, hc, rfl⟩)
    have hrow : row tensor p u.memory = row tensor p u'.memory := List.map_congr_left helement
    rw [ha, softmaxRow_channel exp ht.known (channels_distinct ht hp) u hc,
      softmaxRow_channel exp ht.known (channels_distinct ht hp) u' hc, helement c hc]
    unfold rowSum rowMax
    rw [hrow]

/-- A channel after the operation. -/
theorem executeTsoftmax_element (exp : ℚ → ℚ) (ht : tensor.Placed) (u : ComputeUnit)
    (hp : p ∈ positions tensor) {c : Word} (hc : c ∈ counters (tensor.dims 3)) :
    tensor.element (executeTsoftmax exp tensor u).memory (channelIndex tensor p c).toNat =
      stored tensor.dtype (stored tensor.dtype
        (exp (tensor.element u.memory (channelIndex tensor p c).toNat -
          rowMax tensor p u.memory)) / rowSum exp tensor p u.memory) := by
  have hdisjoint : (positions tensor).Pairwise fun p p' =>
      Disjoint (channelCells tensor p) (channelCells tensor p') := by
    refine List.Pairwise.imp_of_mem (fun hp hp' hne => ?_) (positions_nodup tensor)
    refine Set.disjoint_left.mpr fun a ⟨c, hc, ha⟩ ⟨c', hc', ha'⟩ => ?_
    exact hne (channelCell_inj ht hp hp' hc hc' (ha.symm.trans ha')).1
  have hat := (softmaxRow_confined exp ht).foldl_at hdisjoint hp ⟨c, hc, rfl⟩ u
  rw [softmaxRow_channel exp ht.known (channels_distinct ht hp) u hc] at hat
  rw [executeTsoftmax_memory]
  exact element_of_coded hat

theorem executeTsoftmax_frame (exp : ℚ → ℚ) (ht : tensor.Placed) (u : ComputeUnit) {a : ℕ}
    (ha : ∀ i < tensor.elementCount, a ≠ tensor.cell i) :
    (executeTsoftmax exp tensor u).memory a = u.memory a := by
  rw [executeTsoftmax_memory]
  refine (softmaxRow_confined exp ht).foldl_frame (fun p hp ⟨c, hc, heq⟩ => ?_) u
  have hv := valid_channel hp hc
  unfold channelCell channelIndex at heq
  rw [ht.index_toNat hv] at heq
  exact ha _ (TensorDesc.nhwcIndex_lt hv) heq

end

/-! ## Softmax -/

section
variable {tensor : TensorDesc} {n h w : ℕ}

/-- The position with these coordinates. -/
def positionOf (n h w : ℕ) : Coordinate :=
  ⟨BitVec.ofNat 32 n, BitVec.ofNat 32 h, BitVec.ofNat 32 w, 0⟩

theorem positionOf_mem (hn : n < (tensor.dims 0).toNat) (hh : h < (tensor.dims 1).toNat)
    (hw : w < (tensor.dims 2).toNat) : positionOf n h w ∈ positions tensor := by
  refine mem_positions.mpr ⟨?_, ?_, ?_, rfl⟩
  · exact (counter_toNat hn).trans_lt hn
  · exact (counter_toNat hh).trans_lt hh
  · exact (counter_toNat hw).trans_lt hw

theorem counter_mem {count : BitVec 16} {c : ℕ} (hc : c < count.toNat) :
    BitVec.ofNat 32 c ∈ counters count :=
  mem_counters.mpr ((counter_toNat hc).trans_lt hc)

theorem channelIndex_toNat (ht : tensor.Placed) (hn : n < (tensor.dims 0).toNat)
    (hh : h < (tensor.dims 1).toNat) (hw : w < (tensor.dims 2).toNat) {c : ℕ}
    (hc : c < (tensor.dims 3).toNat) :
    (channelIndex tensor (positionOf n h w) (BitVec.ofNat 32 c)).toNat =
      tensor.position n h w c := by
  have hlt := TensorDesc.position_lt hn hh hw hc
  have hindex : channelIndex tensor (positionOf n h w) (BitVec.ofNat 32 c) =
      BitVec.ofNat 32 (tensor.position n h w c) :=
    TensorDesc.getTensorIndex_ofNat ht.layout_ne n h w c
  rw [hindex, BitVec.toNat_ofNat]
  exact Nat.mod_eq_of_lt (Nat.lt_of_lt_of_le hlt ht.count_le)

theorem row_eq (ht : tensor.Placed) (hn : n < (tensor.dims 0).toNat)
    (hh : h < (tensor.dims 1).toNat) (hw : w < (tensor.dims 2).toNat) (m : Cells) :
    row tensor (positionOf n h w) m =
      (List.range (tensor.dims 3).toNat).map fun c =>
        tensor.element m (tensor.position n h w c) := by
  unfold row counters
  rw [List.map_map]
  refine List.map_congr_left fun c hc => ?_
  show tensor.element m (channelIndex tensor _ _).toNat = _
  rw [channelIndex_toNat ht hn hh hw (List.mem_range.mp hc)]

/-- `float` keeps every number. -/
theorem stored_float (v : ℚ) : stored 0 v = v := rfl

/-- In a tensor of `float` with the channels last, the channels of every position become
positive numbers that add up to 1, in the ratio of the exponentials of their differences to
the greatest. -/
theorem executeTsoftmax_softmax {exp : ℚ → ℚ} (hexp : ∀ x, 0 < exp x) (ht : tensor.Placed)
    (hfloat : tensor.dtype = 0) (u : ComputeUnit) :
    (∀ n < (tensor.dims 0).toNat, ∀ h < (tensor.dims 1).toNat, ∀ w < (tensor.dims 2).toNat,
      let x c := tensor.element u.memory (tensor.position n h w c)
      let y c := tensor.element (executeTsoftmax exp tensor u).memory (tensor.position n h w c)
      (∃ greatest,
        IsGreatest {v | v = -1000000000 ∨ ∃ c < (tensor.dims 3).toNat, v = x c} greatest ∧
        ∀ c < (tensor.dims 3).toNat, y c = exp (x c - greatest) /
          ∑ c' ∈ Finset.range (tensor.dims 3).toNat, exp (x c' - greatest)) ∧
      (∀ c < (tensor.dims 3).toNat, 0 < y c) ∧
      (0 < (tensor.dims 3).toNat → ∑ c ∈ Finset.range (tensor.dims 3).toNat, y c = 1)) ∧
    ∀ a, (∀ i < tensor.elementCount, a ≠ tensor.cell i) →
      (executeTsoftmax exp tensor u).memory a = u.memory a := by
  refine ⟨fun n hn h hh w hw => ?_, fun a => executeTsoftmax_frame exp ht u⟩
  intro x y
  have hrow := row_eq ht hn hh hw u.memory
  have hgreatest : IsGreatest {v | v = -1000000000 ∨ ∃ c < (tensor.dims 3).toNat, v = x c}
      (rowMax tensor (positionOf n h w) u.memory) := by
    have h := foldl_max_isGreatest (row tensor (positionOf n h w) u.memory) (-1000000000)
    simp only [hrow, List.mem_map, List.mem_range] at h
    unfold rowMax
    rw [hrow]
    simpa only [eq_comm, x] using h
  have hsum : rowSum exp tensor (positionOf n h w) u.memory =
      ∑ c ∈ Finset.range (tensor.dims 3).toNat,
        exp (x c - rowMax tensor (positionOf n h w) u.memory) := by
    unfold rowSum
    rw [hrow, List.map_map]
    exact sum_map_range _ _
  have hy : ∀ c < (tensor.dims 3).toNat, y c =
      exp (x c - rowMax tensor (positionOf n h w) u.memory) /
        rowSum exp tensor (positionOf n h w) u.memory := by
    intro c hc
    have helement := executeTsoftmax_element exp ht u (positionOf_mem hn hh hw) (counter_mem hc)
    rw [channelIndex_toNat ht hn hh hw hc, hfloat, stored_float, stored_float] at helement
    exact helement
  rw [hsum] at hy
  generalize rowMax tensor (positionOf n h w) u.memory = greatest at hy hgreatest
  have hpos : ∀ c < (tensor.dims 3).toNat,
      0 < ∑ c' ∈ Finset.range (tensor.dims 3).toNat, exp (x c' - greatest) := fun c hc =>
    Finset.sum_pos (fun c' _ => hexp _) ⟨c, Finset.mem_range.mpr hc⟩
  refine ⟨⟨greatest, hgreatest, hy⟩, fun c hc => ?_, fun hchannels => ?_⟩
  · rw [hy c hc]
    exact div_pos (hexp _) (hpos c hc)
  · rw [Finset.sum_congr rfl fun c hc => hy c (Finset.mem_range.mp hc), ← Finset.sum_div]
    exact div_self (hpos 0 hchannels).ne'

/-- A stand-in for the exponential function: positive, growing, and 1 at 0. -/
def gentle (x : ℚ) : ℚ := if x ≤ 0 then 1 / (1 - x) else 1 + x

theorem gentle_pos (x : ℚ) : 0 < gentle x := by
  unfold gentle
  split
  · exact div_pos one_pos (by linarith)
  · linarith

/-- Over zeros. -/
def blank : ComputeUnit := ⟨{}, fun _ => 0, []⟩

/-- Two positions with three channels. -/
def smallTensor : TensorDesc := ⟨0, ![1, 1, 2, 3], 0, 1⟩

theorem executeTsoftmax_softmax_blank :
    (∀ n < 1, ∀ h < 1, ∀ w < 2,
      let x c := smallTensor.element blank.memory (smallTensor.position n h w c)
      let y c := smallTensor.element (executeTsoftmax gentle smallTensor blank).memory
        (smallTensor.position n h w c)
      (∃ greatest, IsGreatest {v | v = -1000000000 ∨ ∃ c < 3, v = x c} greatest ∧
        ∀ c < 3, y c = gentle (x c - greatest) /
          ∑ c' ∈ Finset.range 3, gentle (x c' - greatest)) ∧
      (∀ c < 3, 0 < y c) ∧ (0 < 3 → ∑ c ∈ Finset.range 3, y c = 1)) ∧
    ∀ a, (∀ i < smallTensor.elementCount, a ≠ smallTensor.cell i) →
      (executeTsoftmax gentle smallTensor blank).memory a = blank.memory a :=
  @executeTsoftmax_softmax smallTensor gentle gentle_pos ⟨by decide, rfl, by decide⟩ rfl blank

end
end RiscvEmulator.Ai
