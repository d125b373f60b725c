import RiscvEmulator.Ai.Tensor
import Mathlib.Data.Rat.Floor
import Mathlib.Algebra.BigOperators.Intervals

/-! # The AI compute unit

`SimpleAIComputeUnit` over exact arithmetic: a `float` is a rational number and the
memory holds, at the address where an element begins, the number that the element's
bytes encode, so that tensors of different types may not share bytes. The unit also
lists the elements it has read, which the code does not; no value depends on the list,
and it shows which reads stay inside their tensors. -/
namespace RiscvEmulator.Ai
open Memory

abbrev Cells := ℕ → ℚ

structure ConvParams where
  input : TensorDesc
  output : TensorDesc
  weight : TensorDesc
  bias : TensorDesc
  kernelH : BitVec 16
  kernelW : BitVec 16
  strideH : BitVec 16
  strideW : BitVec 16
  padH : BitVec 16
  padW : BitVec 16
  dilationH : BitVec 16
  dilationW : BitVec 16
  groups : Byte

structure PerformanceStats where
  totalOps : BitVec 64 := 0
  totalTimeCycles : BitVec 64 := 0
  memoryAccesses : BitVec 64 := 0
  opsPerCycle : ℚ := 0

def PerformanceStats.update (s : PerformanceStats) (ops cycles memAccesses : BitVec 64) :
    PerformanceStats where
  totalOps := s.totalOps + ops
  totalTimeCycles := s.totalTimeCycles + cycles
  memoryAccesses := s.memoryAccesses + memAccesses
  opsPerCycle := (s.totalOps + ops).toNat / (s.totalTimeCycles + cycles).toNat

structure ComputeUnit where
  stats : PerformanceStats
  memory : Cells
  /-- The elements read so far. -/
  reads : List (TensorDesc × Word)

/-! ## Elements -/

/-- Where an element begins. -/
def TensorDesc.cell (t : TensorDesc) (idx : ℕ) : ℕ := t.addr.toNat + t.elementSize * idx

/-- `static_cast` to an integer drops the fraction. -/
def truncate (v : ℚ) : ℤ := if 0 ≤ v then ⌊v⌋ else ⌈v⌉

/-- `std::round` rounds halves away from zero. -/
def round (v : ℚ) : ℤ := if 0 ≤ v then ⌊v + 1 / 2⌋ else ⌈v - 1 / 2⌉

/-- The number that an element of the type is, from what its bytes encode. -/
def decode (dtype : Byte) (x : ℚ) : ℚ :=
  match dtype.toNat with
  | 0 => x
  | 1 => x / 1000
  | 2 => x
  | 3 => x
  | _ => 0

/-- What `set_element` leaves in the element's bytes; nothing for an unknown type. A number
that the integer type does not have wraps, where the cast is undefined. -/
def encode (dtype : Byte) (value : ℚ) : Option ℚ :=
  match dtype.toNat with
  | 0 => some value
  | 1 => some (truncate (value * 1000) % 2 ^ 16 : ℤ)
  | 2 => some (Int.bmod (round value) (2 ^ 8))
  | 3 => some (round value % 2 ^ 8 : ℤ)
  | _ => none

/-- The number an element of a tensor is. -/
def TensorDesc.element (t : TensorDesc) (m : Cells) (idx : ℕ) : ℚ := decode t.dtype (m (t.cell idx))

def getElement (t : TensorDesc) (idx : Word) (u : ComputeUnit) : ℚ × ComputeUnit :=
  (t.element u.memory idx.toNat, { u with reads := u.reads ++ [(t, idx)] })

def setElement (t : TensorDesc) (idx : Word) (value : ℚ) (u : ComputeUnit) : ComputeUnit :=
  match encode t.dtype value with
  | some x => { u with memory := Function.update u.memory (t.cell idx.toNat) x }
  | none => u

/-! ## Convolution -/

/-- `for (uint32_t k = 0; k < count; k++)`, for a count of 16 bits. -/
def forLoop {σ : Type} (count : BitVec 16) (body : Word → σ → σ) (s : σ) : σ :=
  (List.range count.toNat).foldl (fun s k => body (BitVec.ofNat 32 k) s) s

/-- One product of the sum, which is kept beside the unit. -/
def convTap (params : ConvParams) (p : Coordinate) (kh kw ic : Word) :
    ℚ × ComputeUnit → ℚ × ComputeUnit := fun (sum, u) =>
  let inIdx := params.input.getTensorIndex ⟨p.n, p.h + kh, p.w + kw, ic⟩
  let weightIdx := params.weight.getTensorIndex ⟨0, kh, kw, ic⟩
  let (inputVal, u) := getElement params.input inIdx u
  let (weightVal, u) := getElement params.weight weightIdx u
  (sum + inputVal * weightVal, u)

def convSum (params : ConvParams) (p : Coordinate) : ℚ × ComputeUnit → ℚ × ComputeUnit :=
  forLoop params.kernelH fun kh => forLoop params.kernelW fun kw =>
    forLoop (params.input.dims 3) fun ic => convTap params p kh kw ic

def addBias (params : ConvParams) (p : Coordinate) : ℚ × ComputeUnit → ℚ × ComputeUnit :=
  fun (sum, u) =>
    if params.bias.addr ≠ 0 then
      let (biasVal, u) := getElement params.bias p.c u
      (sum + biasVal, u)
    else (sum, u)

/-- The body of the four outer loops: one output element. -/
def convElement (params : ConvParams) (p : Coordinate) (u : ComputeUnit) : ComputeUnit :=
  let (sum, u) := addBias params p (convSum params p (0, u))
  setElement params.output (params.output.getTensorIndex p) sum u

def convLoops (params : ConvParams) : ComputeUnit → ComputeUnit :=
  forLoop (params.input.dims 0) fun n => forLoop (params.output.dims 1) fun h =>
    forLoop (params.output.dims 2) fun w => forLoop (params.output.dims 3) fun c =>
      convElement params ⟨n, h, w, c⟩

def convOps (params : ConvParams) : Word :=
  params.input.totalElements * params.kernelH.setWidth 32 * params.kernelW.setWidth 32
    * params.output.dim 3

def executeTconv (params : ConvParams) (u : ComputeUnit) : ComputeUnit :=
  let ops := convOps params
  let u := convLoops params u
  { u with stats := u.stats.update (ops.setWidth 64) 1000 ((ops * 2).setWidth 64) }

/-! ## What a loop adds and reads -/

def ComputeUnit.log (u : ComputeUnit) (rs : List (TensorDesc × Word)) : ComputeUnit :=
  { u with reads := u.reads ++ rs }

@[simp] theorem ComputeUnit.log_memory (u : ComputeUnit) (rs : List (TensorDesc × Word)) :
    (u.log rs).memory = u.memory := rfl

@[simp] theorem ComputeUnit.log_reads (u : ComputeUnit) (rs : List (TensorDesc × Word)) :
    (u.log rs).reads = u.reads ++ rs := rfl

theorem ComputeUnit.log_nil (u : ComputeUnit) : u.log [] = u := by
  simp only [log, List.append_nil]

theorem ComputeUnit.log_log (u : ComputeUnit) (rs rs' : List (TensorDesc × Word)) :
    (u.log rs).log rs' = u.log (rs ++ rs') := by
  simp only [log, List.append_assoc]

/-- The body adds `f` of the memory to the sum, reads the elements of `g`, and does
nothing else. -/
def Accumulates (body : ℚ × ComputeUnit → ℚ × ComputeUnit) (f : Cells → ℚ)
    (g : List (TensorDesc × Word)) : Prop :=
  ∀ sum u, body (sum, u) = (sum + f u.memory, u.log g)

theorem Accumulates.forLoop {count : BitVec 16} {body : Word → ℚ × ComputeUnit → ℚ × ComputeUnit}
    {f : Word → Cells → ℚ} {g : Word → List (TensorDesc × Word)}
    (h : ∀ k, Accumulates (body k) (f k) (g k)) :
    Accumulates (forLoop count body)
      (fun m => ∑ k ∈ Finset.range count.toNat, f (BitVec.ofNat 32 k) m)
      ((List.range count.toNat).flatMap fun k => g (BitVec.ofNat 32 k)) := by
  intro sum u
  unfold Ai.forLoop
  induction count.toNat with
  | zero => simp [ComputeUnit.log_nil]
  | succ k ih =>
    rw [List.range_succ, List.foldl_append, ih, List.flatMap_append]
    simp only [Finset.sum_range_succ, List.foldl_cons, List.foldl_nil, h (BitVec.ofNat 32 k) _ _,
      ComputeUnit.log_memory, ComputeUnit.log_log, add_assoc, List.flatMap_cons, List.flatMap_nil,
      List.append_nil]

section Body

variable (params : ConvParams) (p : Coordinate)

def inputIndex (kh kw ic : Word) : Word :=
  params.input.getTensorIndex ⟨p.n, p.h + kh, p.w + kw, ic⟩

def weightIndex (kh kw ic : Word) : Word := params.weight.getTensorIndex ⟨0, kh, kw, ic⟩

def tapValue (m : Cells) (kh kw ic : Word) : ℚ :=
  params.input.element m (inputIndex params p kh kw ic).toNat
    * params.weight.element m (weightIndex params kh kw ic).toNat

def tapReads (kh kw ic : Word) : List (TensorDesc × Word) :=
  [(params.input, inputIndex params p kh kw ic), (params.weight, weightIndex params kh kw ic)]

def biasValue (m : Cells) : ℚ :=
  if params.bias.addr ≠ 0 then params.bias.element m p.c.toNat else 0

def biasReads : List (TensorDesc × Word) :=
  if params.bias.addr ≠ 0 then [(params.bias, p.c)] else []

def sumValue (m : Cells) : ℚ :=
  ∑ kh ∈ Finset.range params.kernelH.toNat, ∑ kw ∈ Finset.range params.kernelW.toNat,
    ∑ ic ∈ Finset.range (params.input.dims 3).toNat,
      tapValue params p m (BitVec.ofNat 32 kh) (BitVec.ofNat 32 kw) (BitVec.ofNat 32 ic)

def sumReads : List (TensorDesc × Word) :=
  (List.range params.kernelH.toNat).flatMap fun kh =>
    (List.range params.kernelW.toNat).flatMap fun kw =>
      (List.range (params.input.dims 3).toNat).flatMap fun ic =>
        tapReads params p (BitVec.ofNat 32 kh) (BitVec.ofNat 32 kw) (BitVec.ofNat 32 ic)

/-- What the code computes for an output element. -/
def convValue (m : Cells) : ℚ := sumValue params p m + biasValue params p m

def convReads : List (TensorDesc × Word) := sumReads params p ++ biasReads params p

theorem convTap_accumulates (kh kw ic : Word) :
    Accumulates (convTap params p kh kw ic) (fun m => tapValue params p m kh kw ic)
      (tapReads params p kh kw ic) := by
  intro sum u
  simp only [convTap, getElement, tapValue, tapReads, inputIndex, weightIndex, ComputeUnit.log,
    List.append_assoc, List.cons_append, List.nil_append]

theorem convSum_accumulates :
    Accumulates (convSum params p) (sumValue params p) (sumReads params p) :=
  Accumulates.forLoop fun kh => Accumulates.forLoop fun kw => Accumulates.forLoop fun ic =>
    convTap_accumulates params p kh kw ic

theorem addBias_accumulates :
    Accumulates (addBias params p) (biasValue params p) (biasReads params p) := by
  intro sum u
  by_cases h : params.bias.addr = 0
  · simp only [addBias, biasValue, biasReads, h, ne_eq, not_true_eq_false, if_false, add_zero,
      ComputeUnit.log_nil]
  · simp only [addBias, biasValue, biasReads, h, ne_eq, not_false_eq_true, if_true, getElement,
      ComputeUnit.log]

/-- One output element: its value is computed from the memory, then stored. -/
theorem convElement_eq (u : ComputeUnit) :
    convElement params p u = setElement params.output (params.output.getTensorIndex p)
      (convValue params p u.memory) (u.log (convReads params p)) := by
  simp only [convElement, convSum_accumulates params p 0 u, addBias_accumulates params p _ _,
    convValue, convReads, ComputeUnit.log_memory, ComputeUnit.log_log, zero_add]

end Body

/-! ## The outer loops -/

def counters (count : BitVec 16) : List Word := (List.range count.toNat).map (BitVec.ofNat 32)

theorem forLoop_eq {σ : Type} (count : BitVec 16) (body : Word → σ → σ) (s : σ) :
    forLoop count body s = (counters count).foldl (fun s k => body k s) s := by
  rw [forLoop, counters, List.foldl_map]

/-- The output elements in the order in which they are written. -/
def outputs (params : ConvParams) : List Coordinate :=
  (counters (params.input.dims 0)).flatMap fun n =>
    (counters (params.output.dims 1)).flatMap fun h =>
      (counters (params.output.dims 2)).flatMap fun w =>
        (counters (params.output.dims 3)).map fun c => ⟨n, h, w, c⟩

theorem convLoops_eq (params : ConvParams) (u : ComputeUnit) :
    convLoops params u = (outputs params).foldl (fun u p => convElement params p u) u := by
  simp only [convLoops, forLoop_eq, outputs, List.foldl_flatMap, List.foldl_map]

theorem mem_counters {count : BitVec 16} {k : Word} :
    k ∈ counters count ↔ k.toNat < count.toNat := by
  simp only [counters, List.mem_map, List.mem_range]
  constructor
  · rintro ⟨j, hj, rfl⟩
    rw [BitVec.toNat_ofNat]
    exact Nat.lt_of_le_of_lt (Nat.mod_le _ _) hj
  · intro hk
    exact ⟨k.toNat, hk, by rw [BitVec.ofNat_toNat, BitVec.setWidth_eq]⟩

theorem mem_outputs {params : ConvParams} (hbatch : params.input.dims 0 = params.output.dims 0)
    {p : Coordinate} : p ∈ outputs params ↔ params.output.Valid p := by
  simp only [outputs, List.mem_flatMap, List.mem_map, mem_counters, hbatch]
  constructor
  · rintro ⟨n, hn, h, hh, w, hw, c, hc, rfl⟩
    exact ⟨hn, hh, hw, hc⟩
  · intro hp
    exact ⟨p.n, hp.batch, p.h, hp.height, p.w, hp.width, p.c, hp.channel, rfl⟩

/-- The number an element is after a value has been stored in it. -/
def stored (dtype : Byte) (value : ℚ) : ℚ := decode dtype ((encode dtype value).getD 0)

theorem setElement_element {t : TensorDesc} (ht : t.dtype.toNat < 4) (idx : Word) (value : ℚ)
    (u : ComputeUnit) :
    t.element (setElement t idx value u).memory idx.toNat = stored t.dtype value := by
  have hsome : (encode t.dtype value).isSome := by
    have hcases : t.dtype.toNat = 0 ∨ t.dtype.toNat = 1 ∨ t.dtype.toNat = 2 ∨
        t.dtype.toNat = 3 := by
      omega
    rcases hcases with h | h | h | h <;> simp only [encode, h, Option.isSome_some]
  obtain ⟨x, hx⟩ := Option.isSome_iff_exists.mp hsome
  simp only [setElement, hx, TensorDesc.element, Function.update_self, stored, Option.getD_some]

theorem setElement_frame {t : TensorDesc} {idx : Word} {a : ℕ} (ha : a ≠ t.cell idx.toNat)
    (value : ℚ) (u : ComputeUnit) : (setElement t idx value u).memory a = u.memory a := by
  unfold setElement
  split
  · exact Function.update_of_ne ha _ _
  · rfl

theorem setElement_reads (t : TensorDesc) (idx : Word) (value : ℚ) (u : ComputeUnit) :
    (setElement t idx value u).reads = u.reads := by
  unfold setElement
  split <;> rfl

/-- What is computed depends on the elements read only. -/
theorem convValue_congr {params : ConvParams} {p : Coordinate} {m m' : Cells}
    (h : ∀ r ∈ convReads params p, m (r.1.cell r.2.toNat) = m' (r.1.cell r.2.toNat)) :
    convValue params p m = convValue params p m' := by
  have hsum : sumValue params p m = sumValue params p m' := by
    refine Finset.sum_congr rfl fun kh hkh => Finset.sum_congr rfl fun kw hkw =>
      Finset.sum_congr rfl fun ic hic => ?_
    have hmem : ∀ r ∈ tapReads params p (BitVec.ofNat 32 kh) (BitVec.ofNat 32 kw)
        (BitVec.ofNat 32 ic), r ∈ convReads params p := fun r hr => by
      simp only [convReads, sumReads, List.mem_append, List.mem_flatMap]
      exact .inl ⟨kh, List.mem_range.mpr (Finset.mem_range.mp hkh), kw,
        List.mem_range.mpr (Finset.mem_range.mp hkw), ic,
        List.mem_range.mpr (Finset.mem_range.mp hic), hr⟩
    have hin := h _ (hmem _ List.mem_cons_self)
    have hweight := h _ (hmem _ (List.mem_cons_of_mem _ List.mem_cons_self))
    simp only [tapValue, TensorDesc.element, hin, hweight]
  have hbias : biasValue params p m = biasValue params p m' := by
    by_cases hb : params.bias.addr = 0
    · simp only [biasValue, hb, ne_eq, not_true_eq_false, if_false]
    · have hread : (params.bias, p.c) ∈ convReads params p := by
        rw [convReads, biasReads, if_pos hb]
        exact List.mem_append_right _ List.mem_cons_self
      have hcell := h _ hread
      simp only [biasValue, hb, ne_eq, not_false_eq_true, if_true, TensorDesc.element, hcell]
  simp only [convValue, hsum, hbias]

theorem convLoops_reads (params : ConvParams) (u : ComputeUnit) :
    (convLoops params u).reads = u.reads ++ (outputs params).flatMap (convReads params) := by
  rw [convLoops_eq]
  induction outputs params generalizing u with
  | nil => simp
  | cons p l ih =>
    rw [List.foldl_cons, ih, List.flatMap_cons, convElement_eq, setElement_reads,
      ComputeUnit.log_reads, List.append_assoc]

/-- The cell that an output element is stored in. -/
def outputCell (params : ConvParams) (p : Coordinate) : ℕ :=
  params.output.cell (params.output.getTensorIndex p).toNat

theorem foldl_frame (params : ConvParams) {l : List Coordinate} {a : ℕ}
    (ha : ∀ p ∈ l, a ≠ outputCell params p) (u : ComputeUnit) :
    (l.foldl (fun u p => convElement params p u) u).memory a = u.memory a := by
  induction l generalizing u with
  | nil => rfl
  | cons p l ih =>
    rw [List.foldl_cons, ih fun q hq => ha q (List.mem_cons_of_mem p hq), convElement_eq,
      setElement_frame (ha p List.mem_cons_self), ComputeUnit.log_memory]

/-- If no output element is stored in a cell that the convolution reads, and no two in
one cell, then every output element ends as computed from the memory at the start. -/
theorem convLoops_element {params : ConvParams} (hknown : params.output.dtype.toNat < 4)
    (hinj : ∀ p ∈ outputs params, ∀ q ∈ outputs params,
      outputCell params p = outputCell params q → p = q)
    (hapart : ∀ p ∈ outputs params, ∀ r ∈ convReads params p, ∀ q ∈ outputs params,
      r.1.cell r.2.toNat ≠ outputCell params q)
    (u : ComputeUnit) {p : Coordinate} (hp : p ∈ outputs params) :
    params.output.element (convLoops params u).memory (params.output.getTensorIndex p).toNat
      = stored params.output.dtype (convValue params p u.memory) := by
  rw [convLoops_eq]
  have hrun : ∀ l : List Coordinate, (∀ q ∈ l, q ∈ outputs params) → p ∈ l →
      params.output.element (l.foldl (fun u p => convElement params p u) u).memory
          (params.output.getTensorIndex p).toNat
        = stored params.output.dtype (convValue params p u.memory) := by
    intro l
    induction l using List.reverseRecOn with
    | nil => exact fun _ h => absurd h List.not_mem_nil
    | append_singleton l q ih =>
      intro hl hmem
      rw [List.foldl_append, List.foldl_cons, List.foldl_nil, convElement_eq]
      have hq : q ∈ outputs params := hl q (by simp)
      have hsub : ∀ q' ∈ l, q' ∈ outputs params := fun q' hq' => hl q' (by simp [hq'])
      by_cases hpq : p = q
      · -- The last element stored: what it reads is still as at the start.
        rw [hpq, setElement_element hknown]
        refine congrArg _ (convValue_congr fun r hr => ?_)
        exact foldl_frame params (fun q' hq' => hapart q hq r hr q' (hsub q' hq')) u
      · have hcell : outputCell params p ≠ outputCell params q := fun h => hpq (hinj p hp q hq h)
        have hpl : p ∈ l := by
          rcases List.mem_append.mp hmem with h | h
          · exact h
          · exact absurd (List.mem_singleton.mp h) hpq
        rw [← ih hsub hpl]
        exact congrArg (decode _) (setElement_frame hcell _ _)
  exact hrun _ (fun _ h => h) hp

theorem executeTconv_memory (params : ConvParams) (u : ComputeUnit) :
    (executeTconv params u).memory = (convLoops params u).memory := rfl

theorem executeTconv_reads (params : ConvParams) (u : ComputeUnit) :
    (executeTconv params u).reads = u.reads ++ (outputs params).flatMap (convReads params) :=
  convLoops_reads params u

end RiscvEmulator.Ai
