import Mathlib.LinearAlgebra.Matrix.Notation
import RiscvEmulator.Ai.Convolution
import RiscvEmulator.Lib.Scatter

/-! # Matrix products, elementwise operations and pooling

The other operations of `SimpleAIComputeUnit`, over exact arithmetic as the
convolution; `exp` and `sqrt` of the library are parameters. Each is a loop that
stores one element after the other, so an operation may work in place where an
element is not needed any more when it is stored. -/
namespace RiscvEmulator.Ai
open Memory Lib.Scatter Lib.MixedRadix

/-! ## The operations -/

/-- `for (uint32_t k = 0; k < count; k++)`. -/
def forWords {σ : Type} (count : Word) (body : Word → σ → σ) (s : σ) : σ :=
  (List.range count.toNat).foldl (fun s k => body (BitVec.ofNat 32 k) s) s

structure MatMulParams where
  A : TensorDesc
  B : TensorDesc
  C : TensorDesc
  transA : Bool
  transB : Bool
  accumulatorDtype : Byte

section
variable (params : MatMulParams)

def mulTap (i j p : Word) : ℚ × ComputeUnit → ℚ × ComputeUnit := fun (sum, u) =>
  let aIdx := i * params.A.dim 1 + p
  let bIdx := p * params.B.dim 1 + j
  let (aVal, u) := getElement params.A aIdx u
  let (bVal, u) := getElement params.B bIdx u
  (sum + aVal * bVal, u)

def mulElement (i j : Word) (u : ComputeUnit) : ComputeUnit :=
  let (sum, u) := forLoop (params.A.dims 1) (mulTap params i j) (0, u)
  setElement params.C (i * params.B.dim 1 + j) sum u

/-- The count of operations is an `int`. -/
def executeTmul (u : ComputeUnit) : ComputeUnit :=
  let ops := params.A.dim 0 * params.B.dim 1 * params.A.dim 1
  let u := forLoop (params.A.dims 0) (fun i => forLoop (params.B.dims 1) fun j =>
    mulElement params i j) u
  { u with stats := u.stats.update (ops.signExtend 64) 500 ((ops * 3).signExtend 64) }

end

def addElement (dst src1 src2 : TensorDesc) (i : Word) (u : ComputeUnit) : ComputeUnit :=
  let (val1, u) := getElement src1 i u
  let (val2, u) := getElement src2 i u
  setElement dst i (val1 + val2) u

def executeTadd (dst src1 src2 : TensorDesc) (u : ComputeUnit) : ComputeUnit :=
  let elements := dst.totalElements
  let u := forWords elements (addElement dst src1 src2) u
  { u with stats := u.stats.update (elements.setWidth 64) 100 ((elements * 3).setWidth 64) }

/-- The loop of the operations that apply a function to each element. -/
def mapElements (tensor : TensorDesc) (f : ℚ → ℚ) (cycles : BitVec 64) (u : ComputeUnit) :
    ComputeUnit :=
  let elements := tensor.totalElements
  let u := forWords elements (fun i u =>
    let (val, u) := getElement tensor i u
    setElement tensor i (f val) u) u
  { u with stats := u.stats.update (elements.setWidth 64) cycles ((elements * 2).setWidth 64) }

def executeTrelu (tensor : TensorDesc) : ComputeUnit → ComputeUnit :=
  mapElements tensor (fun val => max 0 val) 50

def executeTsigmoid (exp : ℚ → ℚ) (tensor : TensorDesc) : ComputeUnit → ComputeUnit :=
  mapElements tensor (fun val => 1 / (1 + exp (-val))) 100

def executeTnorm (sqrt : ℚ → ℚ) (tensor : TensorDesc) (eps : ℚ) : ComputeUnit → ComputeUnit :=
  mapElements tensor (fun val => (val - 1 / 2) / sqrt (1 / 4 + eps)) 150

structure PoolParams where
  input : TensorDesc
  output : TensorDesc
  poolH : BitVec 16
  poolW : BitVec 16
  strideH : BitVec 16
  strideW : BitVec 16
  padH : BitVec 16
  padW : BitVec 16
  countIncludePad : Bool

section
variable (params : PoolParams) (maxPooling : Bool)

def poolTap (p : Coordinate) (kh kw : Word) : ℚ × ComputeUnit → ℚ × ComputeUnit :=
  fun (result, u) =>
    let inIdx := params.input.getTensorIndex ⟨p.n, p.h * params.strideH.setWidth 32 + kh,
      p.w * params.strideW.setWidth 32 + kw, p.c⟩
    let (val, u) := getElement params.input inIdx u
    if maxPooling then (max result val, u) else (result + val, u)

/-- The size of the window is an `int`. -/
def poolElement (p : Coordinate) (u : ComputeUnit) : ComputeUnit :=
  let (result, u) := forLoop params.poolH (fun kh => forLoop params.poolW fun kw =>
    poolTap params maxPooling p kh kw) (if maxPooling then -1000000000 else 0, u)
  let result := if maxPooling then result
    else result / (params.poolH.setWidth 32 * params.poolW.setWidth 32 : Word).toInt
  setElement params.output (params.output.getTensorIndex p) result u

def executeTpool (u : ComputeUnit) : ComputeUnit :=
  let ops := params.output.totalElements
  let u := forLoop (params.input.dims 0) (fun n => forLoop (params.output.dims 1) fun h =>
    forLoop (params.output.dims 2) fun w => forLoop (params.output.dims 3) fun c =>
      poolElement params maxPooling ⟨n, h, w, c⟩) u
  { u with stats := u.stats.update (ops.setWidth 64) 200 ((ops * 4).setWidth 64) }

end

/-! ## Stores -/

/-- What a known type keeps of a value. -/
def coded (dtype : Byte) (value : ℚ) : ℚ := (encode dtype value).getD 0

theorem setElement_memory {t : TensorDesc} (ht : t.dtype.toNat < 4) (idx : Word) (value : ℚ)
    (u : ComputeUnit) : (setElement t idx value u).memory =
      Function.update u.memory (t.cell idx.toNat) (coded t.dtype value) := by
  have hcases : t.dtype.toNat = 0 ∨ t.dtype.toNat = 1 ∨ t.dtype.toNat = 2 ∨
      t.dtype.toNat = 3 := by
    omega
  unfold setElement coded
  rcases hcases with h | h | h | h <;> simp only [encode, h, Option.getD_some]

/-- An element in whose cell a coded value is. -/
theorem element_of_coded {t : TensorDesc} {m : Cells} {i : ℕ} {value : ℚ}
    (h : m (t.cell i) = coded t.dtype value) : t.element m i = stored t.dtype value := by
  unfold TensorDesc.element stored
  rw [h]
  rfl

/-- The cast of `set_element` is defined: what it leaves is a number of the type. -/
def Storable (dtype : Byte) (value : ℚ) : Prop :=
  (dtype = 1 → 0 ≤ truncate (value * 1000) ∧ truncate (value * 1000) < 2 ^ 16) ∧
  (dtype = 2 → -2 ^ 7 ≤ round value ∧ round value < 2 ^ 7) ∧
  (dtype = 3 → 0 ≤ round value ∧ round value < 2 ^ 8)

instance (dtype : Byte) (value : ℚ) : Decidable (Storable dtype value) :=
  inferInstanceAs (Decidable (_ ∧ _ ∧ _))

/-- The number of the type that a value is stored as. -/
def rounded (dtype : Byte) (value : ℚ) : ℚ :=
  match dtype.toNat with
  | 0 => value
  | 1 => truncate (value * 1000) / 1000
  | 2 | 3 => round value
  | _ => 0

section Casts
variable {dtype : Byte} {value : ℚ}

theorem storable_float : Storable 0 value := ⟨nofun, nofun, nofun⟩

theorem storable_milli :
    Storable 1 value ↔ 0 ≤ truncate (value * 1000) ∧ truncate (value * 1000) < 2 ^ 16 :=
  ⟨fun h => h.1 rfl, fun h => ⟨fun _ => h, nofun, nofun⟩⟩

theorem storable_signed : Storable 2 value ↔ -2 ^ 7 ≤ round value ∧ round value < 2 ^ 7 :=
  ⟨fun h => h.2.1 rfl, fun h => ⟨nofun, fun _ => h, nofun⟩⟩

theorem storable_unsigned : Storable 3 value ↔ 0 ≤ round value ∧ round value < 2 ^ 8 :=
  ⟨fun h => h.2.2 rfl, fun h => ⟨nofun, nofun, fun _ => h⟩⟩

/-- An unsigned byte takes every number from 0 to 255. -/
theorem storable_byte (hlow : 0 ≤ value) (hhigh : value ≤ 255) : Storable 3 value := by
  rw [storable_unsigned]
  unfold round
  rw [if_pos hlow]
  refine ⟨Int.floor_nonneg.mpr (by linarith), Int.floor_lt.mpr ?_⟩
  push_cast
  linarith

/-- Where the cast is defined, nothing wraps. -/
theorem Storable.stored_eq (hk : dtype.toNat < 4) (h : Storable dtype value) :
    stored dtype value = rounded dtype value := by
  rcases known_cases hk with rfl | rfl | rfl | rfl
  · rfl
  · obtain ⟨hlow, hhigh⟩ := storable_milli.mp h
    have hmod := Int.emod_eq_of_lt hlow hhigh
    show ((truncate (value * 1000) % 2 ^ 16 : ℤ) : ℚ) / 1000 = _
    rw [hmod]
    rfl
  · obtain ⟨hlow, hhigh⟩ := storable_signed.mp h
    have hmod : Int.bmod (round value) (2 ^ 8) = round value :=
      Int.bmod_eq_of_le (by norm_num; linarith) (by norm_num; linarith)
    show ((Int.bmod (round value) (2 ^ 8) : ℤ) : ℚ) = _
    rw [hmod]
    rfl
  · obtain ⟨hlow, hhigh⟩ := storable_unsigned.mp h
    have hmod := Int.emod_eq_of_lt hlow hhigh
    show ((round value % 2 ^ 8 : ℤ) : ℚ) = _
    rw [hmod]
    rfl

theorem truncate_intCast (k : ℤ) : truncate k = k := by
  unfold truncate
  split
  · exact Int.floor_intCast k
  · exact Int.ceil_intCast k

theorem round_intCast (k : ℤ) : round k = k := by
  unfold round
  split
  · rw [Int.floor_eq_iff]
    constructor <;> linarith
  · rw [Int.ceil_eq_iff]
    constructor <;> linarith

theorem max_zero_intCast (k : ℤ) : max 0 (k : ℚ) = ((max 0 k : ℤ) : ℚ) := by
  push_cast
  rfl

/-- Cutting the negative part off a number of the type gives one of the type. -/
theorem Storable.relu (hk : dtype.toNat < 4) (h : Storable dtype value) :
    Storable dtype (max 0 (rounded dtype value)) ∧
      rounded dtype (max 0 (rounded dtype value)) = max 0 (rounded dtype value) := by
  rcases known_cases hk with rfl | rfl | rfl | rfl
  · exact ⟨storable_float, rfl⟩
  · obtain ⟨hlow, hhigh⟩ := storable_milli.mp h
    have hkept : rounded 1 value = (truncate (value * 1000) : ℚ) / 1000 := rfl
    have hpos : (0 : ℚ) ≤ (truncate (value * 1000) : ℚ) / 1000 :=
      div_nonneg (by exact_mod_cast hlow) (by norm_num)
    have hsame : truncate ((truncate (value * 1000) : ℚ) / 1000 * 1000) =
        truncate (value * 1000) := by
      rw [div_mul_cancel₀ _ (by norm_num), truncate_intCast]
    rw [hkept, max_eq_right hpos]
    refine ⟨?_, ?_⟩
    · rw [storable_milli, hsame]
      exact ⟨hlow, hhigh⟩
    · show (truncate _ : ℚ) / 1000 = _
      rw [hsame]
  · obtain ⟨hlow, hhigh⟩ := storable_signed.mp h
    have hkept : rounded 2 value = round value := rfl
    rw [hkept, max_zero_intCast]
    refine ⟨?_, ?_⟩
    · rw [storable_signed, round_intCast]
      omega
    · show (round _ : ℚ) = _
      rw [round_intCast]
  · obtain ⟨hlow, hhigh⟩ := storable_unsigned.mp h
    have hkept : rounded 3 value = round value := rfl
    rw [hkept, max_zero_intCast]
    refine ⟨?_, ?_⟩
    · rw [storable_unsigned, round_intCast]
      omega
    · show (round _ : ℚ) = _
      rw [round_intCast]

end Casts

/-- An element is read from one cell. -/
theorem element_congr {t : TensorDesc} {m m' : Cells} {i : ℕ} (h : m (t.cell i) = m' (t.cell i)) :
    t.element m i = t.element m' i := by
  unfold TensorDesc.element
  rw [h]

/-- Two elements share no byte. -/
def TensorDesc.Beside (t : TensorDesc) (i : ℕ) (t' : TensorDesc) (j : ℕ) : Prop :=
  t.cell i + t.elementSize ≤ t'.cell j ∨ t'.cell j + t'.elementSize ≤ t.cell i

instance (t : TensorDesc) (i : ℕ) (t' : TensorDesc) (j : ℕ) : Decidable (t.Beside i t' j) :=
  inferInstanceAs (Decidable (_ ∨ _))

theorem TensorDesc.Beside.cell_ne {t t' : TensorDesc} {i j : ℕ} (h : t.Beside i t' j) :
    t.cell i ≠ t'.cell j := by
  have hsize := t.elementSize_pos
  have hsize' := t'.elementSize_pos
  unfold Beside at h
  omega

/-- The first `count` elements of a tensor share no byte with the first `count'` of the other. -/
def Apart (t : TensorDesc) (count : ℕ) (t' : TensorDesc) (count' : ℕ) : Prop :=
  ∀ i < count, ∀ j < count', t.Beside i t' j

theorem counter_toNat {count : BitVec 16} {i : ℕ} (hi : i < count.toNat) :
    (BitVec.ofNat 32 i).toNat = i := by
  have := count.isLt
  rw [BitVec.toNat_ofNat]
  omega

/-! ## Matrix products -/

/-- The first elements of a tensor, row after row. -/
def TensorDesc.matrix (t : TensorDesc) (m : Cells) (rows cols : ℕ) :
    Matrix (Fin rows) (Fin cols) ℚ := fun i j => t.element m (i.val * cols + j.val)

theorem TensorDesc.matrix_apply (t : TensorDesc) (m : Cells) {rows cols : ℕ} (i : Fin rows)
    (j : Fin cols) : t.matrix m rows cols i j = t.element m (i.val * cols + j.val) := rfl

namespace MatMulParams
variable (params : MatMulParams)

def rows : ℕ := (params.A.dims 0).toNat
def inner : ℕ := (params.A.dims 1).toNat
def cols : ℕ := (params.B.dims 1).toNat

/-- The cell of an element of the product. -/
def cell (k : Word × Word) : ℕ := params.C.cell (k.1 * params.B.dim 1 + k.2).toNat

/-- The sum as the loop computes it. -/
def value (k : Word × Word) (m : Cells) : ℚ :=
  ∑ p ∈ Finset.range params.inner,
    params.A.element m (k.1 * params.A.dim 1 + BitVec.ofNat 32 p).toNat *
    params.B.element m (BitVec.ofNat 32 p * params.B.dim 1 + k.2).toNat

def keys : List (Word × Word) :=
  (counters (params.A.dims 0)).flatMap fun i => (counters (params.B.dims 1)).map fun j => (i, j)

end MatMulParams

theorem mulElement_memory {params : MatMulParams} (hC : params.C.dtype.toNat < 4) (i j : Word)
    (u : ComputeUnit) : (mulElement params i j u).memory =
      Function.update u.memory (params.cell (i, j))
        (coded params.C.dtype (params.value (i, j) u.memory)) := by
  have hacc : ∀ p, Accumulates (mulTap params i j p)
      (fun m => params.A.element m (i * params.A.dim 1 + p).toNat *
        params.B.element m (p * params.B.dim 1 + j).toNat)
      [(params.A, i * params.A.dim 1 + p), (params.B, p * params.B.dim 1 + j)] := by
    intro p sum u
    simp only [mulTap, getElement, ComputeUnit.log, List.append_assoc, List.cons_append,
      List.nil_append]
  have hloop : Ai.forLoop (params.A.dims 1) (mulTap params i j) (0, u) = _ :=
    Accumulates.forLoop hacc 0 u
  unfold mulElement
  simp only [hloop, zero_add]
  exact setElement_memory hC _ _ _

theorem executeTmul_memory {params : MatMulParams} (hC : params.C.dtype.toNat < 4)
    (u : ComputeUnit) : (executeTmul params u).memory =
      scatter params.cell (fun k m => coded params.C.dtype (params.value k m)) params.keys
        u.memory := by
  have hloops : (executeTmul params u).memory =
      (params.keys.foldl (fun u k => mulElement params k.1 k.2 u) u).memory := by
    unfold executeTmul MatMulParams.keys
    simp only [forLoop_eq, List.foldl_flatMap, List.foldl_map]
  rw [hloops]
  exact foldl_scatter ComputeUnit.memory _ (fun k _ u => mulElement_memory hC k.1 k.2 u) u

/-- Row and column make an index without a carry out of 32 bits. -/
theorem flat_toNat {i j : ℕ} (hi : i < 2 ^ 16) (d : BitVec 16) (hj : j < 2 ^ 16) :
    (BitVec.ofNat 32 i * d.setWidth 32 + BitVec.ofNat 32 j).toNat = i * d.toNat + j := by
  have hd := d.isLt
  have hmul : i * d.toNat ≤ (2 ^ 16 - 1) * (2 ^ 16 - 1) := Nat.mul_le_mul (by omega) (by omega)
  have hword : BitVec.ofNat 32 i * d.setWidth 32 + BitVec.ofNat 32 j =
      BitVec.ofNat 32 (i * d.toNat + j) := by
    rw [BitVec.ofNat_add, BitVec.ofNat_mul, BitVec.ofNat_toNat]
  rw [hword, BitVec.toNat_ofNat]
  omega

namespace MatMulParams
variable {params : MatMulParams} {k : Word × Word}

theorem mem_keys : k ∈ params.keys ↔ k.1.toNat < params.rows ∧ k.2.toNat < params.cols := by
  unfold keys
  simp only [List.mem_flatMap, List.mem_map, mem_counters]
  constructor
  · rintro ⟨i, hi, j, hj, rfl⟩
    exact ⟨hi, hj⟩
  · intro ⟨hi, hj⟩
    exact ⟨k.1, hi, k.2, hj, rfl⟩

theorem cell_eq (hk : k ∈ params.keys) :
    params.cell k = params.C.cell (k.1.toNat * params.cols + k.2.toNat) := by
  obtain ⟨hi, hj⟩ := mem_keys.mp hk
  have hrows := (params.A.dims 0).isLt
  have hcols := (params.B.dims 1).isLt
  unfold rows at hi
  unfold cols at hj
  have h := flat_toNat (i := k.1.toNat) (j := k.2.toNat) (by omega) (params.B.dims 1) (by omega)
  simp only [BitVec.ofNat_toNat, BitVec.setWidth_eq] at h
  unfold cell TensorDesc.dim cols
  rw [h]

/-- The sum is a row times a column. -/
theorem value_eq (hk : k ∈ params.keys) (m : Cells) :
    params.value k m = ∑ p ∈ Finset.range params.inner,
      params.A.element m (k.1.toNat * params.inner + p) *
        params.B.element m (p * params.cols + k.2.toNat) := by
  obtain ⟨hi, hj⟩ := mem_keys.mp hk
  have hrows := (params.A.dims 0).isLt
  have hinner := (params.A.dims 1).isLt
  have hcols := (params.B.dims 1).isLt
  unfold rows at hi
  unfold cols at hj
  refine Finset.sum_congr rfl fun p hp => ?_
  have hp' : p < (params.A.dims 1).toNat := Finset.mem_range.mp hp
  have ha := flat_toNat (i := k.1.toNat) (j := p) (by omega) (params.A.dims 1) (by omega)
  have hb := flat_toNat (i := p) (j := k.2.toNat) (by omega) (params.B.dims 1) (by omega)
  simp only [BitVec.ofNat_toNat, BitVec.setWidth_eq] at ha hb
  unfold TensorDesc.dim inner cols
  rw [ha, hb]

/-- The cells of a row and a column. -/
def reads (params : MatMulParams) (k : Word × Word) : Set ℕ :=
  {a | ∃ p < params.inner, a = params.A.cell (k.1.toNat * params.inner + p) ∨
    a = params.B.cell (p * params.cols + k.2.toNat)}

theorem value_needs (hk : k ∈ params.keys) :
    Needs (fun m => coded params.C.dtype (params.value k m)) (params.reads k) := by
  intro m m' h
  have hvalue : params.value k m = params.value k m' := by
    rw [value_eq hk, value_eq hk]
    refine Finset.sum_congr rfl fun p hp => ?_
    have hp' := Finset.mem_range.mp hp
    rw [element_congr (h _ ⟨p, hp', .inl rfl⟩), element_congr (h _ ⟨p, hp', .inr rfl⟩)]
  simp only [hvalue]

theorem cell_inj {k' : Word × Word} (hk : k ∈ params.keys) (hk' : k' ∈ params.keys)
    (h : params.cell k = params.cell k') : k = k' := by
  rw [cell_eq hk, cell_eq hk'] at h
  obtain ⟨hi, hj⟩ := index_inj (mem_keys.mp hk).2 (mem_keys.mp hk').2 (TensorDesc.cell_inj h)
  exact Prod.ext (BitVec.eq_of_toNat_eq hi) (BitVec.eq_of_toNat_eq hj)

end MatMulParams

/-- If the product is stored apart from its factors, it is their product, whatever
`transA` and `transB` say, and nothing else is stored. -/
theorem executeTmul_matrix {params : MatMulParams} (hC : params.C.dtype.toNat < 4)
    (hA : Apart params.C (params.rows * params.cols) params.A (params.rows * params.inner))
    (hB : Apart params.C (params.rows * params.cols) params.B (params.inner * params.cols))
    (u : ComputeUnit) :
    params.C.matrix (executeTmul params u).memory params.rows params.cols =
        (params.A.matrix u.memory params.rows params.inner *
          params.B.matrix u.memory params.inner params.cols).map (stored params.C.dtype) ∧
      ∀ a, (∀ i < params.rows * params.cols, a ≠ params.C.cell i) →
        (executeTmul params u).memory a = u.memory a := by
  rw [executeTmul_memory hC]
  refine ⟨?_, fun a ha => scatter_frame fun k hk => ?_⟩
  · funext i j
    have hi : (BitVec.ofNat 32 i.val).toNat = i.val := counter_toNat i.isLt
    have hj : (BitVec.ofNat 32 j.val).toNat = j.val := counter_toNat j.isLt
    have hk : (BitVec.ofNat 32 i.val, BitVec.ofNat 32 j.val) ∈ params.keys :=
      MatMulParams.mem_keys.mpr ⟨by rw [hi]; exact i.isLt, by rw [hj]; exact j.isLt⟩
    have hat := scatter_apart (m := u.memory) params.reads (fun k hk => MatMulParams.value_needs hk)
      (fun k hk k' hk' => MatMulParams.cell_inj hk hk') (fun k hk k' hk' => ?_) hk
    · rw [MatMulParams.cell_eq hk, hi, hj] at hat
      rw [TensorDesc.matrix_apply, element_of_coded hat, MatMulParams.value_eq hk, hi, hj,
        Matrix.map_apply, Matrix.mul_apply]
      simp only [TensorDesc.matrix_apply]
      rw [Fin.sum_univ_eq_sum_range fun p => params.A.element u.memory (i * params.inner + p) *
        params.B.element u.memory (p * params.cols + j)]
    · -- nothing is stored in a row of A or a column of B
      obtain ⟨hi, hj⟩ := MatMulParams.mem_keys.mp hk
      obtain ⟨hi', hj'⟩ := MatMulParams.mem_keys.mp hk'
      rw [MatMulParams.cell_eq hk']
      intro ⟨p, hp, h⟩
      rcases h with h | h
      · exact (hA _ (index_lt hi' hj') _ (index_lt hi hp)).cell_ne h
      · exact (hB _ (index_lt hi' hj') _ (index_lt hp hj)).cell_ne h
  · rw [MatMulParams.cell_eq hk]
    obtain ⟨hi, hj⟩ := MatMulParams.mem_keys.mp hk
    exact ha _ (index_lt hi hj)

/-! ## Elementwise operations -/

/-- No element of `src` shares a byte with an earlier one of `dst`. -/
def StoredBehind (dst src : TensorDesc) (count : ℕ) : Prop :=
  ∀ i < count, ∀ j < i, dst.Beside j src i

theorem StoredBehind.refl (t : TensorDesc) (count : ℕ) : StoredBehind t t count := by
  intro i _ j hj
  have hnext : t.elementSize * (j + 1) ≤ t.elementSize * i := Nat.mul_le_mul_left _ hj
  refine .inl ?_
  unfold TensorDesc.cell
  rw [Nat.mul_succ] at hnext
  omega

/-- So an operation may also work on tensors that do not meet. -/
theorem StoredBehind.of_apart {dst src : TensorDesc} {count : ℕ} (h : Apart dst count src count) :
    StoredBehind dst src count := fun i hi j hj => h j (by omega) i hi

/-- A loop over the elements of `dst` whose turns store values computed from cells that
no earlier turn has stored in. -/
theorem forWords_elements {dst : TensorDesc} (body : Word → ComputeUnit → ComputeUnit)
    (value : ℕ → Cells → ℚ) (reads : ℕ → Set ℕ)
    (hbody : ∀ (i : ℕ) u, i < dst.totalElements.toNat → (body (BitVec.ofNat 32 i) u).memory =
      Function.update u.memory (dst.cell i) (coded dst.dtype (value i u.memory)))
    (hneeds : ∀ i < dst.totalElements.toNat, Needs (value i) (reads i))
    (hbehind : ∀ i < dst.totalElements.toNat, ∀ j < i, dst.cell j ∉ reads i) (u : ComputeUnit) :
    (∀ i < dst.totalElements.toNat,
      dst.element (forWords dst.totalElements body u).memory i =
        stored dst.dtype (value i u.memory)) ∧
    ∀ a, (∀ i < dst.totalElements.toNat, a ≠ dst.cell i) →
      (forWords dst.totalElements body u).memory a = u.memory a := by
  have hloop : (forWords dst.totalElements body u).memory =
      scatter dst.cell (fun i m => coded dst.dtype (value i m))
        (List.range dst.totalElements.toNat) u.memory :=
    foldl_scatter ComputeUnit.memory (fun i u => body (BitVec.ofNat 32 i) u)
      (fun i hi u => hbody i u (List.mem_range.mp hi)) u
  rw [hloop]
  refine ⟨fun i hi => element_of_coded (scatter_at reads ?_ ?_ (List.mem_range.mpr hi)),
    fun a ha => scatter_frame fun i hi => ha i (List.mem_range.mp hi)⟩
  · intro i hi m m' h
    simp only [hneeds i (List.mem_range.mp hi) m m' h]
  · refine List.Pairwise.imp_of_mem ?_ List.pairwise_lt_range
    intro j i _ hi hlt
    refine ⟨hbehind i (List.mem_range.mp hi) j hlt, fun heq => ?_⟩
    have := TensorDesc.cell_inj heq
    omega

theorem index_toNat {dst : TensorDesc} {i : ℕ} (hi : i < dst.totalElements.toNat) :
    (BitVec.ofNat 32 i).toNat = i := by
  have := dst.totalElements.isLt
  rw [BitVec.toNat_ofNat]
  omega

/-- Sums, also in place of one of the summands. -/
theorem executeTadd_elements {dst src1 src2 : TensorDesc} (hdst : dst.dtype.toNat < 4)
    (h1 : StoredBehind dst src1 dst.totalElements.toNat)
    (h2 : StoredBehind dst src2 dst.totalElements.toNat) (u : ComputeUnit) :
    (∀ i < dst.totalElements.toNat, dst.element (executeTadd dst src1 src2 u).memory i =
      stored dst.dtype (src1.element u.memory i + src2.element u.memory i)) ∧
    ∀ a, (∀ i < dst.totalElements.toNat, a ≠ dst.cell i) →
      (executeTadd dst src1 src2 u).memory a = u.memory a := by
  refine forWords_elements (addElement dst src1 src2)
    (fun i m => src1.element m i + src2.element m i) (fun i => {src1.cell i, src2.cell i})
    ?_ ?_ ?_ u
  · intro i u hi
    unfold addElement getElement
    simp only [index_toNat hi]
    rw [setElement_memory hdst, index_toNat hi]
  · intro i _ m m' h
    simp only [element_congr (h _ (Set.mem_insert ..)),
      element_congr (h _ (Set.mem_insert_of_mem _ rfl))]
  · intro i hi j hj h
    rcases h with h | h
    · exact (h1 i hi j hj).cell_ne h
    · exact (h2 i hi j hj).cell_ne h

/-- The operations that work in place. -/
theorem mapElements_elements {tensor : TensorDesc} (ht : tensor.dtype.toNat < 4) (f : ℚ → ℚ)
    (cycles : BitVec 64) (u : ComputeUnit) :
    (∀ i < tensor.totalElements.toNat, tensor.element (mapElements tensor f cycles u).memory i =
      stored tensor.dtype (f (tensor.element u.memory i))) ∧
    ∀ a, (∀ i < tensor.totalElements.toNat, a ≠ tensor.cell i) →
      (mapElements tensor f cycles u).memory a = u.memory a := by
  refine forWords_elements _ (fun i m => f (tensor.element m i)) (fun i => {tensor.cell i})
    ?_ ?_ ?_ u
  · intro i u hi
    unfold getElement
    simp only [index_toNat hi]
    rw [setElement_memory ht, index_toNat hi]
  · intro i _ m m' h
    simp only [element_congr (h _ rfl)]
  · intro i hi j hj h
    exact (StoredBehind.refl tensor _ i hi j hj).cell_ne h

/-! ## Sigmoid and normalization -/

section
variable {tensor : TensorDesc} (hfloat : tensor.dtype = 0)
include hfloat

/-- With a positive exponential function, sigmoid leaves numbers between 0 and 1. -/
theorem executeTsigmoid_between {exp : ℚ → ℚ} (hexp : ∀ x, 0 < exp x) (u : ComputeUnit) {i : ℕ}
    (hi : i < tensor.totalElements.toNat) :
    0 < tensor.element (executeTsigmoid exp tensor u).memory i ∧
      tensor.element (executeTsigmoid exp tensor u).memory i < 1 := by
  have helement := (mapElements_elements (by rw [hfloat]; decide)
    (fun val => 1 / (1 + exp (-val))) 100 u).1 i hi
  have hkept : ∀ v, stored tensor.dtype v = v := fun v => by
    rw [hfloat]
    rfl
  have hone : 1 < 1 + exp (-tensor.element u.memory i) := lt_add_of_pos_right 1 (hexp _)
  have hpos := one_pos.trans hone
  unfold executeTsigmoid
  rw [helement, hkept]
  exact ⟨div_pos one_pos hpos, (div_lt_one hpos).mpr hone⟩

/-- Normalization subtracts one half and divides by the same number everywhere, so that
differences keep their ratio. -/
theorem executeTnorm_sub (sqrt : ℚ → ℚ) (eps : ℚ) (u : ComputeUnit) {i j : ℕ}
    (hi : i < tensor.totalElements.toNat) (hj : j < tensor.totalElements.toNat) :
    tensor.element (executeTnorm sqrt tensor eps u).memory i -
        tensor.element (executeTnorm sqrt tensor eps u).memory j =
      (tensor.element u.memory i - tensor.element u.memory j) / sqrt (1 / 4 + eps) := by
  have helement := (mapElements_elements (by rw [hfloat]; decide)
    (fun val => (val - 1 / 2) / sqrt (1 / 4 + eps)) 150 u).1
  have hkept : ∀ v, stored tensor.dtype v = v := fun v => by
    rw [hfloat]
    rfl
  unfold executeTnorm
  rw [helement i hi, helement j hj, hkept, hkept, ← sub_div, sub_sub_sub_cancel_right]

end

/-! ## A dense layer -/

/-- The product, with a bias added to it, and the negative part cut off, in place. -/
def denseLayer (params : MatMulParams) (bias : TensorDesc) (u : ComputeUnit) : ComputeUnit :=
  executeTrelu params.C (executeTadd params.C params.C bias (executeTmul params u))

namespace MatMulParams
variable (params : MatMulParams)

/-- The product that a memory asks for. -/
def product (m : Cells) : Matrix (Fin params.rows) (Fin params.cols) ℚ :=
  params.A.matrix m params.rows params.inner * params.B.matrix m params.inner params.cols

/-- With the bias added to what the type of the product keeps of it. -/
def biased (bias : TensorDesc) (m : Cells) : Matrix (Fin params.rows) (Fin params.cols) ℚ :=
  (params.product m).map (rounded params.C.dtype) + bias.matrix m params.rows params.cols

/-- The product has the size of C, which shares no byte with the other tensors. The counts of elements, of
operations and of three times as many are `int`s, and none overflows. -/
structure DenseConsistent (bias : TensorDesc) : Prop where
  known : params.C.dtype.toNat < 4
  count : params.C.elementCount = params.rows * params.cols
  elements : params.C.elementCount < 2 ^ 31
  operations : params.rows * params.cols * params.inner * 3 < 2 ^ 31
  apartA : Apart params.C (params.rows * params.cols) params.A (params.rows * params.inner)
  apartB : Apart params.C (params.rows * params.cols) params.B (params.inner * params.cols)
  apartBias : Apart params.C (params.rows * params.cols) bias (params.rows * params.cols)

end MatMulParams

/-- The layer, where no cast is undefined: the type of the product rounds it and the sum. -/
theorem denseLayer_elements {params : MatMulParams} {bias : TensorDesc}
    (h : params.DenseConsistent bias) (u : ComputeUnit)
    (hproduct : ∀ i j, Storable params.C.dtype (params.product u.memory i j))
    (hbiased : ∀ i j, Storable params.C.dtype (params.biased bias u.memory i j)) :
    params.C.matrix (denseLayer params bias u).memory params.rows params.cols =
        (params.biased bias u.memory).map (fun v => max 0 (rounded params.C.dtype v)) ∧
      ∀ (t : TensorDesc) (j : ℕ), (∀ i < params.rows * params.cols, params.C.Beside i t j) →
        t.element (denseLayer params bias u).memory j = t.element u.memory j := by
  have hC := h.known
  have hcount : params.C.totalElements.toNat = params.rows * params.cols := by
    rw [TensorDesc.totalElements_toNat, ← h.count]
    exact Nat.mod_eq_of_lt (by have := h.elements; omega)
  obtain ⟨hmul, hmulFrame⟩ := executeTmul_matrix hC h.apartA h.apartB u
  obtain ⟨hadd, haddFrame⟩ := executeTadd_elements hC (.refl params.C _)
    (.of_apart (hcount.symm ▸ h.apartBias)) (executeTmul params u)
  obtain ⟨hrelu, hreluFrame⟩ := mapElements_elements hC (fun val => max 0 val) 50
    (executeTadd params.C params.C bias (executeTmul params u))
  rw [hcount] at hadd haddFrame hrelu hreluFrame
  have hframe : ∀ a, (∀ i < params.rows * params.cols, a ≠ params.C.cell i) →
      (denseLayer params bias u).memory a = u.memory a := fun a ha =>
    (hreluFrame a ha).trans ((haddFrame a ha).trans (hmulFrame a ha))
  refine ⟨?_, fun t j hbeside =>
    element_congr (hframe _ fun i hi => (hbeside i hi).cell_ne.symm)⟩
  funext i j
  have hlt := index_lt i.isLt j.isLt
  have hstored : params.C.element (executeTmul params u).memory (i * params.cols + j) =
      rounded params.C.dtype (params.product u.memory i j) :=
    (congrFun (congrFun hmul i) j).trans ((hproduct i j).stored_eq hC)
  -- the product is not stored over the bias
  have hkept : bias.element (executeTmul params u).memory (i * params.cols + j) =
      bias.element u.memory (i * params.cols + j) :=
    element_congr (hmulFrame _ fun k hk => (h.apartBias k hk _ hlt).cell_ne.symm)
  have hsum : params.C.element (executeTadd params.C params.C bias (executeTmul params u)).memory
      (i * params.cols + j) = rounded params.C.dtype (params.biased bias u.memory i j) := by
    rw [hadd _ hlt, hstored, hkept]
    exact (hbiased i j).stored_eq hC
  obtain ⟨hstorable, hsame⟩ := (hbiased i j).relu hC
  calc params.C.element (denseLayer params bias u).memory (i * params.cols + j)
      = stored params.C.dtype (max 0 (rounded params.C.dtype
          (params.biased bias u.memory i j))) := by
        rw [← hsum]
        exact hrelu _ hlt
    _ = max 0 (rounded params.C.dtype (params.biased bias u.memory i j)) :=
        (hstorable.stored_eq hC).trans hsame

/-- Two rows by two columns of signed bytes, at 48, of two by three and three by two. -/
def smallProduct : MatMulParams where
  A := ⟨0, ![2, 3, 1, 1], 2, 1⟩
  B := ⟨24, ![3, 2, 1, 1], 2, 1⟩
  C := ⟨48, ![2, 2, 1, 1], 2, 1⟩
  transA := true
  transB := false
  accumulatorDtype := 0

/-- Numbers from -3 to 3 in turn. -/
def numbered : ComputeUnit := ⟨{}, fun a => (a % 7 : ℕ) - 3, []⟩

theorem denseLayer_elements_small :
    let bias : TensorDesc := ⟨64, ![2, 2, 1, 1], 2, 1⟩
    smallProduct.C.matrix (denseLayer smallProduct bias numbered).memory 2 2 =
        (smallProduct.biased bias numbered.memory).map (fun v => max 0 (rounded 2 v)) ∧
      ∀ (t : TensorDesc) (j : ℕ), (∀ i < 4, smallProduct.C.Beside i t j) →
        t.element (denseLayer smallProduct bias numbered).memory j =
          t.element numbered.memory j := by
  intro bias
  have hproduct : ∀ i j : Fin 2, Storable 2
      ((smallProduct.product numbered.memory : Fin 2 → Fin 2 → ℚ) i j) :=
    Fin.forall_fin_two.mpr ⟨Fin.forall_fin_two.mpr ⟨by decide +kernel, by decide +kernel⟩,
      Fin.forall_fin_two.mpr ⟨by decide +kernel, by decide +kernel⟩⟩
  have hbiased : ∀ i j : Fin 2, Storable 2
      ((smallProduct.biased bias numbered.memory : Fin 2 → Fin 2 → ℚ) i j) :=
    Fin.forall_fin_two.mpr ⟨Fin.forall_fin_two.mpr ⟨by decide +kernel, by decide +kernel⟩,
      Fin.forall_fin_two.mpr ⟨by decide +kernel, by decide +kernel⟩⟩
  exact denseLayer_elements ⟨by decide, by decide, by decide, by decide, by unfold Apart; decide,
    by unfold Apart; decide, by unfold Apart; decide⟩ numbered hproduct hbiased

end RiscvEmulator.Ai
