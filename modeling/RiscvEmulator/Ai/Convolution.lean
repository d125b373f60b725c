import RiscvEmulator.Ai.ComputeUnit

/-! # The convolution of the AI unit

The mathematical convolution of a parameter block, beside what `execute_tconv` computes.
The code reads neither the stride, the padding nor the dilation, and takes the weights of
output channel 0 for every channel. -/
namespace RiscvEmulator.Ai
open Memory

/-! ## What a convolution is -/

/-- How many outputs an axis has. -/
def outputSize (size kernel stride pad dilation : ℤ) : ℤ :=
  (size + 2 * pad - dilation * (kernel - 1) - 1) / stride + 1

/-- The input position that kernel position `k` of output `o` meets. -/
def tapPosition (o k stride pad dilation : ℕ) : ℤ := o * stride + k * dilation - pad

/-- An element of the input, and zero around it. -/
def inputAt (params : ConvParams) (m : Cells) (n : ℕ) (y x : ℤ) (ic : ℕ) : ℚ :=
  if 0 ≤ y ∧ y < (params.input.dims 1).toNat ∧ 0 ≤ x ∧ x < (params.input.dims 2).toNat then
    params.input.element m (params.input.position n y.toNat x.toNat ic)
  else 0

def convolution (params : ConvParams) (m : Cells) (p : Coordinate) : ℚ :=
  (∑ kh ∈ Finset.range params.kernelH.toNat, ∑ kw ∈ Finset.range params.kernelW.toNat,
    ∑ ic ∈ Finset.range (params.input.dims 3).toNat,
      inputAt params m p.n.toNat
          (tapPosition p.h.toNat kh params.strideH.toNat params.padH.toNat params.dilationH.toNat)
          (tapPosition p.w.toNat kw params.strideW.toNat params.padW.toNat params.dilationW.toNat)
          ic
        * params.weight.element m (params.weight.position p.c.toNat kh kw ic))
    + biasValue params p m

/-- A channels-last tensor of a known type in the 32-bit address space. -/
structure TensorDesc.Placed (t : TensorDesc) : Prop where
  known : t.dtype.toNat < 4
  nhwc : t.layout = 1
  fits : t.addr.toNat + t.elementSize * t.elementCount ≤ 2 ^ 32

/-- Two tensors share no byte. -/
def Separate (t t' : TensorDesc) : Prop :=
  t.addr.toNat + t.elementSize * t.elementCount ≤ t'.addr.toNat ∨
    t'.addr.toNat + t'.elementSize * t'.elementCount ≤ t.addr.toNat

/-- The bias, if there is one: one element for each output channel. -/
structure BiasConsistent (params : ConvParams) : Prop where
  placed : params.bias.Placed
  count : params.bias.elementCount = (params.output.dims 3).toNat
  input : Separate params.input params.bias
  weight : Separate params.weight params.bias
  output : Separate params.output params.bias

/-- Separate tensors of one group with the shapes of a convolution. The weights have
the dimensions output channel, kernel row, kernel column, input channel. -/
structure Consistent (params : ConvParams) : Prop where
  input : params.input.Placed
  output : params.output.Placed
  weight : params.weight.Placed
  bias : params.bias.addr ≠ 0 → BiasConsistent params
  inputWeight : Separate params.input params.weight
  outputInput : Separate params.output params.input
  outputWeight : Separate params.output params.weight
  groups : params.groups = 1
  batch : params.input.dims 0 = params.output.dims 0
  weightDims : params.weight.dims
    = ![params.output.dims 3, params.kernelH, params.kernelW, params.input.dims 3]
  strideH : 0 < params.strideH.toNat
  strideW : 0 < params.strideW.toNat
  height : ((params.output.dims 1).toNat : ℤ) = outputSize (params.input.dims 1).toNat
    params.kernelH.toNat params.strideH.toNat params.padH.toNat params.dilationH.toNat
  width : ((params.output.dims 2).toNat : ℤ) = outputSize (params.input.dims 2).toNat
    params.kernelW.toNat params.strideW.toNat params.padW.toNat params.dilationW.toNat

/-- Whatever the memory holds, the code reads elements of its tensors only and stores the
convolution of what the tensors held at the start. -/
def Convolves (params : ConvParams) : Prop :=
  ∀ u : ComputeUnit, u.reads = [] →
    (∀ r ∈ (executeTconv params u).reads, r.2.toNat < r.1.elementCount) ∧
    ∀ p, params.output.Valid p →
      params.output.element (executeTconv params u).memory (params.output.nhwcIndex p)
        = stored params.output.dtype (convolution params u.memory p)

/-- One output channel and none of what the code leaves out: no padding, and a stride and
a dilation of 1 wherever there is a second position to reach. -/
structure Plain (params : ConvParams) : Prop where
  channel : params.output.dims 3 = 1
  padH : params.padH = 0
  padW : params.padW = 0
  strideH : params.output.dims 1 = 1 ∨ params.strideH = 1
  strideW : params.output.dims 2 = 1 ∨ params.strideW = 1
  dilationH : params.kernelH = 1 ∨ params.dilationH = 1
  dilationW : params.kernelW = 1 ∨ params.dilationW = 1

/-- The sums have no terms. -/
def NoTaps (params : ConvParams) : Prop :=
  params.kernelH = 0 ∨ params.kernelW = 0 ∨ params.input.dims 3 = 0

/-! ## Tensors in memory -/

namespace TensorDesc

variable {t t' : TensorDesc}

theorem elementSize_pos (t : TensorDesc) : 0 < t.elementSize := by
  unfold elementSize
  split
  · decide
  · split <;> decide

theorem Placed.count_le (h : t.Placed) : t.elementCount ≤ 2 ^ 32 := by
  have hsize : t.elementCount ≤ t.elementSize * t.elementCount :=
    Nat.le_mul_of_pos_left _ t.elementSize_pos
  have := h.fits
  omega

theorem Placed.layout_ne (h : t.Placed) : t.layout ≠ 0 := by
  rw [h.nhwc]
  decide

theorem cell_inj {i j : ℕ} (h : t.cell i = t.cell j) : i = j :=
  Nat.eq_of_mul_eq_mul_left t.elementSize_pos (Nat.add_left_cancel h)

theorem cell_lt {i : ℕ} (hi : i < t.elementCount) :
    t.cell i < t.addr.toNat + t.elementSize * t.elementCount :=
  Nat.add_lt_add_left (Nat.mul_lt_mul_of_pos_left hi t.elementSize_pos) _

/-- An index of a placed tensor is not counted around. -/
theorem Placed.index_toNat (h : t.Placed) {p : Coordinate} (hp : t.Valid p) :
    (t.getTensorIndex p).toNat = t.nhwcIndex p := by
  rw [getTensorIndex_nhwc h.layout_ne]
  exact Nat.mod_eq_of_lt (Nat.lt_of_lt_of_le (nhwcIndex_lt hp) h.count_le)

end TensorDesc

theorem Separate.cell_ne {t t' : TensorDesc} (h : Separate t t') {i j : ℕ} (hi : i < t.elementCount)
    (hj : j < t'.elementCount) : t.cell i ≠ t'.cell j := by
  have hlast := TensorDesc.cell_lt hi
  have hlast' := TensorDesc.cell_lt hj
  have hfirst : t.addr.toNat ≤ t.cell i := Nat.le_add_right _ _
  have hfirst' : t'.addr.toNat ≤ t'.cell j := Nat.le_add_right _ _
  rcases h with h | h
  · omega
  · omega

/-! ## What the code reads -/

theorem mem_convReads {params : ConvParams} {p : Coordinate} {r : TensorDesc × Word} :
    r ∈ convReads params p ↔
      (∃ kh < params.kernelH.toNat, ∃ kw < params.kernelW.toNat, ∃ ic < (params.input.dims 3).toNat,
        r = (params.input, inputIndex params p (BitVec.ofNat 32 kh) (BitVec.ofNat 32 kw)
          (BitVec.ofNat 32 ic)) ∨
        r = (params.weight, weightIndex params (BitVec.ofNat 32 kh) (BitVec.ofNat 32 kw)
          (BitVec.ofNat 32 ic))) ∨
      params.bias.addr ≠ 0 ∧ r = (params.bias, p.c) := by
  have hbias : r ∈ biasReads params p ↔ params.bias.addr ≠ 0 ∧ r = (params.bias, p.c) := by
    unfold biasReads
    split
    case isTrue hb => rw [and_iff_right hb, List.mem_singleton]
    case isFalse hb => exact iff_of_false List.not_mem_nil fun hr => hb hr.1
  rw [convReads, List.mem_append, hbias]
  simp only [sumReads, List.mem_flatMap, List.mem_range, tapReads, List.mem_cons, List.not_mem_nil,
    or_false]

theorem inputIndex_ofNat {params : ConvParams} (h : params.input.Placed) (p : Coordinate)
    (kh kw ic : ℕ) :
    inputIndex params p (BitVec.ofNat 32 kh) (BitVec.ofNat 32 kw) (BitVec.ofNat 32 ic)
      = BitVec.ofNat 32
          (params.input.position p.n.toNat (p.h.toNat + kh) (p.w.toNat + kw) ic) := by
  rw [← TensorDesc.getTensorIndex_ofNat h.layout_ne]
  simp only [inputIndex, BitVec.ofNat_add, BitVec.ofNat_toNat, BitVec.setWidth_eq]

theorem weightIndex_ofNat {params : ConvParams} (h : params.weight.Placed) (kh kw ic : ℕ) :
    weightIndex params (BitVec.ofNat 32 kh) (BitVec.ofNat 32 kw) (BitVec.ofNat 32 ic)
      = BitVec.ofNat 32 (params.weight.position 0 kh kw ic) :=
  TensorDesc.getTensorIndex_ofNat h.layout_ne 0 kh kw ic

section Consistent

variable {params : ConvParams} (h : Consistent params)

include h

theorem Consistent.weight_digits {kh kw ic : ℕ} (hkh : kh < params.kernelH.toNat)
    (hkw : kw < params.kernelW.toNat) (hic : ic < (params.input.dims 3).toNat) :
    kh < (params.weight.dims 1).toNat ∧ kw < (params.weight.dims 2).toNat ∧
      ic < (params.weight.dims 3).toNat := by
  rw [h.weightDims]
  exact ⟨hkh, hkw, hic⟩

theorem Consistent.weight_position {c kh kw ic : ℕ} (hc : c < (params.output.dims 3).toNat)
    (hkh : kh < params.kernelH.toNat) (hkw : kw < params.kernelW.toNat)
    (hic : ic < (params.input.dims 3).toNat) :
    params.weight.position c kh kw ic < params.weight.elementCount := by
  have hc' : c < (params.weight.dims 0).toNat := by
    rw [h.weightDims]
    exact hc
  obtain ⟨h1, h2, h3⟩ := h.weight_digits hkh hkw hic
  exact TensorDesc.position_lt hc' h1 h2 h3

/-- The weight read is the one of output channel 0, and it is an element of the weights. -/
theorem Consistent.weightIndex_toNat {p : Coordinate} (hp : params.output.Valid p) {kh kw ic : ℕ}
    (hkh : kh < params.kernelH.toNat) (hkw : kw < params.kernelW.toNat)
    (hic : ic < (params.input.dims 3).toNat) :
    (weightIndex params (BitVec.ofNat 32 kh) (BitVec.ofNat 32 kw) (BitVec.ofNat 32 ic)).toNat
      = params.weight.position 0 kh kw ic := by
  have hlt := h.weight_position (Nat.zero_lt_of_lt hp.channel) hkh hkw hic
  rw [weightIndex_ofNat h.weight, BitVec.toNat_ofNat,
    Nat.mod_eq_of_lt (Nat.lt_of_lt_of_le hlt h.weight.count_le)]

/-- No read cell is an output cell. -/
theorem Consistent.reads_apart {p q : Coordinate} (hq : params.output.Valid q)
    {r : TensorDesc × Word} (hr : r ∈ convReads params p) (hin : r.2.toNat < r.1.elementCount) :
    r.1.cell r.2.toNat ≠ outputCell params q := by
  have hout : (params.output.getTensorIndex q).toNat < params.output.elementCount :=
    (h.output.index_toNat hq).trans_lt (TensorDesc.nhwcIndex_lt hq)
  rcases mem_convReads.mp hr with ⟨kh, _, kw, _, ic, _, rfl | rfl⟩ | ⟨hb, rfl⟩
  · exact (h.outputInput.cell_ne hout hin).symm
  · exact (h.outputWeight.cell_ne hout hin).symm
  · exact ((h.bias hb).output.cell_ne hout hin).symm

/-- The elements read do not depend on the memory, and if all are elements of their
tensors the output is computed from the memory at the start. -/
theorem Consistent.executeTconv_element
    (hreads : ∀ p, params.output.Valid p → ∀ r ∈ convReads params p, r.2.toNat < r.1.elementCount)
    (u : ComputeUnit) {p : Coordinate} (hp : params.output.Valid p) :
    params.output.element (executeTconv params u).memory (params.output.nhwcIndex p)
      = stored params.output.dtype (convValue params p u.memory) := by
  have hmem := fun p => mem_outputs h.batch (p := p)
  rw [← h.output.index_toNat hp, executeTconv_memory]
  refine convLoops_element h.output.known (fun p hp q hq hcell => ?_) (fun p hp r hr q hq => ?_) u
    ((hmem p).mpr hp)
  · have hindex := TensorDesc.cell_inj hcell
    rw [h.output.index_toNat ((hmem p).mp hp), h.output.index_toNat ((hmem q).mp hq)] at hindex
    exact TensorDesc.nhwcIndex_inj ((hmem p).mp hp) ((hmem q).mp hq) hindex
  · exact h.reads_apart ((hmem q).mp hq) hr (hreads p ((hmem p).mp hp) r hr)

/-- The property, one output element and one memory at a time. -/
theorem Consistent.convolves_iff_values : Convolves params ↔
    (∀ p, params.output.Valid p → ∀ r ∈ convReads params p, r.2.toNat < r.1.elementCount) ∧
    ∀ m p, params.output.Valid p →
      stored params.output.dtype (convValue params p m)
        = stored params.output.dtype (convolution params m p) := by
  have hmem := fun u : ComputeUnit => fun hu : u.reads = [] => fun r : TensorDesc × Word =>
    show r ∈ (executeTconv params u).reads ↔ ∃ p, params.output.Valid p ∧ r ∈ convReads params p by
      simp only [executeTconv_reads, hu, List.nil_append, List.mem_flatMap, mem_outputs h.batch]
  constructor
  · intro hconv
    have hreads : ∀ p, params.output.Valid p → ∀ r ∈ convReads params p,
        r.2.toNat < r.1.elementCount := fun p hp r hr =>
      (hconv ⟨{}, 0, []⟩ rfl).1 r ((hmem _ rfl r).mpr ⟨p, hp, hr⟩)
    refine ⟨hreads, fun m p hp => ?_⟩
    rw [← (hconv ⟨{}, m, []⟩ rfl).2 p hp, h.executeTconv_element hreads ⟨{}, m, []⟩ hp]
  · intro ⟨hreads, hvalues⟩ u hu
    refine ⟨fun r hr => ?_, fun p hp => ?_⟩
    · obtain ⟨p, hp, hrp⟩ := (hmem u hu r).mp hr
      exact hreads p hp r hrp
    · rw [h.executeTconv_element hreads u hp, hvalues u.memory p hp]

end Consistent

/-! ## Where nothing is left out -/

theorem Plain.axis {size out kernel stride pad dilation o k : ℕ} (hstride : 0 < stride)
    (hout : (out : ℤ) = outputSize size kernel stride pad dilation) (hpad : pad = 0)
    (hs : out = 1 ∨ stride = 1) (hd : kernel = 1 ∨ dilation = 1) (ho : o < out) (hk : k < kernel) :
    tapPosition o k stride pad dilation = (o + k : ℕ) ∧ o + k < size := by
  subst hpad
  have hos : (o : ℤ) * stride = o := by
    rcases hs with rfl | rfl
    · have : o = 0 := by omega
      subst this
      simp
    · simp
  have hlast : ((out : ℤ) - 1) * stride = out - 1 := by
    rcases hs with rfl | rfl <;> simp
  have hkd : (k : ℤ) * dilation = k := by
    rcases hd with rfl | rfl
    · have : k = 0 := by omega
      subst this
      simp
    · simp
  have hspan : (dilation : ℤ) * (kernel - 1) = kernel - 1 := by
    rcases hd with rfl | rfl <;> simp
  have hfit : ((out : ℤ) - 1) * stride ≤ size + 2 * (0 : ℕ) - dilation * (kernel - 1) - 1 := by
    rw [hout, outputSize, add_sub_cancel_right]
    exact Int.ediv_mul_le _ (by omega)
  refine ⟨?_, ?_⟩
  · simp only [tapPosition, hos, hkd]
    push_cast
    ring
  · rw [hlast, hspan] at hfit
    omega

section Plain

variable {params : ConvParams} (h : Consistent params) (hplain : Plain params)

include h hplain

theorem Plain.tap {p : Coordinate} (hp : params.output.Valid p) {kh kw : ℕ}
    (hkh : kh < params.kernelH.toNat) (hkw : kw < params.kernelW.toNat) :
    (tapPosition p.h.toNat kh params.strideH.toNat params.padH.toNat params.dilationH.toNat
        = (p.h.toNat + kh : ℕ) ∧ p.h.toNat + kh < (params.input.dims 1).toNat) ∧
    tapPosition p.w.toNat kw params.strideW.toNat params.padW.toNat params.dilationW.toNat
        = (p.w.toNat + kw : ℕ) ∧ p.w.toNat + kw < (params.input.dims 2).toNat := by
  have hval : ∀ {x : BitVec 16} {n : ℕ} (hn : n < 2 ^ 16), x = BitVec.ofNat 16 n → x.toNat = n := by
    intro x n hn hx
    rw [hx, BitVec.toNat_ofNat, Nat.mod_eq_of_lt hn]
  have hone : ∀ {x y : BitVec 16}, x = 1 ∨ y = 1 → x.toNat = 1 ∨ y.toNat = 1 := fun hxy =>
    hxy.imp (hval (by decide)) (hval (by decide))
  exact ⟨Plain.axis h.strideH h.height (hval (by decide) hplain.padH) (hone hplain.strideH)
      (hone hplain.dilationH) hp.height hkh,
    Plain.axis h.strideW h.width (hval (by decide) hplain.padW) (hone hplain.strideW)
      (hone hplain.dilationW) hp.width hkw⟩

theorem Plain.inputIndex_toNat {p : Coordinate} (hp : params.output.Valid p) {kh kw ic : ℕ}
    (hkh : kh < params.kernelH.toNat) (hkw : kw < params.kernelW.toNat)
    (hic : ic < (params.input.dims 3).toNat) :
    (inputIndex params p (BitVec.ofNat 32 kh) (BitVec.ofNat 32 kw) (BitVec.ofNat 32 ic)).toNat
        = params.input.position p.n.toNat (p.h.toNat + kh) (p.w.toNat + kw) ic ∧
      params.input.position p.n.toNat (p.h.toNat + kh) (p.w.toNat + kw) ic
        < params.input.elementCount := by
  obtain ⟨⟨_, hy⟩, _, hx⟩ := hplain.tap h hp hkh hkw
  have hn : p.n.toNat < (params.input.dims 0).toNat := by
    rw [h.batch]
    exact hp.batch
  have hlt := TensorDesc.position_lt hn hy hx hic
  refine ⟨?_, hlt⟩
  rw [inputIndex_ofNat h.input, BitVec.toNat_ofNat,
    Nat.mod_eq_of_lt (Nat.lt_of_lt_of_le hlt h.input.count_le)]

theorem Plain.convValue_eq (m : Cells) {p : Coordinate} (hp : params.output.Valid p) :
    convValue params p m = convolution params m p := by
  have hc : p.c.toNat = 0 := by
    have hlt := hp.channel
    rw [hplain.channel] at hlt
    exact Nat.lt_one_iff.mp hlt
  refine congrArg (· + biasValue params p m) (Finset.sum_congr rfl fun kh hkh =>
    Finset.sum_congr rfl fun kw hkw => Finset.sum_congr rfl fun ic hic => ?_)
  simp only [Finset.mem_range] at hkh hkw hic
  obtain ⟨⟨hy, hylt⟩, hx, hxlt⟩ := hplain.tap h hp hkh hkw
  have hinside : 0 ≤ ((p.h.toNat + kh : ℕ) : ℤ) ∧
      ((p.h.toNat + kh : ℕ) : ℤ) < (params.input.dims 1).toNat ∧
      0 ≤ ((p.w.toNat + kw : ℕ) : ℤ) ∧
      ((p.w.toNat + kw : ℕ) : ℤ) < (params.input.dims 2).toNat := by
    omega
  rw [tapValue, (hplain.inputIndex_toNat h hp hkh hkw hic).1, h.weightIndex_toNat hp hkh hkw hic,
    inputAt, hy, hx, if_pos hinside, Int.toNat_natCast, Int.toNat_natCast, hc]

end Plain

theorem range_toNat_zero {x : BitVec 16} (hx : x = 0) : Finset.range x.toNat = ∅ := by
  rw [hx]
  rfl

theorem NoTaps.convValue_eq {params : ConvParams} (hnone : NoTaps params) (m : Cells)
    (p : Coordinate) : convValue params p m = convolution params m p := by
  rcases hnone with hz | hz | hz <;>
    simp [convValue, sumValue, convolution, range_toNat_zero hz]

theorem Consistent.convolves_of {params : ConvParams} (h : Consistent params)
    (hcond : params.output.elementCount = 0 ∨ NoTaps params ∨ Plain params) : Convolves params := by
  rw [h.convolves_iff_values]
  have hbias : params.bias.addr ≠ 0 → ∀ p, params.output.Valid p →
      p.c.toNat < params.bias.elementCount := fun hb p hp => by
    rw [(h.bias hb).count]
    exact hp.channel
  rcases hcond with hnone | hnone | hplain
  · have hempty := TensorDesc.not_valid_of_empty hnone
    exact ⟨fun p hp => absurd hp (hempty p), fun _ p hp => absurd hp (hempty p)⟩
  · refine ⟨fun p hp r hr => ?_, fun m p _ => by rw [hnone.convValue_eq]⟩
    rcases mem_convReads.mp hr with ⟨kh, hkh, kw, hkw, ic, hic, _⟩ | ⟨hb, rfl⟩
    · have hsome : ∀ {k : ℕ} {x : BitVec 16}, k < x.toNat → x ≠ 0 := by
        rintro k _ hk rfl
        exact Nat.not_lt_zero k hk
      rcases hnone with hz | hz | hz
      · exact absurd hz (hsome hkh)
      · exact absurd hz (hsome hkw)
      · exact absurd hz (hsome hic)
    · exact hbias hb p hp
  · refine ⟨fun p hp r hr => ?_, fun m p hp => by rw [hplain.convValue_eq h m hp]⟩
    rcases mem_convReads.mp hr with ⟨kh, hkh, kw, hkw, ic, hic, rfl | rfl⟩ | ⟨hb, rfl⟩
    · obtain ⟨hindex, hlt⟩ := hplain.inputIndex_toNat h hp hkh hkw hic
      exact hindex ▸ hlt
    · exact (h.weightIndex_toNat hp hkh hkw hic).trans_lt
        (h.weight_position (Nat.zero_lt_of_lt hp.channel) hkh hkw hic)
    · exact hbias hb p hp

/-! ## Probing with one input element and one weight -/

/-- What encodes the number 1. -/
def one (dtype : Byte) : ℚ := if dtype = 1 then 1000 else 1

/-- A memory in which input element `i` and weight `j` are 1 and all else is 0. -/
def probe (params : ConvParams) (i j : ℕ) : Cells := fun a =>
  if a = params.input.cell i then one params.input.dtype
  else if a = params.weight.cell j then one params.weight.dtype
  else 0

theorem decode_zero (dtype : Byte) : decode dtype 0 = 0 := by
  unfold decode
  split <;> simp

theorem known_cases {dtype : Byte} (hk : dtype.toNat < 4) :
    dtype = 0 ∨ dtype = 1 ∨ dtype = 2 ∨ dtype = 3 := by
  have hcases : dtype.toNat = 0 ∨ dtype.toNat = 1 ∨ dtype.toNat = 2 ∨ dtype.toNat = 3 := by omega
  rcases hcases with h | h | h | h
  · exact .inl (BitVec.eq_of_toNat_eq h)
  · exact .inr (.inl (BitVec.eq_of_toNat_eq h))
  · exact .inr (.inr (.inl (BitVec.eq_of_toNat_eq h)))
  · exact .inr (.inr (.inr (BitVec.eq_of_toNat_eq h)))

theorem decode_one {dtype : Byte} (hk : dtype.toNat < 4) : decode dtype (one dtype) = 1 := by
  rcases known_cases hk with rfl | rfl | rfl | rfl <;> simp [decode, one]

theorem round_natCast (n : ℕ) : round n = n := by
  rw [round, if_pos (Nat.cast_nonneg n), Int.floor_eq_iff]
  constructor
  · push_cast
    linarith
  · push_cast
    linarith

theorem truncate_natCast (n : ℕ) : truncate n = n := by
  rw [truncate, if_pos (Nat.cast_nonneg n)]
  exact Int.floor_natCast n

/-- A type tells 1 from 0. -/
theorem stored_one_ne {dtype : Byte} (hk : dtype.toNat < 4) : stored dtype 1 ≠ stored dtype 0 := by
  have hround : round 1 = 1 := by exact_mod_cast round_natCast 1
  have hround0 : round 0 = 0 := by exact_mod_cast round_natCast 0
  have htruncate : truncate 1000 = 1000 := by exact_mod_cast truncate_natCast 1000
  have htruncate0 : truncate 0 = 0 := by exact_mod_cast truncate_natCast 0
  rcases known_cases hk with rfl | rfl | rfl | rfl
  · simp [stored, encode, decode]
  · simp [stored, encode, decode, htruncate, htruncate0]
  · simp [stored, encode, decode, hround, hround0, Int.bmod]
  · simp [stored, encode, decode, hround, hround0]

/-- A sum over the taps with one term that is not zero. -/
theorem sum_taps_eq_single {a b c : ℕ} {f : ℕ → ℕ → ℕ → ℚ} {kh kw ic : ℕ} (hkh : kh < a)
    (hkw : kw < b) (hic : ic < c)
    (hf : ∀ kh' < a, ∀ kw' < b, ∀ ic' < c, ¬(kh' = kh ∧ kw' = kw ∧ ic' = ic) → f kh' kw' ic' = 0) :
    ∑ kh' ∈ Finset.range a, ∑ kw' ∈ Finset.range b, ∑ ic' ∈ Finset.range c, f kh' kw' ic'
      = f kh kw ic := by
  have hzero : ∀ kh' < a, ∀ kw' < b, ¬(kh' = kh ∧ kw' = kw) →
      ∑ ic' ∈ Finset.range c, f kh' kw' ic' = 0 := fun kh' hkh' kw' hkw' hne =>
    Finset.sum_eq_zero fun ic' hic' =>
      hf kh' hkh' kw' hkw' ic' (Finset.mem_range.mp hic') fun heq => hne ⟨heq.1, heq.2.1⟩
  rw [Finset.sum_eq_single kh, Finset.sum_eq_single kw, Finset.sum_eq_single ic]
  · exact fun ic' hic' hne => hf kh hkh kw hkw ic' (Finset.mem_range.mp hic') fun heq => hne heq.2.2
  · exact fun hnot => absurd (Finset.mem_range.mpr hic) hnot
  · exact fun kw' hkw' hne => hzero kh hkh kw' (Finset.mem_range.mp hkw') fun heq => hne heq.2
  · exact fun hnot => absurd (Finset.mem_range.mpr hkw) hnot
  · exact fun kh' hkh' hne => Finset.sum_eq_zero fun kw' hkw' =>
      hzero kh' (Finset.mem_range.mp hkh') kw' (Finset.mem_range.mp hkw') fun heq => hne heq.1
  · exact fun hnot => absurd (Finset.mem_range.mpr hkh) hnot

section Probe

variable {params : ConvParams} (h : Consistent params) {i j : ℕ}

include h

theorem Consistent.probe_input (hj : j < params.weight.elementCount) {i' : ℕ}
    (hi' : i' < params.input.elementCount) :
    params.input.element (probe params i j) i' = if i' = i then 1 else 0 := by
  have hne := h.inputWeight.cell_ne hi' hj
  by_cases heq : i' = i
  · rw [if_pos heq, TensorDesc.element, probe, if_pos (by rw [heq]), decode_one h.input.known]
  · have hcell : params.input.cell i' ≠ params.input.cell i := fun hc =>
      heq (TensorDesc.cell_inj hc)
    rw [if_neg heq, TensorDesc.element, probe, if_neg hcell, if_neg hne, decode_zero]

theorem Consistent.probe_weight (hi : i < params.input.elementCount) {j' : ℕ}
    (hj' : j' < params.weight.elementCount) :
    params.weight.element (probe params i j) j' = if j' = j then 1 else 0 := by
  have hne := (h.inputWeight.cell_ne hi hj').symm
  by_cases heq : j' = j
  · rw [if_pos heq, TensorDesc.element, probe, if_neg hne, if_pos (by rw [heq]),
      decode_one h.weight.known]
  · have hcell : params.weight.cell j' ≠ params.weight.cell j := fun hc =>
      heq (TensorDesc.cell_inj hc)
    rw [if_neg heq, TensorDesc.element, probe, if_neg hne, if_neg hcell, decode_zero]

theorem Consistent.probe_bias (hi : i < params.input.elementCount)
    (hj : j < params.weight.elementCount) {p : Coordinate} (hp : params.output.Valid p) :
    biasValue params p (probe params i j) = 0 := by
  unfold biasValue
  split
  case isFalse => rfl
  case isTrue hb =>
    have hc : p.c.toNat < params.bias.elementCount := by
      rw [(h.bias hb).count]
      exact hp.channel
    rw [TensorDesc.element, probe, if_neg ((h.bias hb).input.cell_ne hi hc).symm,
      if_neg ((h.bias hb).weight.cell_ne hj hc).symm, decode_zero]

/-- The products of the probe's input element with its weight: the code finds 1 where it
reads the two together. -/
theorem Consistent.convValue_probe {p : Coordinate} (hp : params.output.Valid p)
    (hreads : ∀ r ∈ convReads params p, r.2.toNat < r.1.elementCount) {kh kw ic : ℕ}
    (hkh : kh < params.kernelH.toNat) (hkw : kw < params.kernelW.toNat)
    (hic : ic < (params.input.dims 3).toNat)
    (hi : i = (inputIndex params p (BitVec.ofNat 32 kh) (BitVec.ofNat 32 kw)
      (BitVec.ofNat 32 ic)).toNat) :
    convValue params p (probe params i (params.weight.position 0 kh kw ic)) = 1 := by
  have hc := Nat.zero_lt_of_lt hp.channel
  have hread : ∀ kh < params.kernelH.toNat, ∀ kw < params.kernelW.toNat,
      ∀ ic < (params.input.dims 3).toNat,
      (inputIndex params p (BitVec.ofNat 32 kh) (BitVec.ofNat 32 kw) (BitVec.ofNat 32 ic)).toNat
        < params.input.elementCount := fun kh hkh kw hkw ic hic =>
    hreads _ (mem_convReads.mpr (.inl ⟨kh, hkh, kw, hkw, ic, hic, .inl rfl⟩))
  have hiin : i < params.input.elementCount := hi ▸ hread kh hkh kw hkw ic hic
  have hjin := h.weight_position hc hkh hkw hic
  rw [convValue, sumValue, h.probe_bias hiin hjin hp, add_zero, sum_taps_eq_single hkh hkw hic]
  · rw [tapValue, h.probe_input hjin (hread kh hkh kw hkw ic hic), if_pos hi.symm,
      h.weightIndex_toNat hp hkh hkw hic, h.probe_weight hiin hjin, if_pos rfl, one_mul]
  · intro kh' hkh' kw' hkw' ic' hic' hne
    have hother : params.weight.position 0 kh' kw' ic' ≠ params.weight.position 0 kh kw ic := by
      intro heq
      obtain ⟨h1, h2, h3⟩ := h.weight_digits hkh' hkw' hic'
      obtain ⟨h1', h2', h3'⟩ := h.weight_digits hkh hkw hic
      exact hne (TensorDesc.position_inj h1 h2 h3 h1' h2' h3' heq).2
    rw [tapValue, h.weightIndex_toNat hp hkh' hkw' hic',
      h.probe_weight hiin (h.weight_position hc hkh' hkw' hic'), if_neg hother, mul_zero]

/-- The convolution finds nothing unless the two meet in it. -/
theorem Consistent.convolution_probe {p : Coordinate} (hp : params.output.Valid p) {kh kw ic : ℕ}
    (hkh : kh < params.kernelH.toNat) (hkw : kw < params.kernelW.toNat)
    (hic : ic < (params.input.dims 3).toNat) (hi : i < params.input.elementCount)
    (hne : p.c.toNat = 0 →
      inputAt params (probe params i (params.weight.position 0 kh kw ic)) p.n.toNat
        (tapPosition p.h.toNat kh params.strideH.toNat params.padH.toNat params.dilationH.toNat)
        (tapPosition p.w.toNat kw params.strideW.toNat params.padW.toNat params.dilationW.toNat)
        ic = 0) :
    convolution params (probe params i (params.weight.position 0 kh kw ic)) p = 0 := by
  have hjin := h.weight_position (Nat.zero_lt_of_lt hp.channel) hkh hkw hic
  rw [convolution, h.probe_bias hi hjin hp, add_zero]
  refine Finset.sum_eq_zero fun kh' hkh' => Finset.sum_eq_zero fun kw' hkw' =>
    Finset.sum_eq_zero fun ic' hic' => ?_
  simp only [Finset.mem_range] at hkh' hkw' hic'
  rw [h.probe_weight hi (h.weight_position hp.channel hkh' hkw' hic')]
  by_cases heq : params.weight.position p.c.toNat kh' kw' ic' = params.weight.position 0 kh kw ic
  · obtain ⟨h1, h2, h3⟩ := h.weight_digits hkh' hkw' hic'
    obtain ⟨h1', h2', h3'⟩ := h.weight_digits hkh hkw hic
    obtain ⟨hc, rfl, rfl, rfl⟩ := TensorDesc.position_inj h1 h2 h3 h1' h2' h3' heq
    rw [hne hc, zero_mul]
  · rw [if_neg heq, mul_zero]

/-- Where the code is right, what it reads for a tap is what the convolution has there. -/
theorem Convolves.tap (hconv : Convolves params) {p : Coordinate} (hp : params.output.Valid p)
    {kh kw ic : ℕ} (hkh : kh < params.kernelH.toNat) (hkw : kw < params.kernelW.toNat)
    (hic : ic < (params.input.dims 3).toNat) :
    p.c.toNat = 0 ∧ ∃ y < (params.input.dims 1).toNat, ∃ x < (params.input.dims 2).toNat,
      tapPosition p.h.toNat kh params.strideH.toNat params.padH.toNat params.dilationH.toNat = y ∧
      tapPosition p.w.toNat kw params.strideW.toNat params.padW.toNat params.dilationW.toNat = x ∧
      params.input.position p.n.toNat y x ic
        = params.input.position p.n.toNat (p.h.toNat + kh) (p.w.toNat + kw) ic % 2 ^ 32 := by
  obtain ⟨hreads, hvalues⟩ := h.convolves_iff_values.mp hconv
  have hjin := h.weight_position (Nat.zero_lt_of_lt hp.channel) hkh hkw hic
  have hindex : (inputIndex params p (BitVec.ofNat 32 kh) (BitVec.ofNat 32 kw)
      (BitVec.ofNat 32 ic)).toNat
      = params.input.position p.n.toNat (p.h.toNat + kh) (p.w.toNat + kw) ic % 2 ^ 32 := by
    rw [inputIndex_ofNat h.input, BitVec.toNat_ofNat]
  have hi := hreads p hp _ (mem_convReads.mpr (.inl ⟨kh, hkh, kw, hkw, ic, hic, .inl rfl⟩))
  have hone := h.convValue_probe hp (hreads p hp) hkh hkw hic rfl
  -- Were the product not in the convolution, it would find 0 where the code finds 1.
  have hmeet : ¬ (p.c.toNat = 0 → inputAt params _ p.n.toNat
      (tapPosition p.h.toNat kh params.strideH.toNat params.padH.toNat params.dilationH.toNat)
      (tapPosition p.w.toNat kw params.strideW.toNat params.padW.toNat params.dilationW.toNat)
      ic = 0) :=
    fun hne => stored_one_ne h.output.known (by
      rw [← hone, hvalues _ p hp, h.convolution_probe hp hkh hkw hic hi hne])
  obtain ⟨hc, hsome⟩ := Classical.not_imp.mp hmeet
  refine ⟨hc, ?_⟩
  unfold inputAt at hsome
  split at hsome
  case isFalse => exact absurd rfl hsome
  case isTrue hinside =>
    obtain ⟨hy, hylt, hx, hxlt⟩ := hinside
    refine ⟨_, by omega, _, by omega, (Int.toNat_of_nonneg hy).symm,
      (Int.toNat_of_nonneg hx).symm, ?_⟩
    have hn : p.n.toNat < (params.input.dims 0).toNat := by
      rw [h.batch]
      exact hp.batch
    rw [h.probe_input hjin (TensorDesc.position_lt hn (by omega) (by omega) hic)] at hsome
    by_contra hdiff
    exact hsome (if_neg fun heq => hdiff (heq.trans hindex))

end Probe

/-! ## Where the code is right -/

theorem TensorDesc.row_eq_one {t : TensorDesc} {y : ℕ} (hw : 0 < (t.dims 2).toNat)
    (hc : 0 < (t.dims 3).toNat) (heq : t.position 0 y 0 0 = t.position 0 1 0 0 % 2 ^ 32) :
    y = 1 := by
  have hrow : ∀ y, t.position 0 y 0 0 = y * ((t.dims 2).toNat * (t.dims 3).toNat) := fun y => by
    simp only [position]
    ring
  have hsmall : (t.dims 2).toNat * (t.dims 3).toNat < 2 ^ 16 * 2 ^ 16 :=
    Nat.mul_lt_mul'' (t.dims 2).isLt (t.dims 3).isLt
  rw [hrow, hrow, Nat.mod_eq_of_lt (by omega)] at heq
  exact Nat.eq_of_mul_eq_mul_right (Nat.mul_pos hw hc) heq

theorem TensorDesc.column_eq_one {t : TensorDesc} {x : ℕ} (hc : 0 < (t.dims 3).toNat)
    (heq : t.position 0 0 x 0 = t.position 0 0 1 0 % 2 ^ 32) : x = 1 := by
  have hcolumn : ∀ x, t.position 0 0 x 0 = x * (t.dims 3).toNat := fun x => by
    simp only [position]
    ring
  have hsmall := (t.dims 3).isLt
  rw [hcolumn, hcolumn, Nat.mod_eq_of_lt (by omega)] at heq
  exact Nat.eq_of_mul_eq_mul_right hc heq

theorem eq_one_or {x : BitVec 16} (hx : x ≠ 0) : x = 1 ∨ 1 < x.toNat := by
  have hne : x.toNat ≠ 0 := fun h => hx (BitVec.eq_of_toNat_eq h)
  by_cases hone : x.toNat = 1
  · exact .inl (BitVec.eq_of_toNat_eq hone)
  · exact .inr (by omega)

theorem toNat_pos_of_ne {x : BitVec 16} (hx : x ≠ 0) : 0 < x.toNat :=
  Nat.pos_of_ne_zero fun h => hx (BitVec.eq_of_toNat_eq h)

section Right

variable {params : ConvParams} (h : Consistent params) (hconv : Convolves params)
  (hfirst : params.output.Valid ⟨0, 0, 0, 0⟩) (hkh : 0 < params.kernelH.toNat)
  (hkw : 0 < params.kernelW.toNat) (hic : 0 < (params.input.dims 3).toNat)

include h hconv hfirst hkh hkw hic

/-- The first tap of the first output. -/
theorem Convolves.unpadded : params.padH.toNat = 0 ∧ params.padW.toNat = 0 ∧
    0 < (params.input.dims 2).toNat := by
  obtain ⟨_, y, _, x, hxlt, hy, hx, _⟩ := hconv.tap h hfirst hkh hkw hic
  have hz : (0 : Word).toNat = 0 := rfl
  simp only [tapPosition, hz] at hy hx
  exact ⟨by omega, by omega, Nat.zero_lt_of_lt hxlt⟩

/-- The second row, reached by an output or by a row of the kernel. -/
theorem Convolves.row_step {o : Word} {k : ℕ} (ho : o.toNat < (params.output.dims 1).toNat)
    (hk : k < params.kernelH.toNat) (hok : o.toNat + k = 1) :
    o.toNat * params.strideH.toNat + k * params.dilationH.toNat = 1 := by
  obtain ⟨hpadH, hpadW, hwidth⟩ := hconv.unpadded h hfirst hkh hkw hic
  have hz : (0 : Word).toNat = 0 := rfl
  have hp : params.output.Valid ⟨0, o, 0, 0⟩ := ⟨hfirst.batch, ho, hfirst.width, hfirst.channel⟩
  obtain ⟨_, y, _, x, _, hy, hx, heq⟩ := hconv.tap h hp hk hkw hic
  simp only [tapPosition, hpadH, hpadW, hz] at hy hx
  have hx0 : x = 0 := by omega
  subst hx0
  simp only [hz, hok, Nat.add_zero] at heq
  have hy1 := TensorDesc.row_eq_one hwidth hic heq
  exact_mod_cast (sub_zero _).symm.trans (hy.trans (congrArg _ hy1))

/-- The second column. -/
theorem Convolves.column_step {o : Word} {k : ℕ} (ho : o.toNat < (params.output.dims 2).toNat)
    (hk : k < params.kernelW.toNat) (hok : o.toNat + k = 1) :
    o.toNat * params.strideW.toNat + k * params.dilationW.toNat = 1 := by
  obtain ⟨hpadH, hpadW, _⟩ := hconv.unpadded h hfirst hkh hkw hic
  have hz : (0 : Word).toNat = 0 := rfl
  have hp : params.output.Valid ⟨0, 0, o, 0⟩ := ⟨hfirst.batch, hfirst.height, ho, hfirst.channel⟩
  obtain ⟨_, y, _, x, _, hy, hx, heq⟩ := hconv.tap h hp hkh hk hic
  simp only [tapPosition, hpadH, hpadW, hz] at hy hx
  have hy0 : y = 0 := by omega
  subst hy0
  simp only [hz, hok, Nat.add_zero] at heq
  have hx1 := TensorDesc.column_eq_one hic heq
  exact_mod_cast (sub_zero _).symm.trans (hx.trans (congrArg _ hx1))

end Right

theorem Convolves.plain {params : ConvParams} (h : Consistent params) (hconv : Convolves params)
    (hsome : params.output.elementCount ≠ 0) (htaps : ¬ NoTaps params) : Plain params := by
  simp only [TensorDesc.elementCount, ne_eq, Nat.mul_eq_zero, not_or] at hsome
  obtain ⟨⟨⟨hn0, hh0⟩, hw0⟩, hc0⟩ := hsome
  simp only [NoTaps, not_or] at htaps
  obtain ⟨hkh0, hkw0, hic0⟩ := htaps
  have hkh := toNat_pos_of_ne hkh0
  have hkw := toNat_pos_of_ne hkw0
  have hic := toNat_pos_of_ne hic0
  have hfirst : params.output.Valid ⟨0, 0, 0, 0⟩ :=
    ⟨Nat.pos_of_ne_zero hn0, Nat.pos_of_ne_zero hh0, Nat.pos_of_ne_zero hw0, Nat.pos_of_ne_zero hc0⟩
  obtain ⟨hpadH, hpadW, _⟩ := hconv.unpadded h hfirst hkh hkw hic
  have hne : ∀ {x : BitVec 16}, x.toNat ≠ 0 → x ≠ 0 := fun hx h => hx (congrArg BitVec.toNat h)
  -- a product with 1 shows the stride, one with 0 the dilation
  have hstride : ∀ {s d : BitVec 16}, (1 : Word).toNat * s.toNat + 0 * d.toNat = 1 → s = 1 :=
    fun hs => BitVec.eq_of_toNat_eq (by simpa using hs)
  have hdilation : ∀ {s d : BitVec 16}, (0 : Word).toNat * s.toNat + 1 * d.toNat = 1 → d = 1 :=
    fun hd => BitVec.eq_of_toNat_eq (by simpa using hd)
  have hrow := fun {o : Word} {k : ℕ} => hconv.row_step h hfirst hkh hkw hic (o := o) (k := k)
  have hcolumn := fun {o : Word} {k : ℕ} => hconv.column_step h hfirst hkh hkw hic (o := o) (k := k)
  refine ⟨?_, BitVec.eq_of_toNat_eq hpadH, BitVec.eq_of_toNat_eq hpadW, ?_, ?_, ?_, ?_⟩
  · refine (eq_one_or (hne hc0)).resolve_right fun hlt => ?_
    have hp : params.output.Valid ⟨0, 0, 0, 1⟩ := ⟨hfirst.batch, hfirst.height, hfirst.width, hlt⟩
    exact absurd (hconv.tap h hp hkh hkw hic).1 (by decide)
  · exact (eq_one_or (hne hh0)).imp_right fun hlt => hstride (hrow hlt hkh rfl)
  · exact (eq_one_or (hne hw0)).imp_right fun hlt => hstride (hcolumn hlt hkw rfl)
  · exact (eq_one_or hkh0).imp_right fun hlt => hdilation (hrow hfirst.height hlt rfl)
  · exact (eq_one_or hkw0).imp_right fun hlt => hdilation (hcolumn hfirst.width hlt rfl)

/-- For separate channels-last tensors with the shapes of a convolution of one group: the code
computes the convolution, and reads elements of its tensors only, if and only if there is no
output, or the sums are empty, or there is one output channel, no padding, and no stride or
dilation that matters. -/
theorem convolves_iff {params : ConvParams} (h : Consistent params) : Convolves params ↔
    params.output.elementCount = 0 ∨ NoTaps params ∨ Plain params := by
  refine ⟨fun hconv => ?_, h.convolves_of⟩
  by_cases hsome : params.output.elementCount = 0
  · exact .inl hsome
  · by_cases htaps : NoTaps params
    · exact .inr (.inl htaps)
    · exact .inr (.inr (hconv.plain h hsome htaps))

/-- A row of three elements, every second of which goes through a kernel of one weight. -/
def strideTwo : ConvParams where
  input := ⟨0, ![1, 1, 3, 1], 0, 1⟩
  output := ⟨32, ![1, 1, 2, 1], 0, 1⟩
  weight := ⟨16, ![1, 1, 1, 1], 0, 1⟩
  bias := ⟨0, ![0, 0, 0, 0], 0, 1⟩
  kernelH := 1
  kernelW := 1
  strideH := 1
  strideW := 2
  padH := 0
  padW := 0
  dilationH := 1
  dilationW := 1
  groups := 1

theorem strideTwo_consistent : Consistent strideTwo where
  input := ⟨by decide, rfl, by decide⟩
  output := ⟨by decide, rfl, by decide⟩
  weight := ⟨by decide, rfl, by decide⟩
  bias := fun h => absurd rfl h
  inputWeight := .inl (by decide)
  outputInput := .inr (by decide)
  outputWeight := .inr (by decide)
  groups := rfl
  batch := rfl
  weightDims := rfl
  strideH := by decide
  strideW := by decide
  height := by decide
  width := by decide

/-- Three rows of three elements in two channels through a kernel of four positions, with
a bias. -/
def box : ConvParams where
  input := ⟨0, ![1, 3, 3, 2], 0, 1⟩
  output := ⟨104, ![1, 2, 2, 1], 0, 1⟩
  weight := ⟨72, ![1, 2, 2, 2], 0, 1⟩
  bias := ⟨120, ![1, 1, 1, 1], 0, 1⟩
  kernelH := 2
  kernelW := 2
  strideH := 1
  strideW := 1
  padH := 0
  padW := 0
  dilationH := 1
  dilationW := 1
  groups := 1

theorem box_consistent : Consistent box where
  input := ⟨by decide, rfl, by decide⟩
  output := ⟨by decide, rfl, by decide⟩
  weight := ⟨by decide, rfl, by decide⟩
  bias := fun _ => ⟨⟨by decide, rfl, by decide⟩, by decide, .inl (by decide), .inl (by decide),
    .inl (by decide)⟩
  inputWeight := .inl (by decide)
  outputInput := .inr (by decide)
  outputWeight := .inr (by decide)
  groups := rfl
  batch := rfl
  weightDims := rfl
  strideH := by decide
  strideW := by decide
  height := by decide
  width := by decide

theorem convolves_iff_kernels : Convolves box ∧ ¬ Convolves strideTwo := by
  refine ⟨(convolves_iff box_consistent).mpr (.inr (.inr ?_)), fun hconv => ?_⟩
  · exact ⟨rfl, rfl, rfl, .inr rfl, .inr rfl, .inr rfl, .inr rfl⟩
  · rcases (convolves_iff strideTwo_consistent).mp hconv with h | h | h
    · exact absurd h (by decide)
    · rcases h with h | h | h <;> exact absurd h (by decide)
    · exact absurd h.strideW (by decide)

/-- With the weight 1 and the element in the middle 1, the second output becomes 1: the
convolution has the last element there, which is 0. -/
theorem not_all_convolve : ¬ ∀ params, Consistent params → Convolves params := by
  intro h
  have hp : strideTwo.output.Valid ⟨0, 0, 1, 0⟩ := ⟨by decide, by decide, by decide, by decide⟩
  have hvalue := (h strideTwo strideTwo_consistent
    ⟨{}, fun a => if a = 4 ∨ a = 16 then 1 else 0, []⟩ rfl).2 _ hp
  revert hvalue
  decide +kernel

end RiscvEmulator.Ai
