import RiscvEmulator.Lib.MixedRadix
import RiscvEmulator.Memory.Word
import Mathlib.Data.Set.Function
import Mathlib.Data.Fin.VecNotation
import Mathlib.Tactic.Ring

/-! # Tensors of the AI unit

A descriptor gives the four dimensions, always in the order batch, height, width,
channels, and the layout says in which order the elements lie in memory. The
channels-last index is a four-digit number over the dimensions. The channels-first
one steps from row to row by the number of channels where a row has `dims[2]`
elements, so it tells the elements apart only where that makes no difference. -/
namespace RiscvEmulator.Ai
open Memory Lib.MixedRadix

/-- The axes are numbered 0 to 3. -/
scoped instance four_axes : NeZero 4 := ⟨by decide⟩

structure TensorDesc where
  addr : Word
  /-- [batch, height, width, channels] -/
  dims : Fin 4 → BitVec 16
  dtype : Byte
  /-- 0 = NCHW, 1 = NHWC -/
  layout : Byte

/-- Where an element stands in its tensor, in the code's `uint32_t`. -/
structure Coordinate where
  n : Word
  h : Word
  w : Word
  c : Word
deriving DecidableEq

theorem Coordinate.eq_of_toNat {p p' : Coordinate} (hn : p.n.toNat = p'.n.toNat)
    (hh : p.h.toNat = p'.h.toNat) (hw : p.w.toNat = p'.w.toNat) (hc : p.c.toNat = p'.c.toNat) :
    p = p' := by
  cases p
  cases p'
  simp only [Coordinate.mk.injEq]
  exact ⟨BitVec.eq_of_toNat_eq hn, BitVec.eq_of_toNat_eq hh, BitVec.eq_of_toNat_eq hw,
    BitVec.eq_of_toNat_eq hc⟩

namespace TensorDesc

/-- A dimension as it enters `uint32_t` arithmetic. -/
def dim (t : TensorDesc) (k : Fin 4) : Word := (t.dims k).setWidth 32

/-- The product is one of `int`s, undefined in C++ from 2^31 on; here it is taken modulo
2^32. -/
def totalElements (t : TensorDesc) : Word := t.dim 0 * t.dim 1 * t.dim 2 * t.dim 3

/-- The bytes one element takes, as `size_bytes` counts them. -/
def elementSize (t : TensorDesc) : ℕ := if t.dtype = 0 then 4 else if t.dtype = 1 then 2 else 1

/-- `get_tensor_index`. -/
def getTensorIndex (t : TensorDesc) (p : Coordinate) : Word :=
  if t.layout = 0 then
    p.n * t.dim 1 * t.dim 2 * t.dim 3 + p.c * t.dim 1 * t.dim 2 + p.h * t.dim 3 + p.w
  else
    p.n * t.dim 1 * t.dim 2 * t.dim 3 + p.h * t.dim 2 * t.dim 3 + p.w * t.dim 3 + p.c

/-- How many elements the descriptor speaks of, with no limit on the count. -/
def elementCount (t : TensorDesc) : ℕ :=
  (t.dims 0).toNat * (t.dims 1).toNat * (t.dims 2).toNat * (t.dims 3).toNat

structure Valid (t : TensorDesc) (p : Coordinate) : Prop where
  batch : p.n.toNat < (t.dims 0).toNat
  height : p.h.toNat < (t.dims 1).toNat
  width : p.w.toNat < (t.dims 2).toNat
  channel : p.c.toNat < (t.dims 3).toNat

/-- The index tells the elements of the tensor apart and stays in the tensor. -/
structure Indexed (t : TensorDesc) : Prop where
  injective : Set.InjOn t.getTensorIndex {p | t.Valid p}
  below : ∀ p, t.Valid p → t.getTensorIndex p < t.totalElements

/-! ## The index as a number -/

theorem totalElements_toNat (t : TensorDesc) :
    t.totalElements.toNat = t.elementCount % 2 ^ 32 := by
  have h : t.totalElements = BitVec.ofNat 32 t.elementCount := by
    simp only [totalElements, dim, elementCount, BitVec.ofNat_mul, BitVec.ofNat_toNat]
  rw [h, BitVec.toNat_ofNat]

/-- The four-digit number of an element whose channel moves fastest. -/
def position (t : TensorDesc) (n h w c : ℕ) : ℕ :=
  ((n * (t.dims 1).toNat + h) * (t.dims 2).toNat + w) * (t.dims 3).toNat + c

def nhwcIndex (t : TensorDesc) (p : Coordinate) : ℕ :=
  t.position p.n.toNat p.h.toNat p.w.toNat p.c.toNat

/-- The channels-first index of the code: row `h` begins `dims[3]` behind the row before. -/
def nchwIndex (t : TensorDesc) (p : Coordinate) : ℕ :=
  (p.n.toNat * (t.dims 3).toNat + p.c.toNat) * ((t.dims 1).toNat * (t.dims 2).toNat)
    + (p.h.toNat * (t.dims 3).toNat + p.w.toNat)

/-- The channels-last index of the code, at coordinates that may have been counted in 32 bits. -/
theorem getTensorIndex_ofNat {t : TensorDesc} (ht : t.layout ≠ 0) (n h w c : ℕ) :
    t.getTensorIndex ⟨BitVec.ofNat 32 n, BitVec.ofNat 32 h, BitVec.ofNat 32 w, BitVec.ofNat 32 c⟩
      = BitVec.ofNat 32 (t.position n h w c) := by
  simp only [getTensorIndex, if_neg ht, dim, position, BitVec.ofNat_add, BitVec.ofNat_mul,
    BitVec.ofNat_toNat]
  ring

theorem getTensorIndex_nhwc {t : TensorDesc} (ht : t.layout ≠ 0) (p : Coordinate) :
    (t.getTensorIndex p).toNat = t.nhwcIndex p % 2 ^ 32 := by
  have h := getTensorIndex_ofNat ht p.n.toNat p.h.toNat p.w.toNat p.c.toNat
  simp only [BitVec.ofNat_toNat, BitVec.setWidth_eq] at h
  exact (congrArg BitVec.toNat h).trans (BitVec.toNat_ofNat _ 32)

theorem getTensorIndex_nchw {t : TensorDesc} (ht : t.layout = 0) (p : Coordinate) :
    (t.getTensorIndex p).toNat = t.nchwIndex p % 2 ^ 32 := by
  have h : t.getTensorIndex p = BitVec.ofNat 32 (t.nchwIndex p) := by
    simp only [getTensorIndex, if_pos ht, dim, nchwIndex, BitVec.ofNat_add, BitVec.ofNat_mul,
      BitVec.ofNat_toNat, BitVec.setWidth_eq]
    ring
  rw [h, BitVec.toNat_ofNat]

/-! ## Which indices tell the elements apart -/

theorem position_lt {t : TensorDesc} {n h w c : ℕ} (hn : n < (t.dims 0).toNat)
    (hh : h < (t.dims 1).toNat) (hw : w < (t.dims 2).toNat) (hc : c < (t.dims 3).toNat) :
    t.position n h w c < t.elementCount :=
  index_lt (index_lt (index_lt hn hh) hw) hc

theorem position_inj {t : TensorDesc} {n h w c n' h' w' c' : ℕ}
    (hh : h < (t.dims 1).toNat) (hw : w < (t.dims 2).toNat) (hc : c < (t.dims 3).toNat)
    (hh' : h' < (t.dims 1).toNat) (hw' : w' < (t.dims 2).toNat) (hc' : c' < (t.dims 3).toNat)
    (heq : t.position n h w c = t.position n' h' w' c') : n = n' ∧ h = h' ∧ w = w' ∧ c = c' := by
  obtain ⟨heq, hceq⟩ := index_inj hc hc' heq
  obtain ⟨heq, hweq⟩ := index_inj hw hw' heq
  obtain ⟨hneq, hheq⟩ := index_inj hh hh' heq
  exact ⟨hneq, hheq, hweq, hceq⟩

theorem nhwcIndex_lt {t : TensorDesc} {p : Coordinate} (hp : t.Valid p) :
    t.nhwcIndex p < t.elementCount :=
  position_lt hp.batch hp.height hp.width hp.channel

theorem nhwcIndex_inj {t : TensorDesc} {p p' : Coordinate} (hp : t.Valid p) (hp' : t.Valid p')
    (heq : t.nhwcIndex p = t.nhwcIndex p') : p = p' := by
  obtain ⟨hn, hh, hw, hc⟩ :=
    position_inj hp.height hp.width hp.channel hp'.height hp'.width hp'.channel heq
  exact Coordinate.eq_of_toNat hn hh hw hc

theorem not_valid_of_empty {t : TensorDesc} (hnone : t.elementCount = 0) (p : Coordinate) :
    ¬ t.Valid p := fun hp => by
  have := nhwcIndex_lt hp
  omega

/-- An index that is below the element count and differs from element to element
keeps both when it is counted in 32 bits. -/
theorem indexed_of {t : TensorDesc} (hcount : t.elementCount < 2 ^ 32) {f : Coordinate → ℕ}
    (hf : ∀ p, (t.getTensorIndex p).toNat = f p % 2 ^ 32)
    (hlt : ∀ p, t.Valid p → f p < t.elementCount)
    (hinj : ∀ p p', t.Valid p → t.Valid p' → f p = f p' → p = p') : t.Indexed := by
  have hval : ∀ p, t.Valid p → (t.getTensorIndex p).toNat = f p := fun p hp => by
    rw [hf, Nat.mod_eq_of_lt (Nat.lt_trans (hlt p hp) hcount)]
  refine ⟨fun p hp p' hp' h => ?_, fun p hp => ?_⟩
  · refine hinj p p' hp hp' ?_
    rw [← hval p hp, ← hval p' hp', h]
  · rw [BitVec.lt_def, hval p hp, totalElements_toNat, Nat.mod_eq_of_lt hcount]
    exact hlt p hp

theorem indexed_nhwc {t : TensorDesc} (hcount : t.elementCount < 2 ^ 32) (ht : t.layout ≠ 0) :
    t.Indexed :=
  indexed_of hcount (getTensorIndex_nhwc ht) (fun _ => nhwcIndex_lt) fun _ _ => nhwcIndex_inj

/-- Where the channels-first code puts an element of the first channel: `dims[3]`
from row to row. -/
def rowOffset (t : TensorDesc) (i : Fin (t.dims 1).toNat × Fin (t.dims 2).toNat) : ℕ :=
  i.1 * (t.dims 3).toNat + i.2

theorem indexed_nchw {t : TensorDesc} (hcount : t.elementCount < 2 ^ 32) (ht : t.layout = 0)
    (hlt : ∀ i, t.rowOffset i < (t.dims 1).toNat * (t.dims 2).toNat)
    (hinj : Function.Injective t.rowOffset) : t.Indexed := by
  refine indexed_of hcount (getTensorIndex_nchw ht) (fun p hp => ?_) fun p p' hp hp' h => ?_
  · have hrow := hlt (⟨p.h.toNat, hp.height⟩, ⟨p.w.toNat, hp.width⟩)
    have hbelow := index_lt (index_lt hp.batch hp.channel) hrow
    have hsize : (t.dims 0).toNat * (t.dims 3).toNat * ((t.dims 1).toNat * (t.dims 2).toNat)
        = t.elementCount := by
      simp only [elementCount]
      ring
    exact hsize ▸ hbelow
  · have hrow := hlt (⟨p.h.toNat, hp.height⟩, ⟨p.w.toNat, hp.width⟩)
    have hrow' := hlt (⟨p'.h.toNat, hp'.height⟩, ⟨p'.w.toNat, hp'.width⟩)
    obtain ⟨hplane, hoff⟩ := index_inj hrow hrow' h
    obtain ⟨hn, hc⟩ := index_inj hp.channel hp'.channel hplane
    have hhw := hinj hoff
    simp only [Prod.mk.injEq, Fin.mk.injEq] at hhw
    exact Coordinate.eq_of_toNat hn hhw.1 hhw.2 hc

theorem indexed_one_row {t : TensorDesc} (hcount : t.elementCount < 2 ^ 32) (ht : t.layout = 0)
    (hrow : t.dims 1 = 1) : t.Indexed := by
  have hone : (t.dims 1).toNat = 1 := congrArg BitVec.toNat hrow
  have hzero : ∀ i : Fin (t.dims 1).toNat, (i : ℕ) = 0 := fun i => by
    have := i.isLt
    omega
  refine indexed_nchw hcount ht (fun i => ?_) fun i i' h => ?_
  · simp only [rowOffset, hzero i.1, hone]
    have := i.2.isLt
    omega
  · simp only [rowOffset, hzero, Nat.zero_mul, Nat.zero_add] at h
    exact Prod.ext (Fin.ext ((hzero i.1).trans (hzero i'.1).symm)) (Fin.ext h)

theorem indexed_square {t : TensorDesc} (hcount : t.elementCount < 2 ^ 32) (ht : t.layout = 0)
    (hsquare : t.dims 2 = t.dims 3) : t.Indexed := by
  refine indexed_nchw hcount ht (fun i => ?_) fun i i' h => ?_
  · simp only [rowOffset, ← hsquare]
    exact index_lt i.1.isLt i.2.isLt
  · simp only [rowOffset, ← hsquare] at h
    obtain ⟨hh, hw⟩ := index_inj i.2.isLt i'.2.isLt h
    exact Prod.ext (Fin.ext hh) (Fin.ext hw)

/-- A row longer than its step: its element number `dims[3]` is the next row's first. -/
theorem not_indexed_of_long_rows {t : TensorDesc} (ht : t.layout = 0)
    (hrows : 1 < (t.dims 1).toNat) (hbatch : 0 < (t.dims 0).toNat) (hchannel : 0 < (t.dims 3).toNat)
    (hlong : (t.dims 3).toNat < (t.dims 2).toNat) : ¬ t.Indexed := by
  intro h
  have hdim : (t.dim 3).toNat = (t.dims 3).toNat := by
    rw [dim, BitVec.toNat_setWidth_of_le (by decide)]
  have hp : t.Valid ⟨0, 0, t.dim 3, 0⟩ :=
    ⟨hbatch, by show 0 < _; omega, by rw [hdim]; exact hlong, hchannel⟩
  have hp' : t.Valid ⟨0, 1, 0, 0⟩ := ⟨hbatch, hrows, by show 0 < _; omega, hchannel⟩
  have hsame : t.getTensorIndex ⟨0, 0, t.dim 3, 0⟩ = t.getTensorIndex ⟨0, 1, 0, 0⟩ := by
    simp [getTensorIndex, ht]
  have heq := h.injective hp hp' hsame
  simp only [Coordinate.mk.injEq] at heq
  exact absurd heq.2.1 (by decide)

/-- The element of channels-first plane `p.1`, row and column `p.2`. -/
def planeElement (t : TensorDesc)
    (p : Fin ((t.dims 0).toNat * (t.dims 3).toNat) × Fin (t.dims 1).toNat × Fin (t.dims 2).toNat) :
    Coordinate :=
  ⟨BitVec.ofNat 32 (p.1 / (t.dims 3).toNat), BitVec.ofNat 32 p.2.1, BitVec.ofNat 32 p.2.2,
    BitVec.ofNat 32 (p.1 % (t.dims 3).toNat)⟩

theorem ofNat_toNat_of_lt_dim {t : TensorDesc} {k : Fin 4} {x : ℕ} (hx : x < (t.dims k).toNat) :
    (BitVec.ofNat 32 x).toNat = x := by
  have := (t.dims k).isLt
  rw [BitVec.toNat_ofNat, Nat.mod_eq_of_lt (by omega)]

section Planes

variable {t : TensorDesc}
  (p : Fin ((t.dims 0).toNat * (t.dims 3).toNat) × Fin (t.dims 1).toNat × Fin (t.dims 2).toNat)

theorem plane_batch : (p.1 : ℕ) / (t.dims 3).toNat < (t.dims 0).toNat :=
  Nat.div_lt_of_lt_mul (p.1.isLt.trans_eq (Nat.mul_comm _ _))

theorem plane_channel : (p.1 : ℕ) % (t.dims 3).toNat < (t.dims 3).toNat := by
  refine Nat.mod_lt _ (Nat.pos_of_ne_zero fun h => ?_)
  have hnone : (t.dims 0).toNat * (t.dims 3).toNat = 0 := by rw [h, Nat.mul_zero]
  exact absurd p.1.isLt (by omega)

theorem planeElement_valid : t.Valid (t.planeElement p) where
  batch := (ofNat_toNat_of_lt_dim (plane_batch p)).trans_lt (plane_batch p)
  height := (ofNat_toNat_of_lt_dim p.2.1.isLt).trans_lt p.2.1.isLt
  width := (ofNat_toNat_of_lt_dim p.2.2.isLt).trans_lt p.2.2.isLt
  channel := (ofNat_toNat_of_lt_dim (plane_channel p)).trans_lt (plane_channel p)

theorem nchwIndex_planeElement :
    t.nchwIndex (t.planeElement p) = place t.rowOffset ((t.dims 0).toNat * (t.dims 3).toNat) p := by
  simp only [nchwIndex, planeElement, ofNat_toNat_of_lt_dim (plane_batch p),
    ofNat_toNat_of_lt_dim (plane_channel p), ofNat_toNat_of_lt_dim p.2.1.isLt,
    ofNat_toNat_of_lt_dim p.2.2.isLt, Nat.div_add_mod', place, rowOffset, Fintype.card_prod,
    Fintype.card_fin]

end Planes

theorem planeElement_injective (t : TensorDesc) : Function.Injective t.planeElement := by
  intro p p' h
  simp only [planeElement, Coordinate.mk.injEq] at h
  obtain ⟨hn, hh, hw, hc⟩ := h
  have hn' := congrArg BitVec.toNat hn
  have hh' := congrArg BitVec.toNat hh
  have hw' := congrArg BitVec.toNat hw
  have hc' := congrArg BitVec.toNat hc
  rw [ofNat_toNat_of_lt_dim (plane_batch p), ofNat_toNat_of_lt_dim (plane_batch p')] at hn'
  rw [ofNat_toNat_of_lt_dim p.2.1.isLt, ofNat_toNat_of_lt_dim p'.2.1.isLt] at hh'
  rw [ofNat_toNat_of_lt_dim p.2.2.isLt, ofNat_toNat_of_lt_dim p'.2.2.isLt] at hw'
  rw [ofNat_toNat_of_lt_dim (plane_channel p), ofNat_toNat_of_lt_dim (plane_channel p')] at hc'
  have hplane : (p.1 : ℕ) = p'.1 := by
    rw [← Nat.div_add_mod' p.1 (t.dims 3).toNat, hn', hc', Nat.div_add_mod']
  exact Prod.ext (Fin.ext hplane) (Prod.ext (Fin.ext hh') (Fin.ext hw'))

/-- Rows further apart than they are long: the last row of the last plane lies
behind the tensor. -/
theorem not_indexed_of_short_rows {t : TensorDesc} (hcount : t.elementCount < 2 ^ 32)
    (ht : t.layout = 0) (hrows : 1 < (t.dims 1).toNat) (hbatch : 0 < (t.dims 0).toNat)
    (hwidth : 0 < (t.dims 2).toNat) (hshort : (t.dims 2).toNat < (t.dims 3).toNat) :
    ¬ t.Indexed := by
  intro h
  have hcard : Fintype.card (Fin (t.dims 1).toNat × Fin (t.dims 2).toNat)
      = (t.dims 1).toNat * (t.dims 2).toNat := by
    rw [Fintype.card_prod, Fintype.card_fin, Fintype.card_fin]
  have hsize : (t.dims 0).toNat * (t.dims 3).toNat
      * Fintype.card (Fin (t.dims 1).toNat × Fin (t.dims 2).toNat) = t.elementCount := by
    rw [hcard]
    simp only [elementCount]
    ring
  have hindex : ∀ p, place t.rowOffset ((t.dims 0).toNat * (t.dims 3).toNat) p % 2 ^ 32
      = (t.getTensorIndex (t.planeElement p)).toNat := fun p => by
    rw [getTensorIndex_nchw ht, nchwIndex_planeElement]
  have hoffset : ∀ i, t.rowOffset i < (t.dims 0).toNat * (t.dims 3).toNat
      * Fintype.card (Fin (t.dims 1).toNat × Fin (t.dims 2).toNat) := fun i => by
    have hrow := index_lt i.1.isLt (Nat.lt_trans i.2.isLt hshort)
    have hlarge : (t.dims 1).toNat * (t.dims 3).toNat ≤ t.elementCount := by
      calc (t.dims 1).toNat * (t.dims 3).toNat
          = 1 * (t.dims 1).toNat * 1 * (t.dims 3).toNat := by ring
        _ ≤ t.elementCount := by
          unfold elementCount
          gcongr <;> omega
    rw [hsize]
    exact Nat.lt_of_lt_of_le hrow hlarge
  have hinj : Function.Injective fun p =>
      place t.rowOffset ((t.dims 0).toNat * (t.dims 3).toNat) p % 2 ^ 32 := fun p p' heq => by
    simp only [hindex] at heq
    exact planeElement_injective t
      (h.injective (planeElement_valid p) (planeElement_valid p') (BitVec.eq_of_toNat_eq heq))
  have hlt : ∀ p, place t.rowOffset ((t.dims 0).toNat * (t.dims 3).toNat) p % 2 ^ 32
      < (t.dims 0).toNat * (t.dims 3).toNat
        * Fintype.card (Fin (t.dims 1).toNat × Fin (t.dims 2).toNat) := fun p => by
    have hbelow := BitVec.lt_def.mp (h.below _ (planeElement_valid p))
    rwa [totalElements_toNat, Nat.mod_eq_of_lt hcount, ← hsize, ← hindex p] at hbelow
  have hlast := offset_lt (hsize ▸ hcount) hoffset hinj hlt
    (⟨(t.dims 1).toNat - 1, by omega⟩, ⟨(t.dims 2).toNat - 1, by omega⟩)
  rw [hcard] at hlast
  have hstep : ((t.dims 1).toNat - 1) * ((t.dims 2).toNat + 1)
      ≤ ((t.dims 1).toNat - 1) * (t.dims 3).toNat := Nat.mul_le_mul_left _ hshort
  have hrowsize : (t.dims 1).toNat * (t.dims 2).toNat
      = ((t.dims 1).toNat - 1) * (t.dims 2).toNat + (t.dims 2).toNat := by
    rw [← Nat.succ_mul, Nat.succ_eq_add_one, Nat.sub_add_cancel (by omega)]
  simp only [rowOffset] at hlast
  rw [Nat.mul_succ] at hstep
  omega

/-- For a tensor of fewer than `2 ^ 32` elements the index is right in the channels-last
layout, and in the channels-first one if there is nothing to index, a single row, or
rows as long as there are channels. -/
theorem indexed_iff (t : TensorDesc) (hcount : t.elementCount < 2 ^ 32) :
    t.Indexed ↔ (t.layout = 0 → t.elementCount = 0 ∨ t.dims 1 = 1 ∨ t.dims 2 = t.dims 3) := by
  by_cases ht : t.layout = 0
  case neg => exact iff_of_true (indexed_nhwc hcount ht) fun h => absurd h ht
  refine ⟨fun h _ => ?_, fun h => ?_⟩
  · by_contra hnot
    simp only [not_or] at hnot
    obtain ⟨hpos, hrow, hsquare⟩ := hnot
    simp only [elementCount, Nat.mul_eq_zero, not_or] at hpos
    obtain ⟨⟨⟨hbatch, hheight⟩, hwidth⟩, hchannel⟩ := hpos
    have hrows : 1 < (t.dims 1).toNat := by
      have : (t.dims 1).toNat ≠ 1 := fun h => hrow (BitVec.eq_of_toNat_eq h)
      omega
    rcases Nat.lt_trichotomy (t.dims 2).toNat (t.dims 3).toNat with hlt | heq | hgt
    · exact not_indexed_of_short_rows hcount ht hrows (by omega) (by omega) hlt h
    · exact hsquare (BitVec.eq_of_toNat_eq heq)
    · exact not_indexed_of_long_rows ht hrows (by omega) (by omega) hgt h
  · rcases h ht with hnone | hrow | hsquare
    · exact ⟨fun p hp => absurd hp (not_valid_of_empty hnone p),
        fun p hp => absurd hp (not_valid_of_empty hnone p)⟩
    · exact indexed_one_row hcount ht hrow
    · exact indexed_square hcount ht hsquare

/-- A grey image of two by two pixels, channels first. -/
def greyImage : TensorDesc := ⟨0, ![1, 2, 2, 1], 0, 0⟩

theorem greyImage_not_indexed : ¬ greyImage.Indexed := fun h =>
  absurd ((indexed_iff greyImage (by decide)).mp h rfl) (by decide)

/-- Its second pixel and the first one of its second row share an index. -/
theorem not_all_indexed : ¬ ∀ t : TensorDesc, t.elementCount < 2 ^ 32 → t.Indexed := by
  intro h
  have hp : greyImage.Valid ⟨0, 0, 1, 0⟩ := ⟨by decide, by decide, by decide, by decide⟩
  have hp' : greyImage.Valid ⟨0, 1, 0, 0⟩ := ⟨by decide, by decide, by decide, by decide⟩
  exact absurd ((h greyImage (by decide)).injective hp hp' (by decide)) (by decide)

end TensorDesc

end RiscvEmulator.Ai
