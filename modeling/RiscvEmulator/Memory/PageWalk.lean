import RiscvEmulator.Isa.Format
import RiscvEmulator.Isa.Sv32
import RiscvEmulator.Memory.Tlb

/-! # The page walk and Sv32

The walk reads the entries Sv32 reads, by the addresses Sv32 gives them. It
differs in what it takes for a leaf: an entry of the root with R, W or X is one
for a 4 KiB page if its index is that of the page in the first 4 MiB, a megapage
is a pointer, and the entry of the last level is always a leaf. -/
namespace RiscvEmulator.Memory
open Isa Isa.Sv32

/-! ## Fields -/

theorem append_toNat {m n : Nat} (x : BitVec m) (y : BitVec n) :
    (x ++ y).toNat = x.toNat * 2 ^ n + y.toNat := by
  rw [BitVec.toNat_append, ← Nat.shiftLeft_add_eq_or_of_lt y.isLt, Nat.shiftLeft_eq]

theorem ofWord_eq (pte : Word) :
    (PageTableEntry.ofWord pte).present = valid pte ∧
      (PageTableEntry.ofWord pte).writable = writable pte ∧
      (PageTableEntry.ofWord pte).frame = (ppn pte).setWidth 32 :=
  ⟨testBit_mask pte 0 (by decide), testBit_mask pte 2 (by decide),
    shift_mask_eq_field pte 10 22 (by decide)⟩

/-- The bits of an entry that the code calls a leaf in the root. -/
theorem leafMask_eq (pte : Word) :
    (pte &&& 0x0E != 0) = (isLeaf pte || writable pte) := by
  have hmask :
      (0x0E : Word) = BitVec.twoPow 32 1 ||| BitVec.twoPow 32 3 ||| BitVec.twoPow 32 2 := by
    decide
  have hr := testBit_mask pte 1 (by decide)
  have hx := testBit_mask pte 3 (by decide)
  have hw := testBit_mask pte 2 (by decide)
  unfold isLeaf readable executable writable
  rw [← hr, ← hx, ← hw, hmask, mask_or, mask_or]

/-- The walk computes the low half of the address of an entry. -/
theorem entryAddr_low (table : BitVec 22) (vpn : BitVec 10) :
    table.setWidth 32 <<< 12 + vpn.setWidth 32 * 4 = (entryAddr table vpn).setWidth 32 := by
  have ht := table.isLt
  have hv := vpn.isLt
  apply BitVec.eq_of_toNat_eq
  unfold entryAddr
  simp only [BitVec.toNat_add, BitVec.toNat_mul, BitVec.toNat_shiftLeft, BitVec.toNat_setWidth,
    append_toNat, Nat.shiftLeft_eq, BitVec.ofNat_eq_ofNat, BitVec.toNat_ofNat]
  omega

theorem physical_low (frame : BitVec 22) (va : Word) :
    frame.setWidth 32 * 4096 + va % 4096 = (frame ++ offset va).setWidth 32 := by
  have hf := frame.isLt
  have hva := va.isLt
  apply BitVec.eq_of_toNat_eq
  unfold offset
  simp only [BitVec.toNat_add, BitVec.toNat_mul, BitVec.toNat_umod, BitVec.toNat_setWidth,
    append_toNat, BitVec.extractLsb'_toNat, BitVec.ofNat_eq_ofNat, BitVec.toNat_ofNat,
    Nat.shiftRight_zero, Nat.reducePow, Nat.reduceMod]
  omega

theorem base_eq_zero_iff (root : BitVec 22) :
    root.setWidth 32 <<< 12 = (0 : Word) ↔ root.setWidth 20 = 0 := by
  have hr := root.isLt
  rw [← BitVec.toNat_inj, ← BitVec.toNat_inj]
  simp only [BitVec.toNat_shiftLeft, BitVec.toNat_setWidth, Nat.shiftLeft_eq,
    BitVec.ofNat_eq_ofNat, BitVec.toNat_ofNat]
  omega

/-! ## Where the walk ends -/

/-- What an address translates to if the walk ends at `pte` as the entry of a
4 KiB page. -/
def pageTranslate (pte va : Word) (isWrite : Bool) : Option Word :=
  if !valid pte then none
  else if isWrite && !writable pte then none
  else some ((ppn pte ++ offset va).setWidth 32)

/-- An entry of the root that ends the walk there. -/
def endsInRoot (mem : Word → Word) (root : BitVec 22) (va : Word) : Bool :=
  let direct := mem ((entryAddr root (vpn0 va)).setWidth 32)
  vpn1 va == 0 && (valid direct && (isLeaf direct || writable direct))

/-- When the walk gives what Sv32 gives. Right are the invalid entry of the root,
and the pointer to an invalid entry or to a leaf. Elsewhere an entry is taken for
what it is not, and only by chance gives the same. -/
def WalksRight (mem : Word → Word) (root : BitVec 22) (va : Word) (isWrite : Bool) : Prop :=
  let direct := mem ((entryAddr root (vpn0 va)).setWidth 32)
  let pte1 := mem ((entryAddr root (vpn1 va)).setWidth 32)
  let pte0 := mem ((entryAddr (ppn pte1) (vpn0 va)).setWidth 32)
  if root.setWidth 20 = 0 then Sv32.translate mem root va isWrite = some va
  else if endsInRoot mem root va then
    Sv32.translate mem root va isWrite = pageTranslate direct va isWrite
  else if !valid pte1 then True
  else if isLeaf pte1 || writable pte1 then
    Sv32.translate mem root va isWrite = pageTranslate pte0 va isWrite
  else valid pte0 = false ∨ (isLeaf pte0 = true ∧ refused pte0 = false) ∨
    (isWrite = true ∧ writable pte0 = false)

instance (mem : Word → Word) (root : BitVec 22) (va : Word) (isWrite : Bool) :
    Decidable (WalksRight mem root va isWrite) := inferInstanceAs (Decidable (ite _ _ _))

namespace MMU
variable {config : MMUConfig} {m : MMU config} {mem : Word → Word} {root : BitVec 22}
  {va : Word}

theorem readPageTableEntry_eq (hb : m.pageTableBase = root.setWidth 32 <<< 12) :
    m.readPageTableEntry mem va =
      let direct := mem ((entryAddr root (vpn0 va)).setWidth 32)
      let pte1 := mem ((entryAddr root (vpn1 va)).setWidth 32)
      if endsInRoot mem root va then .ofWord direct
      else if !valid pte1 then {}
      else .ofWord (mem ((entryAddr (ppn pte1) (vpn0 va)).setWidth 32)) := by
  have h1 : (va >>> 22) &&& 0x3FF = (vpn1 va).setWidth 32 :=
    shift_mask_eq_field va 22 10 (by decide)
  have h0 : (va >>> 12) &&& 0x3FF = (vpn0 va).setWidth 32 :=
    shift_mask_eq_field va 12 10 (by decide)
  have hppn : ∀ pte : Word, (pte >>> 10) &&& 0x3FFFFF = (ppn pte).setWidth 32 := by
    intro pte
    exact shift_mask_eq_field pte 10 22 (by decide)
  have hvalid : ∀ pte : Word, (pte &&& 0x01 != 0) = valid pte := by
    intro pte
    exact testBit_mask pte 0 (by decide)
  have hinvalid : ∀ pte : Word, (pte &&& 0x01 == 0) = !valid pte := by
    intro pte
    rw [← hvalid pte, bne, Bool.not_not]
  have hzero : ((vpn1 va).setWidth 32 == (0 : Word)) = (vpn1 va == 0) := by
    rw [Bool.eq_iff_iff, beq_iff_eq, beq_iff_eq, ← BitVec.toNat_inj, ← BitVec.toNat_inj,
      BitVec.toNat_setWidth, Nat.mod_eq_of_lt (by have := (vpn1 va).isLt; omega)]
    rfl
  unfold readPageTableEntry endsInRoot
  simp only [h1, h0, hppn, hb, entryAddr_low, hvalid, hinvalid, leafMask_eq, hzero]

/-- Translation by the walk alone, as far as addresses go. -/
theorem walk_toOption (hsize : config.pageSize = 4096)
    (hb : m.pageTableBase = root.setWidth 32 <<< 12) (isWrite isInstruction : Bool) :
    (m.walk mem ⟨va, isWrite, isInstruction⟩).toOption =
      let direct := mem ((entryAddr root (vpn0 va)).setWidth 32)
      let pte1 := mem ((entryAddr root (vpn1 va)).setWidth 32)
      if root.setWidth 20 = 0 then some va
      else if endsInRoot mem root va then pageTranslate direct va isWrite
      else if !valid pte1 then none
      else pageTranslate (mem ((entryAddr (ppn pte1) (vpn0 va)).setWidth 32)) va isWrite := by
  have hpage : ∀ pte : Word,
      (if !(PageTableEntry.ofWord pte).present then
        (.error (if isInstruction then .instructionPageFault
          else if isWrite then .storeAmoPageFault else .loadPageFault) : Except ExceptionType Word)
      else if isWrite && !(PageTableEntry.ofWord pte).writable then .error .storeAmoPageFault
      else .ok (getPhysicalAddress config (PageTableEntry.ofWord pte).frame
        (getPageOffset config va))).toOption = pageTranslate pte va isWrite := by
    intro pte
    obtain ⟨hp, hw, hf⟩ := ofWord_eq pte
    unfold pageTranslate getPhysicalAddress getPageOffset
    rw [hp, hw, hf, hsize, physical_low]
    split
    · rfl
    · split <;> rfl
  unfold walk
  rw [hb]
  by_cases hzero : root.setWidth 20 = 0
  · have hbase := (base_eq_zero_iff root).mpr hzero
    simp only [hbase, hzero, if_true]
    rfl
  · have hbase : (root.setWidth 32 <<< 12 == (0 : Word)) = false :=
      beq_eq_false_iff_ne.mpr fun h => hzero ((base_eq_zero_iff root).mp h)
    rw [hbase, readPageTableEntry_eq hb]
    simp only [if_neg hzero, Bool.false_eq_true, if_false]
    by_cases hend : endsInRoot mem root va = true
    · simp only [hend, if_true]
      exact hpage _
    · simp only [if_neg hend]
      by_cases hv : (!valid (mem ((entryAddr root (vpn1 va)).setWidth 32))) = true
      · simp only [if_pos hv]
        rfl
      · simp only [if_neg hv]
        exact hpage _

/-- A pointer leads to the entry of a page, as in Sv32, unless the entry is valid
and no leaf. -/
theorem pageTranslate_iff {pte1 : Word} (h1 : mem ((entryAddr root (vpn1 va)).setWidth 32) = pte1)
    (hv : valid pte1 = true) (hp : (isLeaf pte1 || writable pte1) = false) (isWrite : Bool) :
    let pte0 := mem ((entryAddr (ppn pte1) (vpn0 va)).setWidth 32)
    pageTranslate pte0 va isWrite = Sv32.translate mem root va isWrite ↔
      valid pte0 = false ∨ (isLeaf pte0 = true ∧ refused pte0 = false) ∨
        (isWrite = true ∧ writable pte0 = false) := by
  have hl : isLeaf pte1 = false := (Bool.or_eq_false_iff.mp hp).1
  have hw : writable pte1 = false := (Bool.or_eq_false_iff.mp hp).2
  have hr : refused pte1 = false := by
    unfold refused
    rw [hv, hw]
    rfl
  unfold pageTranslate Sv32.translate Sv32.walk
  simp only [h1, hr, hl, Bool.false_eq_true, if_false]
  generalize mem ((entryAddr (ppn pte1) (vpn0 va)).setWidth 32) = pte0
  unfold refused isLeaf
  generalize hvalid : valid pte0 = v
  generalize hread : readable pte0 = r
  generalize hwrite : writable pte0 = w
  generalize hexec : executable pte0 = x
  cases v <;> cases r <;> cases w <;> cases x <;> cases isWrite <;> simp [hwrite]

/-- Without a TLB entry, translation gives the address of Sv32, or a fault where
Sv32 has one, exactly under `WalksRight`. -/
theorem ask_iff_walksRight (hsize : config.pageSize = 4096)
    (hb : m.pageTableBase = root.setWidth 32 <<< 12) (hmiss : (m.findTlbEntry va).1 = none)
    (isWrite isInstruction : Bool) :
    (m.ask mem ⟨va, isWrite, isInstruction⟩).1.toOption = Sv32.translate mem root va isWrite ↔
      WalksRight mem root va isWrite := by
  have hwalk : (m.ask mem ⟨va, isWrite, isInstruction⟩).1 =
      m.walk mem ⟨va, isWrite, isInstruction⟩ := ask_miss hmiss
  rw [hwalk, walk_toOption hsize hb]
  unfold WalksRight
  by_cases hzero : root.setWidth 20 = 0
  · simp only [if_pos hzero]
    exact eq_comm
  simp only [if_neg hzero]
  by_cases hend : endsInRoot mem root va = true
  · simp only [if_pos hend]
    exact eq_comm
  simp only [if_neg hend]
  generalize h1 : mem ((entryAddr root (vpn1 va)).setWidth 32) = pte1
  cases hv : valid pte1 with
  | false =>
    have hr : refused pte1 = true := by
      unfold refused
      rw [hv]
      rfl
    have hfault : Sv32.translate mem root va isWrite = none := by
      unfold Sv32.translate Sv32.walk
      simp only [h1, hr, if_true]
    rw [hfault]
    exact iff_of_true rfl trivial
  | true =>
    simp only [Bool.not_true, Bool.false_eq_true, if_false]
    cases hp : isLeaf pte1 || writable pte1 with
    | true => exact eq_comm
    | false => exact pageTranslate_iff h1 hv hp isWrite

end MMU
end RiscvEmulator.Memory
