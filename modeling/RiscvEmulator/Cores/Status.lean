import RiscvEmulator.Cores.Trap

/-! # The status registers

`sstatus` has no storage of its own: it is read out of `mstatus` and written into
it. The read moves the bits of `mstatus` about, the write does not, and the two
agree on SIE alone. -/
namespace RiscvEmulator.Cores
open Memory

/-- Writing the bits of a mask leaves the others. -/
theorem getLsbD_maskedWrite (m v mask : Word) (k : Nat) :
    ((m &&& ~~~mask) ||| (v &&& mask)).getLsbD k =
      if mask.getLsbD k then v.getLsbD k else m.getLsbD k := by
  rw [BitVec.getLsbD_or, BitVec.getLsbD_and, BitVec.getLsbD_and, BitVec.getLsbD_not]
  cases hmask : mask.getLsbD k with
  | true => simp
  | false =>
    by_cases hk : k < 32
    · simp [hk]
    · simp [hk, BitVec.getLsbD_of_ge m k (by omega)]

namespace Core

/-- A bit of `mstatus`. -/
def mstatusBit (c : Core) (k : Nat) : Bool := (c.csrRegisters 0x300).getLsbD k

/-- The fields a supervisor has in its status: SIE, SPIE and SPP. -/
def sstatusFields : List Nat := [1, 5, 8]

section
variable (c : Core) (v : Word)

/-! ## Reading -/

theorem sstatus_bit_sie : c.sstatus.getLsbD 1 = c.mstatusBit 1 := by
  unfold sstatus mstatusBit
  simp

/-- What is read as SPIE are bits 2 and 4. -/
theorem sstatus_bit_spie :
    c.sstatus.getLsbD 5 = (c.mstatusBit 2 || c.mstatusBit 4) := by
  unfold sstatus mstatusBit
  simp

/-- Nothing is read as SPP. -/
theorem sstatus_bit_spp : c.sstatus.getLsbD 8 = false := by
  unfold sstatus
  simp

theorem sstatus_bit_nine : c.sstatus.getLsbD 9 = false := by
  unfold sstatus
  simp

theorem sstatus_bit_ten : c.sstatus.getLsbD 10 = false := by
  unfold sstatus
  simp

/-! ## Writing -/

/-- The bits a write of `sstatus` can change. -/
theorem sstatusMask_bit (k : Nat) :
    (0x622#32).getLsbD k = decide (k = 1 ∨ k = 5 ∨ k = 9 ∨ k = 10) := by
  by_cases hk : k < 32
  · revert k
    decide
  · rw [BitVec.getLsbD_of_ge _ k (by omega)]
    symm
    rw [decide_eq_false_iff_not]
    omega

theorem writeCsr_sstatus (k : Nat) : (c.writeCsr 0x100 v).mstatusBit k =
    if k = 1 ∨ k = 5 ∨ k = 9 ∨ k = 10 then v.getLsbD k else c.mstatusBit k := by
  have hcsr : (c.writeCsr 0x100 v).csrRegisters 0x300 =
      (c.csrRegisters 0x300 &&& ~~~0x622#32) ||| (v &&& 0x622#32) := by
    simp [writeCsr, setCsr]
  unfold mstatusBit
  rw [hcsr, getLsbD_maskedWrite, sstatusMask_bit]
  simp only [decide_eq_true_eq]

/-- Only `mstatus` changes. -/
theorem writeCsr_sstatus_other {a : BitVec 12} (ha : a ≠ 0x300) :
    (c.writeCsr 0x100 v).csrRegisters a = c.csrRegisters a := Function.update_of_ne ha ..

/-- A register is its bits. -/
theorem mstatus_ext {c c' : Core} (h : ∀ k, c'.mstatusBit k = c.mstatusBit k) :
    c'.csrRegisters 0x300 = c.csrRegisters 0x300 := BitVec.eq_of_getLsbD_eq fun k _ => h k

/-! ## The view -/

/-- From `c` to `c'` the value has been written through a view of `mstatus` that
has the fields of a supervisor. -/
structure WrittenThrough (c : Core) (v : Word) (c' : Core) : Prop where
  read : ∀ k ∈ sstatusFields, c'.sstatus.getLsbD k = v.getLsbD k
  stored : ∀ k ∈ sstatusFields, c'.sstatus.getLsbD k = c'.mstatusBit k
  others : ∀ k ∉ sstatusFields, c'.mstatusBit k = c.mstatusBit k

/-- When the write works: what will be read as SPIE and SPP is what is written,
`mstatus` has nothing at SPP, and the other two bits of the mask stay. -/
structure ViewAgrees (c : Core) (v : Word) : Prop where
  spie : v.getLsbD 5 = (c.mstatusBit 2 || c.mstatusBit 4)
  spp : v.getLsbD 8 = false
  stored : c.mstatusBit 8 = false
  nine : v.getLsbD 9 = c.mstatusBit 9
  ten : v.getLsbD 10 = c.mstatusBit 10

theorem writtenThrough_iff : WrittenThrough c v (c.writeCsr 0x100 v) ↔ ViewAgrees c v := by
  have hbit := writeCsr_sstatus c v
  constructor
  · intro h
    have hspie := h.read 5 (by decide)
    have hspp := h.read 8 (by decide)
    have hstored := h.stored 8 (by decide)
    have hnine := h.others 9 (by decide)
    have hten := h.others 10 (by decide)
    rw [sstatus_bit_spie, hbit, hbit, if_neg (by decide), if_neg (by decide)] at hspie
    rw [sstatus_bit_spp] at hspp
    rw [sstatus_bit_spp, hbit, if_neg (by decide)] at hstored
    rw [hbit, if_pos (by decide)] at hnine hten
    exact ⟨hspie.symm, hspp.symm, hstored.symm, hnine, hten⟩
  · intro h
    refine ⟨?_, ?_, ?_⟩
    · intro k hk
      simp only [sstatusFields, List.mem_cons, List.not_mem_nil, or_false] at hk
      rcases hk with rfl | rfl | rfl
      · rw [sstatus_bit_sie, hbit, if_pos (.inl rfl)]
      · rw [sstatus_bit_spie, hbit, hbit, h.spie, if_neg (by decide), if_neg (by decide)]
      · rw [sstatus_bit_spp, h.spp]
    · intro k hk
      simp only [sstatusFields, List.mem_cons, List.not_mem_nil, or_false] at hk
      rcases hk with rfl | rfl | rfl
      · rw [sstatus_bit_sie]
      · rw [sstatus_bit_spie, hbit, hbit, hbit, h.spie, if_neg (by decide), if_neg (by decide),
          if_pos (by decide)]
      · rw [sstatus_bit_spp, hbit, h.stored, if_neg (by decide)]
    · intro k hk
      simp only [sstatusFields, List.mem_cons, List.not_mem_nil, or_false, not_or] at hk
      rw [hbit]
      split
      · next hmask =>
        rcases hmask with rfl | rfl | rfl | rfl
        · exact absurd rfl hk.1
        · exact absurd rfl hk.2.1
        · exact h.nine
        · exact h.ten
      · rfl

/-- When a write of what has been read changes nothing. -/
structure ReadsBack (c : Core) : Prop where
  spie : c.mstatusBit 5 = (c.mstatusBit 2 || c.mstatusBit 4)
  nine : c.mstatusBit 9 = false
  ten : c.mstatusBit 10 = false

theorem writeCsr_sstatus_self :
    (c.writeCsr 0x100 c.sstatus).csrRegisters = c.csrRegisters ↔ ReadsBack c := by
  have hbit := writeCsr_sstatus c c.sstatus
  constructor
  · intro h
    have hsame : ∀ k, (c.writeCsr 0x100 c.sstatus).mstatusBit k = c.mstatusBit k := fun k => by
      unfold mstatusBit
      rw [h]
    have hspie := hsame 5
    have hnine := hsame 9
    have hten := hsame 10
    rw [hbit, if_pos (by decide), sstatus_bit_spie] at hspie
    rw [hbit, if_pos (by decide), sstatus_bit_nine] at hnine
    rw [hbit, if_pos (by decide), sstatus_bit_ten] at hten
    exact ⟨hspie.symm, hnine.symm, hten.symm⟩
  · intro h
    funext a
    by_cases ha : a = 0x300
    · subst ha
      refine mstatus_ext fun k => ?_
      rw [hbit]
      split
      · next hmask =>
        rcases hmask with rfl | rfl | rfl | rfl
        · exact sstatus_bit_sie c
        · rw [sstatus_bit_spie, h.spie]
        · rw [sstatus_bit_nine, h.nine]
        · rw [sstatus_bit_ten, h.ten]
      · rfl
    · exact writeCsr_sstatus_other c _ ha

end
end Core
end RiscvEmulator.Cores
