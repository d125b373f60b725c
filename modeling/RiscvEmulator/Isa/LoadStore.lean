import RiscvEmulator.Isa.Rv32i

/-! # RV32I: loads and stores

Their encodings and what they do to a little-endian array of bytes. -/
namespace RiscvEmulator.Isa

abbrev Bytes := Nat → BitVec 8

inductive LoadOp where
  | lb | lh | lw | lbu | lhu
deriving DecidableEq, Repr

inductive StoreOp where
  | sb | sh | sw
deriving DecidableEq, Repr

/-! ## The array -/

namespace Bytes

def halfword (mem : Bytes) (a : Nat) : BitVec 16 := mem (a + 1) ++ mem a

def word (mem : Bytes) (a : Nat) : BitVec 32 :=
  mem (a + 3) ++ mem (a + 2) ++ mem (a + 1) ++ mem a

/-- The low `size` bytes of `v`, from `a` on. -/
def store (mem : Bytes) (a size : Nat) (v : BitVec 32) : Bytes := fun b =>
  if a ≤ b ∧ b < a + size then v.extractLsb' (8 * (b - a)) 8 else mem b

theorem getLsbD_word (mem : Bytes) (a : Nat) {j : Nat} (hj : j < 32) :
    (mem.word a).getLsbD j = (mem (a + j / 8)).getLsbD (j % 8) := by
  have h : j / 8 = 0 ∨ j / 8 = 1 ∨ j / 8 = 2 ∨ j / 8 = 3 := by omega
  have hmod := Nat.div_add_mod j 8
  unfold word
  rw [BitVec.getLsbD_append, BitVec.getLsbD_append, BitVec.getLsbD_append]
  rcases h with h | h | h | h <;> rw [h] at hmod ⊢
  · rw [if_pos (by omega)]
    congr 1
    omega
  · rw [if_neg (by omega), if_pos (by omega)]
    congr 1
    omega
  · rw [if_neg (by omega), if_neg (by omega), if_pos (by omega)]
    congr 1
    omega
  · rw [if_neg (by omega), if_neg (by omega), if_neg (by omega)]
    congr 1
    omega

theorem getLsbD_halfword (mem : Bytes) (a : Nat) {j : Nat} (hj : j < 16) :
    (mem.halfword a).getLsbD j = (mem (a + j / 8)).getLsbD (j % 8) := by
  have h : j / 8 = 0 ∨ j / 8 = 1 := by omega
  have hmod := Nat.div_add_mod j 8
  unfold halfword
  rw [BitVec.getLsbD_append]
  rcases h with h | h <;> rw [h] at hmod ⊢
  · rw [if_pos (by omega)]
    congr 1
    omega
  · rw [if_neg (by omega)]
    congr 1
    omega

/-- Values made of bytes are equal if the bytes are. -/
theorem eq_iff_bytes {mem mem' : Bytes} {a a' n : Nat} {u u' : BitVec (8 * n)}
    (hu : ∀ j < 8 * n, u.getLsbD j = (mem (a + j / 8)).getLsbD (j % 8))
    (hu' : ∀ j < 8 * n, u'.getLsbD j = (mem' (a' + j / 8)).getLsbD (j % 8)) :
    u = u' ↔ ∀ k < n, mem (a + k) = mem' (a' + k) := by
  constructor
  · intro h k hk
    refine BitVec.eq_of_getLsbD_eq fun t ht => ?_
    have hbit := congrArg (·.getLsbD (8 * k + t)) h
    simp only [hu _ (show 8 * k + t < 8 * n by omega), hu' _ (show 8 * k + t < 8 * n by omega)]
      at hbit
    have hdiv : (8 * k + t) / 8 = k := by omega
    have hmod : (8 * k + t) % 8 = t := by omega
    rwa [hdiv, hmod] at hbit
  · intro h
    refine BitVec.eq_of_getLsbD_eq fun t ht => ?_
    rw [hu _ ht, hu' _ ht, h _ (by omega)]

theorem halfword_eq_iff (mem mem' : Bytes) (a a' : Nat) :
    mem.halfword a = mem'.halfword a' ↔ ∀ k < 2, mem (a + k) = mem' (a' + k) :=
  eq_iff_bytes (n := 2) (fun _ => getLsbD_halfword mem a) fun _ => getLsbD_halfword mem' a'

theorem word_eq_iff (mem mem' : Bytes) (a a' : Nat) :
    mem.word a = mem'.word a' ↔ ∀ k < 4, mem (a + k) = mem' (a' + k) :=
  eq_iff_bytes (n := 4) (fun _ => getLsbD_word mem a) fun _ => getLsbD_word mem' a'

end Bytes

/-! ## Instructions -/

namespace LoadOp

def funct3 : LoadOp → BitVec 3
  | lb => 0x0
  | lh => 0x1
  | lw => 0x2
  | lbu => 0x4
  | lhu => 0x5

/-- The number of bytes. -/
def size : LoadOp → Nat
  | lb | lbu => 1
  | lh | lhu => 2
  | lw => 4

theorem size_dvd (op : LoadOp) : op.size ∣ 4 := by
  cases op <;> decide

theorem size_pos (op : LoadOp) : 0 < op.size := by
  cases op <;> decide

def eval (op : LoadOp) (mem : Bytes) (a : Nat) : BitVec 32 :=
  match op with
  | lb => (mem a).signExtend 32
  | lh => (mem.halfword a).signExtend 32
  | lw => mem.word a
  | lbu => (mem a).setWidth 32
  | lhu => (mem.halfword a).setWidth 32

theorem signExtend_inj {w : Nat} {u v : BitVec w} (hw : w ≤ 32)
    (h : u.signExtend 32 = v.signExtend 32) : u = v := by
  have hlow : ∀ u : BitVec w, (u.signExtend 32).setWidth w = u := by
    intro u
    refine BitVec.eq_of_getLsbD_eq fun t ht => ?_
    rw [BitVec.getLsbD_setWidth, BitVec.getLsbD_signExtend]
    simp [ht, show t < 32 by omega]
  rw [← hlow u, h, hlow]

theorem setWidth_inj {w : Nat} {u v : BitVec w} (hw : w ≤ 32)
    (h : u.setWidth 32 = v.setWidth 32) : u = v := by
  have hlow : ∀ u : BitVec w, (u.setWidth 32).setWidth w = u := by
    intro u
    rw [BitVec.setWidth_setWidth_of_le u hw, BitVec.setWidth_eq]
  rw [← hlow u, h, hlow]

/-- Two loads get the same value exactly if their bytes are the same. -/
theorem eval_eq_iff (op : LoadOp) (mem mem' : Bytes) (a a' : Nat) :
    op.eval mem a = op.eval mem' a' ↔ ∀ k < op.size, mem (a + k) = mem' (a' + k) := by
  have hone : (∀ k < 1, mem (a + k) = mem' (a' + k)) ↔ mem a = mem' a' := by simp
  cases op with
  | lb => exact (Iff.intro (signExtend_inj (by decide)) (congrArg _)).trans hone.symm
  | lbu => exact (Iff.intro (setWidth_inj (by decide)) (congrArg _)).trans hone.symm
  | lh =>
    exact (Iff.intro (signExtend_inj (by decide)) (congrArg _)).trans (Bytes.halfword_eq_iff ..)
  | lhu =>
    exact (Iff.intro (setWidth_inj (by decide)) (congrArg _)).trans (Bytes.halfword_eq_iff ..)
  | lw => exact Bytes.word_eq_iff ..

end LoadOp

namespace StoreOp

def funct3 : StoreOp → BitVec 3
  | sb => 0x0
  | sh => 0x1
  | sw => 0x2

def size : StoreOp → Nat
  | sb => 1
  | sh => 2
  | sw => 4

theorem size_dvd (op : StoreOp) : op.size ∣ 4 := by
  cases op <;> decide

theorem size_pos (op : StoreOp) : 0 < op.size := by
  cases op <;> decide

def apply (op : StoreOp) (mem : Bytes) (a : Nat) (v : BitVec 32) : Bytes :=
  mem.store a op.size v

end StoreOp

structure Load where
  op : LoadOp
  rd : Reg
  rs1 : Reg
  imm : BitVec 12
deriving DecidableEq, Repr

structure Store where
  op : StoreOp
  rs2 : Reg
  rs1 : Reg
  imm : BitVec 12
deriving DecidableEq, Repr

def Load.encode (instr : Load) : BitVec 32 :=
  iType instr.rs1 instr.op.funct3 instr.rd 0x03 instr.imm

def Store.encode (instr : Store) : BitVec 32 :=
  sType instr.rs2 instr.rs1 instr.op.funct3 0x23 instr.imm

def Load.address (instr : Load) (regs : Reg → BitVec 32) : BitVec 32 :=
  regs instr.rs1 + instr.imm.signExtend 32

def Store.address (instr : Store) (regs : Reg → BitVec 32) : BitVec 32 :=
  regs instr.rs1 + instr.imm.signExtend 32

end RiscvEmulator.Isa
