import RiscvEmulator.Isa.Rv32i

/-! # The A extension

The encodings of the atomic memory operations and of LR.W and SC.W, and the word
each operation leaves in memory. -/
namespace RiscvEmulator.Isa

inductive AmoOp where
  | add | swap | xor | and | or | min | max | minu | maxu
deriving DecidableEq, Repr

namespace AmoOp

def funct5 : AmoOp → BitVec 5
  | add => 0x00
  | swap => 0x01
  | xor => 0x04
  | or => 0x08
  | and => 0x0C
  | min => 0x10
  | max => 0x14
  | minu => 0x18
  | maxu => 0x1C

/-- The new word, from the old one and the operand in `rs2`. -/
def eval (op : AmoOp) (old v : BitVec 32) : BitVec 32 :=
  match op with
  | add => old + v
  | swap => v
  | xor => old ^^^ v
  | and => old &&& v
  | or => old ||| v
  | min => if old.toInt ≤ v.toInt then old else v
  | max => if v.toInt ≤ old.toInt then old else v
  | minu => if old.toNat ≤ v.toNat then old else v
  | maxu => if v.toNat ≤ old.toNat then old else v

end AmoOp

/-- The ordering bits. -/
structure OrderBits where
  aq : Bool
  rl : Bool
deriving DecidableEq, Repr

def atomicType (funct5 : BitVec 5) (ord : OrderBits) (rs2 rs1 rd : Reg) : BitVec 32 :=
  rType (funct5 ++ BitVec.ofBool ord.aq ++ BitVec.ofBool ord.rl) rs2 rs1 0x2 rd 0x2F

structure RvA where
  op : AmoOp
  ord : OrderBits
  rd : Reg
  rs1 : Reg
  rs2 : Reg
deriving DecidableEq, Repr

def RvA.encode (instr : RvA) : BitVec 32 :=
  atomicType instr.op.funct5 instr.ord instr.rs2 instr.rs1 instr.rd

def loadReserved (ord : OrderBits) (rs1 rd : Reg) : BitVec 32 := atomicType 0x02 ord 0 rs1 rd

def storeConditional (ord : OrderBits) (rs2 rs1 rd : Reg) : BitVec 32 :=
  atomicType 0x03 ord rs2 rs1 rd

theorem atomicType_fields (funct5 : BitVec 5) (ord : OrderBits) (rs2 rs1 rd : Reg) :
    let w := atomicType funct5 ord rs2 rs1 rd
    w.extractLsb' 0 7 = 0x2F#7 ∧ w.extractLsb' 7 5 = rd ∧ w.extractLsb' 12 3 = 0x2#3 ∧
      w.extractLsb' 15 5 = rs1 ∧ w.extractLsb' 20 5 = rs2 ∧
      (w.extractLsb' 25 7).extractLsb' 2 5 = funct5 := by
  obtain ⟨h0, hrd, h3, h1, h2, h7⟩ :=
    rType_fields (funct5 ++ BitVec.ofBool ord.aq ++ BitVec.ofBool ord.rl) rs2 rs1 0x2 rd 0x2F
  refine ⟨h0, hrd, h3, h1, h2, ?_⟩
  unfold atomicType
  rw [h7]
  simp (disch := omega) only [BitVec.extractLsb'_append_eq_of_le]
  simp only [Nat.reduceSub, BitVec.extractLsb'_eq_self]

end RiscvEmulator.Isa
