import RiscvEmulator.Isa.Rv32i

/-! # The M extension

The encodings of the multiplications and divisions and the values they have,
by integers. -/
namespace RiscvEmulator.Isa

inductive MulDivOp where
  | mul | mulh | mulhsu | mulhu | div | divu | rem | remu
deriving DecidableEq, Repr

structure RvM where
  op : MulDivOp
  rd : Reg
  rs1 : Reg
  rs2 : Reg
deriving DecidableEq, Repr

namespace MulDivOp

def funct3 : MulDivOp → BitVec 3
  | mul => 0x0
  | mulh => 0x1
  | mulhsu => 0x2
  | mulhu => 0x3
  | div => 0x4
  | divu => 0x5
  | rem => 0x6
  | remu => 0x7

/-- The dividend and divisor of a signed division that overflows. -/
def Overflows (a b : BitVec 32) : Prop := a.toInt = -2 ^ 31 ∧ b.toInt = -1

instance (a b : BitVec 32) : Decidable (Overflows a b) := inferInstanceAs (Decidable (_ ∧ _))

def eval (op : MulDivOp) (a b : BitVec 32) : BitVec 32 :=
  match op with
  | mul => BitVec.ofInt 32 (a.toInt * b.toInt)
  | mulh => BitVec.ofInt 32 (a.toInt * b.toInt / 2 ^ 32)
  | mulhsu => BitVec.ofInt 32 (a.toInt * b.toNat / 2 ^ 32)
  | mulhu => BitVec.ofInt 32 (a.toNat * b.toNat / 2 ^ 32)
  | div =>
    if b = 0 then BitVec.ofInt 32 (-1)
    else if Overflows a b then a
    else BitVec.ofInt 32 (a.toInt.tdiv b.toInt)
  | divu => if b = 0 then BitVec.ofInt 32 (-1) else BitVec.ofNat 32 (a.toNat / b.toNat)
  | rem =>
    if b = 0 then a
    else if Overflows a b then 0
    else BitVec.ofInt 32 (a.toInt.tmod b.toInt)
  | remu => if b = 0 then a else BitVec.ofNat 32 (a.toNat % b.toNat)

end MulDivOp

namespace RvM

def encode (instr : RvM) : BitVec 32 :=
  rType 0x01 instr.rs2 instr.rs1 instr.op.funct3 instr.rd 0x33

/-- The registers after the instruction. -/
def exec (s : State) (instr : RvM) : State :=
  (s.write instr.rd (instr.op.eval (s.regs instr.rs1) (s.regs instr.rs2))).goto (s.pc + 4)

end RvM
end RiscvEmulator.Isa
