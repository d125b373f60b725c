import Mathlib.Logic.Function.Basic
import RiscvEmulator.Isa.Format

/-! # RV32I: computation and control transfer

What the unprivileged specification says of OP, OP-IMM, LUI, AUIPC, JAL, JALR
and BRANCH: their encodings and their effect on the registers and `pc`. -/
namespace RiscvEmulator.Isa

structure State where
  regs : Reg → BitVec 32
  pc : BitVec 32

namespace State

/-- `x0` stays as it is. -/
def write (s : State) (rd : Reg) (v : BitVec 32) : State :=
  { s with regs := if rd = 0 then s.regs else Function.update s.regs rd v }

def goto (s : State) (pc : BitVec 32) : State := { s with pc := pc }

variable (s : State) {rd : Reg} (v : BitVec 32)

@[simp] theorem write_zero : (s.write rd v).regs 0 = s.regs 0 := by
  unfold write
  split
  · rfl
  · next h => exact Function.update_of_ne (Ne.symm h) ..

theorem write_self (h : rd ≠ 0) : (s.write rd v).regs rd = v := by
  unfold write
  rw [if_neg h]
  exact Function.update_self ..

end State

inductive AluOp where
  | add | sub | sll | slt | sltu | xor | srl | sra | or | and
deriving DecidableEq, Repr

inductive ImmOp where
  | addi | slti | sltiu | xori | ori | andi
deriving DecidableEq, Repr

inductive ShiftOp where
  | slli | srli | srai
deriving DecidableEq, Repr

inductive BranchOp where
  | beq | bne | blt | bge | bltu | bgeu
deriving DecidableEq, Repr

inductive Rv32i where
  | op (op : AluOp) (rd rs1 rs2 : Reg)
  | opImm (op : ImmOp) (rd rs1 : Reg) (imm : BitVec 12)
  | shiftImm (op : ShiftOp) (rd rs1 : Reg) (shamt : BitVec 5)
  | lui (rd : Reg) (imm : BitVec 20)
  | auipc (rd : Reg) (imm : BitVec 20)
  | jal (rd : Reg) (offset : BitVec 20)
  | jalr (rd rs1 : Reg) (imm : BitVec 12)
  | branch (op : BranchOp) (rs1 rs2 : Reg) (offset : BitVec 12)
deriving DecidableEq, Repr

/-! ## Encoding -/

def AluOp.funct3 : AluOp → BitVec 3
  | add | sub => 0x0
  | sll => 0x1
  | slt => 0x2
  | sltu => 0x3
  | xor => 0x4
  | srl | sra => 0x5
  | or => 0x6
  | and => 0x7

def AluOp.funct7 : AluOp → BitVec 7
  | sub | sra => 0x20
  | _ => 0x00

def ImmOp.aluOp : ImmOp → AluOp
  | addi => .add
  | slti => .slt
  | sltiu => .sltu
  | xori => .xor
  | ori => .or
  | andi => .and

def ShiftOp.aluOp : ShiftOp → AluOp
  | slli => .sll
  | srli => .srl
  | srai => .sra

def BranchOp.funct3 : BranchOp → BitVec 3
  | beq => 0x0
  | bne => 0x1
  | blt => 0x4
  | bge => 0x5
  | bltu => 0x6
  | bgeu => 0x7

namespace Rv32i

def encode : Rv32i → BitVec 32
  | .op o rd rs1 rs2 => rType o.funct7 rs2 rs1 o.funct3 rd 0x33
  | .opImm o rd rs1 imm => iType rs1 o.aluOp.funct3 rd 0x13 imm
  | .shiftImm o rd rs1 shamt => rType o.aluOp.funct7 shamt rs1 o.aluOp.funct3 rd 0x13
  | .lui rd imm => uType rd 0x37 imm
  | .auipc rd imm => uType rd 0x17 imm
  | .jal rd offset => jType rd 0x6F offset
  | .jalr rd rs1 imm => iType rs1 0x0 rd 0x67 imm
  | .branch o rs1 rs2 offset => bType rs2 rs1 o.funct3 0x63 offset

end Rv32i

/-! ## Meaning -/

def AluOp.eval (op : AluOp) (a b : BitVec 32) : BitVec 32 :=
  match op with
  | add => a + b
  | sub => a - b
  | sll => a <<< (b.toNat % 32)
  | slt => if a.toInt < b.toInt then 1 else 0
  | sltu => if a.toNat < b.toNat then 1 else 0
  | xor => a ^^^ b
  | srl => a >>> (b.toNat % 32)
  | sra => a.sshiftRight (b.toNat % 32)
  | or => a ||| b
  | and => a &&& b

def BranchOp.eval (op : BranchOp) (a b : BitVec 32) : Bool :=
  match op with
  | beq => a = b
  | bne => a ≠ b
  | blt => a.toInt < b.toInt
  | bge => b.toInt ≤ a.toInt
  | bltu => a.toNat < b.toNat
  | bgeu => b.toNat ≤ a.toNat

namespace Rv32i

/-- Where a jump or a taken branch goes; `none` for everything else. -/
def target (s : State) : Rv32i → Option (BitVec 32)
  | .jal _ offset => some (s.pc + (offset.concat false).signExtend 32)
  | .jalr _ rs1 imm => some ((s.regs rs1 + imm.signExtend 32) &&& ~~~1#32)
  | .branch o rs1 rs2 offset =>
    if o.eval (s.regs rs1) (s.regs rs2) then
      some (s.pc + (offset.concat false).signExtend 32)
    else none
  | _ => none

/-- What is written, and where. -/
def result (s : State) : Rv32i → Option (Reg × BitVec 32)
  | .op o rd rs1 rs2 => some (rd, o.eval (s.regs rs1) (s.regs rs2))
  | .opImm o rd rs1 imm => some (rd, o.aluOp.eval (s.regs rs1) (imm.signExtend 32))
  | .shiftImm o rd rs1 shamt => some (rd, o.aluOp.eval (s.regs rs1) (shamt.setWidth 32))
  | .lui rd imm => some (rd, imm.setWidth 32 <<< 12)
  | .auipc rd imm => some (rd, s.pc + imm.setWidth 32 <<< 12)
  | .jal rd _ | .jalr rd _ _ => some (rd, s.pc + 4)
  | .branch .. => none

/-- The state after an instruction that raises no exception. -/
def exec (s : State) (instr : Rv32i) : State :=
  let s' := match instr.result s with
    | some (rd, v) => s.write rd v
    | none => s
  s'.goto ((instr.target s).getD (s.pc + 4))

/-- Without compressed instructions, a transfer to an address that is not a
multiple of four raises an exception, and the instruction has no other effect. -/
def targetMisaligned (s : State) (instr : Rv32i) : Bool :=
  (instr.target s).any fun pc => pc.toNat % 4 ≠ 0

/-- What the state after an instruction has to be. Where an exception is raised,
only the address of its handler is left open. -/
def Specified (instr : Rv32i) (s s' : State) : Prop :=
  if instr.targetMisaligned s then s'.regs = s.regs else s' = instr.exec s

end Rv32i
end RiscvEmulator.Isa
