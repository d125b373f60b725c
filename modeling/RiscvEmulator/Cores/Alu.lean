import RiscvEmulator.Cores.State

/-! # Computing instructions and jumps

The cases OP-IMM, OP, LUI, AUIPC, BRANCH, JAL and JALR of `Core::step`. What an
arithmetic case stores in `rd` is a function of its fields and operands, `none`
where it stores nothing. -/
namespace RiscvEmulator.Cores
open Memory

/-- Why a step has no result: it evaluates a division the host language leaves
undefined, or the core waits for another thread to release it. -/
inductive Abort where
  | undefinedDivision
  | waitForBoot
deriving DecidableEq, Repr

def signedLess (a b : Word) : Word := if a.slt b then 1 else 0

def unsignedLess (a b : Word) : Word := if a < b then 1 else 0

/-! ## Values -/

def aluImm (funct3 : BitVec 3) (funct7Imm : BitVec 7) (a imm : Word) : Option Word :=
  match funct3 with
  | 0x0 => some (a + imm)
  | 0x2 => some (signedLess a imm)
  | 0x3 => some (unsignedLess a imm)
  | 0x4 => some (a ^^^ imm)
  | 0x6 => some (a ||| imm)
  | 0x7 => some (a &&& imm)
  | 0x1 => some (a <<< (imm &&& 0x1f).toNat)
  | 0x5 =>
    let shamt := (imm &&& 0x1f).toNat
    if funct7Imm = 0x00 then some (a >>> shamt)
    else if funct7Imm = 0x20 then some (a.sshiftRight shamt)
    else none
  | _ => none

/-- The high word of a 64-bit product. -/
def highWord (product : BitVec 64) : Word := (product >>> 32).setWidth 32

def mulh (a b : Word) : Word := highWord (a.signExtend 64 * b.signExtend 64)
def mulhsu (a b : Word) : Word := highWord (a.signExtend 64 * b.setWidth 64)
def mulhu (a b : Word) : Word := highWord (a.setWidth 64 * b.setWidth 64)

def div (a b : Word) : Word :=
  if b = 0 then 0xFFFFFFFF
  else if a = 0x80000000 ∧ b = 0xFFFFFFFF then a
  else a.sdiv b

def divu (a b : Word) : Word := if b = 0 then 0xFFFFFFFF else a / b

/-- Unlike `div`, this does not check for the overflow of the host division. -/
def rem (a b : Word) : Except Abort Word :=
  if b = 0 then .ok a
  else if a = 0x80000000 ∧ b = 0xFFFFFFFF then .error .undefinedDivision
  else .ok (a.srem b)

def remu (a b : Word) : Word := if b = 0 then a else a % b

/-- The switch of OP. The high products are told apart by the register number
`rs2`, and `funct3` 2 and 3 compare whatever `funct7` is. -/
def aluOp (funct3 : BitVec 3) (funct7 : BitVec 7) (rs2 : Reg) (a b : Word) :
    Except Abort (Option Word) :=
  let shamt := (b &&& 0x1f).toNat
  match funct3 with
  | 0x0 => .ok (
    if funct7 = 0x00 then some (a + b)
    else if funct7 = 0x20 then some (a - b)
    else if funct7 = 0x01 then some (a * b)
    else none)
  | 0x1 => .ok (
    if funct7 = 0x01 then
      if rs2 = 0x01 then some (mulh a b)
      else if rs2 = 0x02 then some (mulhsu a b)
      else if rs2 = 0x03 then some (mulhu a b)
      else some (a <<< shamt)
    else some (a <<< shamt))
  | 0x2 => .ok (some (signedLess a b))
  | 0x3 => .ok (some (unsignedLess a b))
  | 0x4 => .ok (
    if funct7 = 0x01 then some (div a b)
    else if funct7 = 0x00 then some (a ^^^ b)
    else none)
  | 0x5 =>
    if funct7 = 0x01 then .ok (some (divu a b))
    else if funct7 = 0x21 then (rem a b).map some
    else if funct7 = 0x25 then .ok (some (remu a b))
    else if funct7 = 0x00 then .ok (some (a >>> shamt))
    else if funct7 = 0x20 then .ok (some (a.sshiftRight shamt))
    else .ok none
  | 0x6 =>
    if funct7 = 0x01 then (rem a b).map some
    else if funct7 = 0x00 then .ok (some (a ||| b))
    else .ok none
  | 0x7 => .ok (
    if funct7 = 0x01 then some (remu a b)
    else if funct7 = 0x00 then some (a &&& b)
    else none)
  | _ => .ok none

def branchTaken (funct3 : BitVec 3) (a b : Word) : Bool :=
  match funct3 with
  | 0x0 => a == b
  | 0x1 => a != b
  | 0x4 => a.slt b
  | 0x5 => !a.slt b
  | 0x6 => a < b
  | 0x7 => !(a < b)
  | _ => false

/-! ## Instructions -/

namespace Core

/-- Store into `rd`, if there is something to store, and go on. -/
def writeback (c : Core) (rd : Reg) (v : Option Word) : Core :=
  match v with
  | some v => (c.setReg rd v).setPc (c.pc + 4)
  | none => c.setPc (c.pc + 4)

def opImm (c : Core) (instr : Word) : Core :=
  c.writeback (rdOf instr)
    (aluImm (funct3Of instr) (funct7Of instr) (c.regs (rs1Of instr)) (immI instr))

def op (c : Core) (instr : Word) : Except Abort Core :=
  (aluOp (funct3Of instr) (funct7Of instr) (rs2Of instr)
    (c.regs (rs1Of instr)) (c.regs (rs2Of instr))).map (c.writeback (rdOf instr))

def lui (c : Core) (instr : Word) : Core := c.writeback (rdOf instr) (some (immU instr))

def auipc (c : Core) (instr : Word) : Core :=
  c.writeback (rdOf instr) (some (c.pc + immU instr))

def branch (c : Core) (instr : Word) : Core :=
  if branchTaken (funct3Of instr) (c.regs (rs1Of instr)) (c.regs (rs2Of instr)) then
    c.setPc (c.pc + immB instr)
  else c.setPc (c.pc + 4)

def jal (c : Core) (instr : Word) : Core :=
  (c.setReg (rdOf instr) (c.pc + 4)).setPc (c.pc + immJ instr)

/-- The target is computed before the link is stored. -/
def jalr (c : Core) (instr : Word) : Core :=
  if funct3Of instr = 0x0 then
    let newPc := (c.regs (rs1Of instr) + immI instr) &&& ~~~0x1#32
    (c.setReg (rdOf instr) (c.pc + 4)).setPc newPc
  else c.setPc (c.pc + 4)

end Core
end RiscvEmulator.Cores
