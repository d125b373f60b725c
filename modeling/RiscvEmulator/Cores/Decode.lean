import RiscvEmulator.Memory.Word

/-! # Instruction fields

The fields and immediates `Core::step` takes out of an instruction word. -/
namespace RiscvEmulator.Cores
open Memory

abbrev Reg := BitVec 5

/-- `sign_extend`: the low `bits` bits of a value as a signed number. -/
def signExtend (value : Word) (bits : Nat) : Word :=
  let mask := 1#32 <<< (bits - 1)
  (value ^^^ mask) - mask

def opcode (instr : Word) : BitVec 7 := instr.extractLsb' 0 7
def rdOf (instr : Word) : Reg := instr.extractLsb' 7 5
def funct3Of (instr : Word) : BitVec 3 := instr.extractLsb' 12 3
def rs1Of (instr : Word) : Reg := instr.extractLsb' 15 5
def rs2Of (instr : Word) : Reg := instr.extractLsb' 20 5
def funct7Of (instr : Word) : BitVec 7 := instr.extractLsb' 25 7

/-! ## Immediates -/

def immI (instr : Word) : Word := signExtend (instr >>> 20) 12

def immS (instr : Word) : Word :=
  signExtend (((instr >>> 7) &&& 0x1f) ||| ((instr >>> 25) <<< 5)) 12

def immB (instr : Word) : Word :=
  let imm := ((instr >>> 8) &&& 0xf) <<< 1
  let imm := imm ||| (((instr >>> 25) &&& 0x3f) <<< 5)
  let imm := imm ||| (((instr >>> 7) &&& 0x1) <<< 11)
  let imm := imm ||| (((instr >>> 31) &&& 0x1) <<< 12)
  signExtend imm 13

def immU (instr : Word) : Word := instr &&& 0xFFFFF000

def immJ (instr : Word) : Word :=
  let imm := ((instr >>> 21) &&& 0x3ff) <<< 1
  let imm := imm ||| (((instr >>> 20) &&& 0x1) <<< 11)
  let imm := imm ||| (((instr >>> 12) &&& 0xff) <<< 12)
  let imm := imm ||| (((instr >>> 31) &&& 0x1) <<< 20)
  signExtend imm 21

end RiscvEmulator.Cores
