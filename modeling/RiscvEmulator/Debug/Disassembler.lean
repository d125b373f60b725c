import RiscvEmulator.System.DecodedStep

/-! # The disassembler of the debugger

`Disassembler::disassemble`, and for which words its line is the instruction that a step
executes. Of a line the mnemonic and the operands are kept, without the punctuation. -/
namespace RiscvEmulator.Debug
open RiscvEmulator.System Memory Cores Isa

/-- A line of assembly. -/
structure Line (Operand : Type) where
  mnemonic : String
  operands : List Operand
deriving DecidableEq, Repr

theorem ne_of_mnemonic {Operand : Type} {l l' : Line Operand} (h : l.mnemonic ≠ l'.mnemonic) :
    some l ≠ some l' :=
  fun heq => h (congrArg Line.mnemonic (Option.some.inj heq))

/-! ## Mnemonics -/

def immMnemonic : ImmOp → String
  | .addi => "addi"
  | .slti => "slti"
  | .sltiu => "sltiu"
  | .xori => "xori"
  | .ori => "ori"
  | .andi => "andi"

def shiftMnemonic : ShiftOp → String
  | .slli => "slli"
  | .srli => "srli"
  | .srai => "srai"

def aluMnemonic : AluOp → String
  | .add => "add"
  | .sub => "sub"
  | .sll => "sll"
  | .slt => "slt"
  | .sltu => "sltu"
  | .xor => "xor"
  | .srl => "srl"
  | .sra => "sra"
  | .or => "or"
  | .and => "and"

def mulDivMnemonic : MulDivOp → String
  | .mul => "mul"
  | .mulh => "mulh"
  | .mulhsu => "mulhsu"
  | .mulhu => "mulhu"
  | .div => "div"
  | .divu => "divu"
  | .rem => "rem"
  | .remu => "remu"

def branchMnemonic : BranchOp → String
  | .beq => "beq"
  | .bne => "bne"
  | .blt => "blt"
  | .bge => "bge"
  | .bltu => "bltu"
  | .bgeu => "bgeu"

def loadMnemonic : LoadOp → String
  | .lb => "lb"
  | .lh => "lh"
  | .lw => "lw"
  | .lbu => "lbu"
  | .lhu => "lhu"

def storeMnemonic : StoreOp → String
  | .sb => "sb"
  | .sh => "sh"
  | .sw => "sw"

def amoMnemonic : AmoOp → String
  | .add => "amoadd.w"
  | .swap => "amoswap.w"
  | .xor => "amoxor.w"
  | .and => "amoand.w"
  | .or => "amoor.w"
  | .min => "amomin.w"
  | .max => "amomax.w"
  | .minu => "amominu.w"
  | .maxu => "amomaxu.w"

namespace Disassembler

/-! ## Registers -/

def regNames : List String :=
  ["zero", "ra", "sp", "gp", "tp",
    "t0", "t1", "t2",
    "s0/fp", "s1",
    "a0", "a1", "a2", "a3", "a4", "a5",
    "a6", "a7",
    "s2", "s3", "s4", "s5", "s6", "s7", "s8", "s9", "s10", "s11",
    "t3", "t4", "t5", "t6"]

theorem regNames_length : regNames.length = 32 := rfl

theorem regNames_nodup : regNames.Nodup := by decide

def regName (regNum : Word) : String :=
  if h : regNum.toNat < regNames.length then regNames[regNum.toNat]
  else "x" ++ toString regNum.toNat

theorem reg_lt (r : Cores.Reg) : (r.setWidth 32).toNat < regNames.length := by
  have hr : r.toNat < 32 := r.isLt
  rw [BitVec.toNat_setWidth, regNames_length]
  omega

/-- No two registers have one name. -/
theorem regName_inj {r r' : Cores.Reg} :
    regName (r.setWidth 32) = regName (r'.setWidth 32) ↔ r = r' := by
  refine ⟨fun hname => ?_, congrArg fun r : Cores.Reg => regName (r.setWidth 32)⟩
  unfold regName at hname
  rw [dif_pos (reg_lt r), dif_pos (reg_lt r'), regNames_nodup.getElem_inj_iff] at hname
  have hr : r.toNat < 32 := r.isLt
  have hr' : r'.toNat < 32 := r'.isLt
  rw [BitVec.toNat_setWidth, BitVec.toNat_setWidth] at hname
  exact BitVec.eq_of_toNat_eq (by omega)

/-- A register, printed by its `regName`, an `int32_t`, an address after `0x`, or a number
with a register in brackets. -/
inductive Operand where
  | reg (r : Cores.Reg)
  | int (v : Word)
  | addr (v : Word)
  | indexed (v : Word) (base : Cores.Reg)
deriving DecidableEq, Repr

/-- An operand on paper; the digits of a number are left out. -/
inductive Printed where
  | name (name : String)
  | int (v : Word)
  | addr (v : Word)
  | indexed (v : Word) (base : String)
deriving DecidableEq, Repr

def Operand.printed : Operand → Printed
  | .reg r => .name (regName (r.setWidth 32))
  | .int v => .int v
  | .addr v => .addr v
  | .indexed v base => .indexed v (regName (base.setWidth 32))

theorem Operand.printed_injective : Function.Injective Operand.printed := by
  intro o o' h
  cases o <;> cases o' <;> simp only [printed, Printed.name.injEq, Printed.int.injEq,
    Printed.addr.injEq, Printed.indexed.injEq, regName_inj, reduceCtorEq] at h
  case reg.reg => rw [h]
  case int.int => rw [h]
  case addr.addr => rw [h]
  case indexed.indexed => rw [h.1, h.2]

/-- Two lines are the same if they are on paper. -/
theorem printed_inj {l l' : Line Operand} :
    l.mnemonic = l'.mnemonic ∧ l.operands.map Operand.printed = l'.operands.map Operand.printed ↔
      l = l' := by
  obtain ⟨mnemonic, operands⟩ := l
  obtain ⟨mnemonic', operands'⟩ := l'
  rw [Operand.printed_injective.list_map.eq_iff, Line.mk.injEq]

/-! ## Immediates -/

def signExtendIType (instr : Word) : Word :=
  let imm : BitVec 16 := ((instr >>> 20) &&& 0xFFF).setWidth 16
  imm.signExtend 32

def signExtendSType (instr : Word) : Word :=
  let imm : BitVec 16 := (((instr >>> 7) &&& 0x1F) ||| ((instr >>> 25) <<< 5)).setWidth 16
  imm.signExtend 32

def signExtendBType (instr : Word) : Word :=
  let imm : BitVec 16 := (((instr >>> 8) &&& 0xF) ||| ((instr >>> 25) &&& 0x3F) <<< 4 |||
    ((instr >>> 7) &&& 0x1) <<< 10 ||| ((instr >>> 31) &&& 0x1) <<< 11).setWidth 16
  (imm.signExtend 32 <<< 4).sshiftRight 3

def signExtendUType (instr : Word) : Word := instr &&& 0xFFFFF000

def signExtendJType (instr : Word) : Word :=
  let imm : Word := ((instr >>> 21) &&& 0x3FF) ||| ((instr >>> 20) &&& 0x1) <<< 10 |||
    ((instr >>> 12) &&& 0xFF) <<< 11 ||| ((instr >>> 31) &&& 0x1) <<< 19
  (imm <<< 12).sshiftRight 11

/-! ## Formats -/

def decodeRType (instr : Word) (mnemonic : String) : Line Operand :=
  ⟨mnemonic, [.reg (rdOf instr), .reg (rs1Of instr), .reg (rs2Of instr)]⟩

def decodeIType (instr : Word) (mnemonic : String) : Line Operand :=
  ⟨mnemonic, [.reg (rdOf instr), .reg (rs1Of instr), .int (signExtendIType instr)]⟩

def decodeSType (instr : Word) (mnemonic : String) : Line Operand :=
  ⟨mnemonic, [.reg (rs2Of instr), .indexed (signExtendSType instr) (rs1Of instr)]⟩

def decodeBType (instr : Word) (mnemonic : String) (pc : Word) : Line Operand :=
  ⟨mnemonic, [.reg (rs1Of instr), .reg (rs2Of instr), .addr (pc + signExtendBType instr)]⟩

def decodeUType (instr : Word) (mnemonic : String) (pc : Word) : Line Operand :=
  ⟨mnemonic, [.reg (rdOf instr), .addr (pc + signExtendUType instr)]⟩

def decodeJType (instr : Word) (mnemonic : String) (pc : Word) : Line Operand :=
  ⟨mnemonic, [.reg (rdOf instr), .addr (pc + signExtendJType instr)]⟩

/-- The ordering bits of an atomic. -/
def suffix (funct7 : BitVec 7) : String :=
  (if (funct7 >>> 6) &&& 0x1 ≠ 0 then ".aq" else "") ++
    (if (funct7 >>> 5) &&& 0x1 ≠ 0 then ".rl" else "")

/-- The line of a word, `none` where it is `unknown`. -/
def disassemble (instr pc : Word) : Option (Line Operand) :=
  let funct3 := funct3Of instr
  let funct7 := funct7Of instr
  match opcode instr with
  | 0x37 => some (decodeUType instr "lui" pc)
  | 0x17 => some (decodeUType instr "auipc" pc)
  | 0x6F => some (decodeJType instr "jal" pc)
  | 0x67 =>
    if funct3 = 0x0 then
      some ⟨"jalr", [.reg (rdOf instr), .indexed (signExtendIType instr) (rs1Of instr)]⟩
    else none
  | 0x63 => match funct3 with
    | 0x0 => some (decodeBType instr "beq" pc)
    | 0x1 => some (decodeBType instr "bne" pc)
    | 0x4 => some (decodeBType instr "blt" pc)
    | 0x5 => some (decodeBType instr "bge" pc)
    | 0x6 => some (decodeBType instr "bltu" pc)
    | 0x7 => some (decodeBType instr "bgeu" pc)
    | _ => none
  | 0x03 => match funct3 with
    | 0x0 => some (decodeIType instr "lb")
    | 0x1 => some (decodeIType instr "lh")
    | 0x2 => some (decodeIType instr "lw")
    | 0x4 => some (decodeIType instr "lbu")
    | 0x5 => some (decodeIType instr "lhu")
    | _ => none
  | 0x23 => match funct3 with
    | 0x0 => some (decodeSType instr "sb")
    | 0x1 => some (decodeSType instr "sh")
    | 0x2 => some (decodeSType instr "sw")
    | _ => none
  | 0x33 =>
    if funct7 = 0x00 then
      match funct3 with
      | 0x0 => some (decodeRType instr "add")
      | 0x1 => some (decodeRType instr "sll")
      | 0x2 => some (decodeRType instr "slt")
      | 0x3 => some (decodeRType instr "sltu")
      | 0x4 => some (decodeRType instr "xor")
      | 0x5 => some (decodeRType instr "srl")
      | 0x6 => some (decodeRType instr "or")
      | 0x7 => some (decodeRType instr "and")
      | _ => none
    else if funct7 = 0x01 then
      match funct3 with
      | 0x0 => some (decodeRType instr "mul")
      | 0x1 => some (decodeRType instr "mulh")
      | 0x2 => some (decodeRType instr "mulhsu")
      | 0x3 => some (decodeRType instr "mulhu")
      | 0x4 => some (decodeRType instr "div")
      | 0x5 => some (decodeRType instr "divu")
      | 0x6 => some (decodeRType instr "rem")
      | 0x7 => some (decodeRType instr "remu")
      | _ => none
    else if funct7 = 0x20 then
      match funct3 with
      | 0x0 => some (decodeRType instr "sub")
      | 0x5 => some (decodeRType instr "sra")
      | _ => none
    else none
  | 0x13 => match funct3 with
    | 0x0 => some (decodeIType instr "addi")
    | 0x1 => some (decodeIType instr "slli")
    | 0x2 => some (decodeIType instr "slti")
    | 0x3 => some (decodeIType instr "sltiu")
    | 0x4 => some (decodeIType instr "xori")
    | 0x5 =>
      if funct7 = 0x00 then some (decodeIType instr "srli")
      else if funct7 = 0x20 then some (decodeIType instr "srai")
      else none
    | 0x6 => some (decodeIType instr "ori")
    | 0x7 => some (decodeIType instr "andi")
    | _ => none
  | 0x0F => if funct3 = 0x0 then some ⟨"fence", []⟩ else none
  | 0x73 =>
    if instr = 0x00000073 then some ⟨"ecall", []⟩
    else if instr = 0x00100073 then some ⟨"ebreak", []⟩
    else none
  | 0x2F =>
    if funct3 = 0x2 then
      if funct7 = 0x00 then some (decodeRType instr "lr.w")
      else if funct7 &&& 0x3F = 0x02 then some (decodeRType instr ("sc.w" ++ suffix funct7))
      else if funct7 &&& 0x3F = 0x01 then some (decodeRType instr ("amoswap.w" ++ suffix funct7))
      else if funct7 &&& 0x3F = 0x00 then some (decodeRType instr ("amoadd.w" ++ suffix funct7))
      else none
    else none
  | _ => none

/-! ## The line of an executed instruction -/

/-- How the instruction a step executes at `pc` is written in these formats. -/
def lineOf (pc : Word) : Decoded → Option (Line Operand)
  | .imm op rd rs1 imm => some ⟨immMnemonic op, [.reg rd, .reg rs1, .int imm]⟩
  | .shift op rd rs1 shamt => some ⟨shiftMnemonic op, [.reg rd, .reg rs1, .int shamt]⟩
  | .op op rd rs1 rs2 => some ⟨aluMnemonic op, [.reg rd, .reg rs1, .reg rs2]⟩
  | .mulDiv op rd rs1 rs2 => some ⟨mulDivMnemonic op, [.reg rd, .reg rs1, .reg rs2]⟩
  | .lui rd imm => some ⟨"lui", [.reg rd, .addr imm]⟩
  | .auipc rd imm => some ⟨"auipc", [.reg rd, .addr (pc + imm)]⟩
  | .jal rd offset => some ⟨"jal", [.reg rd, .addr (pc + offset)]⟩
  | .jalr rd rs1 imm => some ⟨"jalr", [.reg rd, .indexed imm rs1]⟩
  | .branch op rs1 rs2 offset =>
    some ⟨branchMnemonic op, [.reg rs1, .reg rs2, .addr (pc + offset)]⟩
  | .load op rd rs1 imm => some ⟨loadMnemonic op, [.reg rd, .reg rs1, .int imm]⟩
  | .store op rs2 rs1 imm => some ⟨storeMnemonic op, [.reg rs2, .indexed imm rs1]⟩
  | .lr rd rs1 => some ⟨"lr.w", [.reg rd, .reg rs1]⟩
  | .sc rd rs1 rs2 => some ⟨"sc.w", [.reg rd, .reg rs1, .reg rs2]⟩
  | .amo op rd rs1 rs2 => some ⟨amoMnemonic op, [.reg rd, .reg rs1, .reg rs2]⟩
  | .ecall => some ⟨"ecall", []⟩
  | .fence => some ⟨"fence", []⟩
  | _ => none

/-- The words that are printed as they are executed. -/
def PrintedRight (instr pc : Word) : Prop :=
  match opcode instr with
  | 0x37 => pc = 0
  | 0x67 | 0x63 | 0x03 | 0x23 => instr.msb = false
  | 0x13 => match funct3Of instr with
    | 0x1 | 0x5 => funct7Of instr = 0x00
    | _ => instr.msb = false
  | 0x33 => funct7Of instr = 0x01 → match funct3Of instr with
    | 0x1 => rs2Of instr = 0x01
    | 0x2 | 0x3 => False
    | _ => True
  | 0x73 => instr = 0x00000073
  | 0x2F => False
  | _ => True

/-! ## The immediates that are printed -/

/-- Extending without the sign is extending with it where the sign is clear. -/
theorem setWidth_eq_signExtend_iff {w : Nat} (x : BitVec w) (h : w < 32) :
    x.setWidth 32 = x.signExtend 32 ↔ x.msb = false := by
  constructor
  · intro heq
    have hmsb := congrArg BitVec.msb heq
    rw [BitVec.msb_signExtend, BitVec.msb_setWidth, BitVec.getLsbD_of_ge x 31 (by omega)] at hmsb
    simpa [show ¬32 ≤ w by omega] using hmsb.symm
  · intro hmsb
    exact (BitVec.signExtend_eq_setWidth_of_msb_false hmsb).symm

/-- Twelve bits in an `int16_t` have no sign. -/
theorem signExtend_int16 (x : BitVec 12) :
    ((x.setWidth 32).setWidth 16).signExtend 32 = x.setWidth 32 := by
  have hmsb : ((x.setWidth 32).setWidth 16).msb = false := by
    rw [BitVec.msb_setWidth, BitVec.getLsbD_setWidth, BitVec.getLsbD_of_ge x 15 (by decide)]
    rfl
  rw [BitVec.signExtend_eq_setWidth_of_msb_false hmsb]
  apply BitVec.eq_of_toNat_eq
  have hx := x.isLt
  simp only [BitVec.toNat_setWidth]
  omega

theorem signExtendIType_eq (instr : Word) :
    signExtendIType instr = (instr.extractLsb' 20 12).setWidth 32 := by
  have hmask : (instr >>> 20) &&& 0xFFF = (instr.extractLsb' 20 12).setWidth 32 :=
    shift_mask_eq_field instr 20 12 (by decide)
  unfold signExtendIType
  rw [hmask]
  exact signExtend_int16 _

theorem msb_field (instr : Word) : (instr.extractLsb' 20 12).msb = instr.msb := by
  simp [BitVec.msb_eq_getLsbD_last]

theorem immI_eq_iff (instr : Word) : immI instr = signExtendIType instr ↔ instr.msb = false := by
  rw [immI_eq, signExtendIType_eq, eq_comm, setWidth_eq_signExtend_iff _ (by decide), msb_field]

/-- The twelve bits of the immediate of a store. -/
def sField (instr : Word) : BitVec 12 := instr.extractLsb' 25 7 ++ instr.extractLsb' 7 5

theorem sField_pieces (instr : Word) : ((instr >>> 7) &&& 0x1f) ||| ((instr >>> 25) <<< 5) =
    (sField instr).setWidth 32 := by
  have hlow : (sField instr).extractLsb' 0 5 = instr.extractLsb' 7 5 := by
    simp (disch := omega) only [sField, BitVec.extractLsb'_append_eq_of_add_le,
      BitVec.extractLsb'_eq_self]
  have hhigh : (sField instr).extractLsb' 5 7 = instr.extractLsb' 25 7 := by
    simp (disch := omega) only [sField, BitVec.extractLsb'_append_eq_of_le, Nat.sub_self,
      BitVec.extractLsb'_eq_self]
  have hmask := shift_mask_eq_field instr 7 5 (by decide)
  rw [← sImmediate_pieces, hlow, hhigh, shift_eq_field instr 25 7 rfl, ← hmask]
  rfl

theorem sField_msb (instr : Word) : (sField instr).msb = instr.msb := by
  rw [sField, BitVec.msb_append]
  simp [BitVec.msb_eq_getLsbD_last]

theorem immS_eq_iff (instr : Word) : immS instr = signExtendSType instr ↔ instr.msb = false := by
  have hprinted : signExtendSType instr = (sField instr).setWidth 32 := by
    unfold signExtendSType
    have hpieces := sField_pieces instr
    rw [hpieces]
    exact signExtend_int16 _
  have hused : immS instr = (sField instr).signExtend 32 := by
    unfold immS
    rw [sField_pieces]
    exact signExtend_setWidth _ (by decide)
  rw [hused, hprinted, eq_comm, setWidth_eq_signExtend_iff _ (by decide), sField_msb]

/-- The twelve bits of the offset of a branch, in halfwords. -/
def bField (instr : Word) : BitVec 12 :=
  instr.extractLsb' 31 1 ++ instr.extractLsb' 7 1 ++ instr.extractLsb' 25 6 ++
    instr.extractLsb' 8 4

theorem bField_fields (instr : Word) :
    (bField instr).extractLsb' 0 4 = instr.extractLsb' 8 4 ∧
      (bField instr).extractLsb' 4 6 = instr.extractLsb' 25 6 ∧
      (bField instr).extractLsb' 10 1 = instr.extractLsb' 7 1 ∧
      (bField instr).extractLsb' 11 1 = instr.extractLsb' 31 1 := by
  simp (disch := omega) only [bField, BitVec.extractLsb'_append_eq_of_le,
    BitVec.extractLsb'_append_eq_of_add_le]
  simp only [Nat.reduceSub, BitVec.extractLsb'_eq_self, and_self]

theorem bField_msb (instr : Word) : (bField instr).msb = instr.msb := by
  simp only [bField, BitVec.msb_append]
  simp [BitVec.msb_eq_getLsbD_last]

/-- The pieces of the offset before they are scaled. -/
theorem bField_pieces (offset : BitVec 12) :
    (offset.extractLsb' 0 4).setWidth 32 ||| (offset.extractLsb' 4 6).setWidth 32 <<< 4 |||
        (offset.extractLsb' 10 1).setWidth 32 <<< 10 |||
        (offset.extractLsb' 11 1).setWidth 32 <<< 11 = offset.setWidth 32 := by
  ext i hi
  interval_cases i <;> simp

theorem scale_int16 (x : BitVec 12) :
    ((x.setWidth 32 : Word) <<< 4).sshiftRight 3 = (x.concat false).setWidth 32 := by
  ext i hi
  interval_cases i <;>
    simp [BitVec.getElem_concat, BitVec.getElem_sshiftRight, BitVec.msb_eq_getLsbD_last]

theorem immB_eq_iff (instr : Word) : immB instr = signExtendBType instr ↔ instr.msb = false := by
  obtain ⟨hlow, hmid, h11, h12⟩ := bField_fields instr
  have h4 := shift_mask_eq_field instr 8 4 (by decide)
  have h6 := shift_mask_eq_field instr 25 6 (by decide)
  have h1 := shift_mask_eq_field instr 7 1 (by decide)
  have hs := shift_mask_eq_field instr 31 1 (by decide)
  have hused : immB instr = ((bField instr).concat false).signExtend 32 := by
    rw [← signExtend_setWidth _ (by decide), ← bImmediate_pieces, hlow, hmid, h11, h12,
      ← h4, ← h6, ← h1, ← hs]
    rfl
  have hprinted : signExtendBType instr = ((bField instr).concat false).setWidth 32 := by
    rw [← scale_int16, ← signExtend_int16, ← bField_pieces, hlow, hmid, h11, h12,
      ← h4, ← h6, ← h1, ← hs]
    rfl
  have hmsb : ((bField instr).concat false).msb = instr.msb := by
    rw [← bField_msb]
    simp [BitVec.msb_eq_getLsbD_last]
  rw [hused, hprinted, eq_comm, setWidth_eq_signExtend_iff _ (by decide), hmsb]

/-- The twenty bits of the offset of a jump, in halfwords. -/
def jField (instr : Word) : BitVec 20 :=
  instr.extractLsb' 31 1 ++ instr.extractLsb' 12 8 ++ instr.extractLsb' 20 1 ++
    instr.extractLsb' 21 10

theorem jField_fields (instr : Word) :
    (jField instr).extractLsb' 0 10 = instr.extractLsb' 21 10 ∧
      (jField instr).extractLsb' 10 1 = instr.extractLsb' 20 1 ∧
      (jField instr).extractLsb' 11 8 = instr.extractLsb' 12 8 ∧
      (jField instr).extractLsb' 19 1 = instr.extractLsb' 31 1 := by
  simp (disch := omega) only [jField, BitVec.extractLsb'_append_eq_of_le,
    BitVec.extractLsb'_append_eq_of_add_le]
  simp only [Nat.reduceSub, BitVec.extractLsb'_eq_self, and_self]

theorem jField_pieces (offset : BitVec 20) :
    (offset.extractLsb' 0 10).setWidth 32 ||| (offset.extractLsb' 10 1).setWidth 32 <<< 10 |||
        (offset.extractLsb' 11 8).setWidth 32 <<< 11 |||
        (offset.extractLsb' 19 1).setWidth 32 <<< 19 = offset.setWidth 32 := by
  ext i hi
  interval_cases i <;> simp

/-- Shifted up to the sign and down again. -/
theorem scale_signed (x : BitVec 20) :
    ((x.setWidth 32 : Word) <<< 12).sshiftRight 11 = (x.concat false).signExtend 32 := by
  ext i hi
  interval_cases i <;>
    simp [BitVec.getElem_concat, BitVec.getElem_sshiftRight, BitVec.getElem_signExtend,
      BitVec.msb_eq_getLsbD_last]

/-- Jumps are printed with their sign. -/
theorem immJ_eq_printed (instr : Word) : immJ instr = signExtendJType instr := by
  obtain ⟨hlow, h11, hmid, h20⟩ := jField_fields instr
  have h10 := shift_mask_eq_field instr 21 10 (by decide)
  have h1 := shift_mask_eq_field instr 20 1 (by decide)
  have h8 := shift_mask_eq_field instr 12 8 (by decide)
  have hs := shift_mask_eq_field instr 31 1 (by decide)
  have hused : immJ instr = ((jField instr).concat false).signExtend 32 := by
    rw [← signExtend_setWidth _ (by decide), ← jImmediate_pieces, hlow, h11, hmid, h20,
      ← h10, ← h1, ← h8, ← hs]
    rfl
  rw [hused, ← scale_signed, ← jField_pieces, hlow, h11, hmid, h20, ← h10, ← h1, ← h8, ← hs]
  rfl

/-- The amount of a shift is printed with `funct7` before it. -/
theorem shamt_eq_iff (instr : Word) :
    immI instr &&& 0x1f = signExtendIType instr ↔ funct7Of instr = 0x00 := by
  rw [immI_and_shamt, signExtendIType_eq, ← BitVec.toNat_inj, ← BitVec.toNat_inj]
  unfold funct7Of
  have hlt := instr.isLt
  have hzero : (0x00 : BitVec 7).toNat = 0 := rfl
  rw [hzero]
  simp only [BitVec.toNat_setWidth, BitVec.extractLsb'_toNat, Nat.shiftRight_eq_div_pow]
  omega

/-! ## Formats that agree -/

variable {instr pc : Word} {mnemonic : String}

theorem iType_iff : (⟨mnemonic, [.reg (rdOf instr), .reg (rs1Of instr), .int (immI instr)]⟩ :
    Line Operand) = decodeIType instr mnemonic ↔ instr.msb = false := by
  rw [← immI_eq_iff]
  simp [decodeIType]

theorem shift_iff : (⟨mnemonic, [.reg (rdOf instr), .reg (rs1Of instr),
    .int (immI instr &&& 0x1f)]⟩ : Line Operand) = decodeIType instr mnemonic ↔
      funct7Of instr = 0x00 := by
  rw [← shamt_eq_iff]
  simp [decodeIType]

theorem sType_iff : (⟨mnemonic, [.reg (rs2Of instr), .indexed (immS instr) (rs1Of instr)]⟩ :
    Line Operand) = decodeSType instr mnemonic ↔ instr.msb = false := by
  rw [← immS_eq_iff]
  simp [decodeSType]

theorem bType_iff : (⟨mnemonic, [.reg (rs1Of instr), .reg (rs2Of instr),
    .addr (pc + immB instr)]⟩ : Line Operand) = decodeBType instr mnemonic pc ↔
      instr.msb = false := by
  rw [← immB_eq_iff]
  simp [decodeBType]

theorem addr_iff {r : Cores.Reg} {v v' : Word} :
    (⟨mnemonic, [.reg r, .addr v]⟩ : Line Operand) = ⟨mnemonic, [.reg r, .addr v']⟩ ↔ v = v' := by
  simp

theorem indexed_eq_iff {r base : Cores.Reg} {v v' : Word} :
    (⟨mnemonic, [.reg r, .indexed v base]⟩ : Line Operand) =
        ⟨mnemonic, [.reg r, .indexed v' base]⟩ ↔
      v = v' := by
  simp

/-! ## Opcodes -/

theorem opImm_right (h : opcode instr = 0x13) (hsome : disassemble instr pc ≠ none) :
    lineOf pc (decode instr) = disassemble instr pc ↔ PrintedRight instr pc := by
  have h' : opcode instr = 0x13#7 := h
  simp only [disassemble, decode, PrintedRight, h'] at hsome ⊢
  rcases funct3_cases (funct3Of instr) with h3 | h3 | h3 | h3 | h3 | h3 | h3 | h3 <;>
    rw [h3] at hsome ⊢
  · exact Option.some_inj.trans iType_iff
  · exact Option.some_inj.trans shift_iff
  · exact Option.some_inj.trans iType_iff
  · exact Option.some_inj.trans iType_iff
  · exact Option.some_inj.trans iType_iff
  · by_cases hl : funct7Of instr = 0x00
    · refine iff_of_true ?_ hl
      rw [hl]
      exact congrArg some (shift_iff.mpr hl)
    · by_cases ha : funct7Of instr = 0x20
      · refine iff_of_false (fun heq => hl ?_) hl
        rw [ha] at heq
        exact shift_iff.mp (Option.some.inj heq)
      · exact absurd ((if_neg hl).trans (if_neg ha)) hsome
  · exact Option.some_inj.trans iType_iff
  · exact Option.some_inj.trans iType_iff

theorem op_right (h : opcode instr = 0x33) (hsome : disassemble instr pc ≠ none) :
    lineOf pc (decode instr) = disassemble instr pc ↔ PrintedRight instr pc := by
  have h' : opcode instr = 0x33#7 := h
  simp only [disassemble, decode, PrintedRight, h'] at hsome ⊢
  by_cases h0 : funct7Of instr = 0x00
  · rw [h0]
    refine iff_of_true ?_ (fun h => absurd h (by decide))
    rcases funct3_cases (funct3Of instr) with h3 | h3 | h3 | h3 | h3 | h3 | h3 | h3 <;>
      rw [h3] <;> rfl
  · by_cases h1 : funct7Of instr = 0x01
    · rw [h1]
      rcases funct3_cases (funct3Of instr) with h3 | h3 | h3 | h3 | h3 | h3 | h3 | h3 <;>
        rw [h3]
      · exact iff_of_true rfl fun _ => trivial
      · by_cases hr1 : rs2Of instr = 0x01
        · refine iff_of_true ?_ fun _ => hr1
          rw [decodeOp_mulh, if_pos hr1]
          rfl
        · refine iff_of_false ?_ fun h => hr1 (h rfl)
          rw [decodeOp_mulh, if_neg hr1]
          by_cases hr2 : rs2Of instr = 0x02
          · rw [if_pos hr2]
            exact ne_of_mnemonic (show "mulhsu" ≠ "mulh" by decide)
          · by_cases hr3 : rs2Of instr = 0x03
            · rw [if_neg hr2, if_pos hr3]
              exact ne_of_mnemonic (show "mulhu" ≠ "mulh" by decide)
            · rw [if_neg hr2, if_neg hr3]
              exact ne_of_mnemonic (show "sll" ≠ "mulh" by decide)
      · exact iff_of_false (ne_of_mnemonic (show "slt" ≠ "mulhsu" by decide)) fun h => h rfl
      · exact iff_of_false (ne_of_mnemonic (show "sltu" ≠ "mulhu" by decide)) fun h => h rfl
      · exact iff_of_true rfl fun _ => trivial
      · exact iff_of_true rfl fun _ => trivial
      · exact iff_of_true rfl fun _ => trivial
      · exact iff_of_true rfl fun _ => trivial
    · by_cases h20 : funct7Of instr = 0x20
      · rw [h20] at hsome ⊢
        refine iff_of_true ?_ (fun h => absurd h (by decide))
        rcases funct3_cases (funct3Of instr) with h3 | h3 | h3 | h3 | h3 | h3 | h3 | h3 <;>
          rw [h3] at hsome ⊢ <;> first | rfl | exact absurd rfl hsome
      · exact absurd ((if_neg h0).trans ((if_neg h1).trans (if_neg h20))) hsome

theorem load_right (h : opcode instr = 0x03) (hsome : disassemble instr pc ≠ none) :
    lineOf pc (decode instr) = disassemble instr pc ↔ PrintedRight instr pc := by
  have h' : opcode instr = 0x03#7 := h
  simp only [disassemble, decode, PrintedRight, h'] at hsome ⊢
  rcases funct3_cases (funct3Of instr) with h3 | h3 | h3 | h3 | h3 | h3 | h3 | h3 <;>
    rw [h3] at hsome ⊢ <;>
    first | exact Option.some_inj.trans iType_iff | exact absurd rfl hsome

theorem store_right (h : opcode instr = 0x23) (hsome : disassemble instr pc ≠ none) :
    lineOf pc (decode instr) = disassemble instr pc ↔ PrintedRight instr pc := by
  have h' : opcode instr = 0x23#7 := h
  simp only [disassemble, decode, PrintedRight, h'] at hsome ⊢
  rcases funct3_cases (funct3Of instr) with h3 | h3 | h3 | h3 | h3 | h3 | h3 | h3 <;>
    rw [h3] at hsome ⊢ <;>
    first | exact Option.some_inj.trans sType_iff | exact absurd rfl hsome

theorem branch_right (h : opcode instr = 0x63) (hsome : disassemble instr pc ≠ none) :
    lineOf pc (decode instr) = disassemble instr pc ↔ PrintedRight instr pc := by
  have h' : opcode instr = 0x63#7 := h
  simp only [disassemble, decode, PrintedRight, h'] at hsome ⊢
  rcases funct3_cases (funct3Of instr) with h3 | h3 | h3 | h3 | h3 | h3 | h3 | h3 <;>
    rw [h3] at hsome ⊢ <;>
    first | exact Option.some_inj.trans bType_iff | exact absurd rfl hsome

theorem funct7_cases {funct7 : BitVec 7} (h : funct7 &&& 0x3F = 0x02 ∨ funct7 &&& 0x3F = 0x01 ∨
    funct7 &&& 0x3F = 0x00) : funct7 = 0x00 ∨ funct7 = 0x40 ∨ funct7 = 0x01 ∨ funct7 = 0x41 ∨
      funct7 = 0x02 ∨ funct7 = 0x42 := by
  revert funct7
  decide

/-- Every atomic that is printed is another one that is executed. -/
theorem amo_wrong (h : opcode instr = 0x2F) (hsome : disassemble instr pc ≠ none) :
    lineOf pc (decode instr) ≠ disassemble instr pc := by
  have h' : opcode instr = 0x2F#7 := h
  simp only [disassemble, decode, h'] at hsome ⊢
  by_cases h3 : funct3Of instr = 0x2
  · rw [if_pos h3] at hsome
    rw [if_pos h3, if_pos h3]
    have hf : funct7Of instr &&& 0x3F = 0x02 ∨ funct7Of instr &&& 0x3F = 0x01 ∨
        funct7Of instr &&& 0x3F = 0x00 := by
      by_contra hnone
      push Not at hnone
      have h0 : funct7Of instr ≠ 0x00 := fun h0 => hnone.2.2 (by rw [h0]; rfl)
      exact hsome ((if_neg h0).trans ((if_neg hnone.1).trans ((if_neg hnone.2.1).trans
        (if_neg hnone.2.2))))
    rcases funct7_cases hf with h7 | h7 | h7 | h7 | h7 | h7 <;> rw [h7]
    · exact ne_of_mnemonic (show "amoadd.w" ≠ "lr.w" by decide)
    · exact ne_of_mnemonic (show "amomin.w" ≠ "amoadd.w.aq" by decide)
    · exact ne_of_mnemonic (show "amoadd.w" ≠ "amoswap.w" by decide)
    · exact ne_of_mnemonic (show "amomin.w" ≠ "amoswap.w.aq" by decide)
    · exact ne_of_mnemonic (show "amoadd.w" ≠ "sc.w" by decide)
    · exact ne_of_mnemonic (show "amomin.w" ≠ "sc.w.aq" by decide)
  · exact absurd (if_neg h3) hsome

theorem system_right (h : opcode instr = 0x73) (hsome : disassemble instr pc ≠ none) :
    lineOf pc (decode instr) = disassemble instr pc ↔ PrintedRight instr pc := by
  have h' : opcode instr = 0x73#7 := h
  simp only [disassemble, decode, PrintedRight, h'] at hsome ⊢
  by_cases hecall : instr = 0x00000073
  · refine iff_of_true ?_ hecall
    rw [if_pos hecall, hecall]
    rfl
  · refine iff_of_false ?_ hecall
    by_cases hebreak : instr = 0x00100073
    · rw [if_neg hecall, if_pos hebreak, hebreak]
      intro heq
      cases heq
    · exact absurd ((if_neg hecall).trans (if_neg hebreak)) hsome

/-- The opcodes with a line. -/
theorem opcode_of_line (h : disassemble instr pc ≠ none) : opcode instr = 0x37 ∨
    opcode instr = 0x17 ∨ opcode instr = 0x6F ∨ opcode instr = 0x67 ∨ opcode instr = 0x63 ∨
    opcode instr = 0x03 ∨ opcode instr = 0x23 ∨ opcode instr = 0x33 ∨ opcode instr = 0x13 ∨
    opcode instr = 0x0F ∨ opcode instr = 0x73 ∨ opcode instr = 0x2F := by
  unfold disassemble at h
  dsimp only at h
  split at h
  case h_13 => exact absurd rfl h
  all_goals
    next hop => simp [hop]

theorem lui_right (h : opcode instr = 0x37) :
    lineOf pc (decode instr) = disassemble instr pc ↔ PrintedRight instr pc := by
  have h' : opcode instr = 0x37#7 := h
  have hdecode : decode instr = .lui (rdOf instr) (immU instr) := by
    simp only [decode, h']
  have hprinted : disassemble instr pc = some (decodeUType instr "lui" pc) := by
    simp only [disassemble, h']
  have hright : PrintedRight instr pc ↔ pc = 0 := by
    simp only [PrintedRight, h']
  have hadd : immU instr = pc + signExtendUType instr ↔ pc = 0 := by
    rw [eq_comm]
    exact add_eq_right
  rw [hdecode, hprinted, hright, ← hadd]
  exact Option.some_inj.trans addr_iff

theorem jal_right (h : opcode instr = 0x6F) :
    lineOf pc (decode instr) = disassemble instr pc ↔ PrintedRight instr pc := by
  have h' : opcode instr = 0x6F#7 := h
  simp only [disassemble, decode, PrintedRight, h']
  refine iff_of_true (congrArg some (addr_iff.mpr ?_)) trivial
  rw [immJ_eq_printed]

theorem jalr_right (h : opcode instr = 0x67) (hsome : disassemble instr pc ≠ none) :
    lineOf pc (decode instr) = disassemble instr pc ↔ PrintedRight instr pc := by
  have h' : opcode instr = 0x67#7 := h
  simp only [disassemble, decode, PrintedRight, h'] at hsome ⊢
  by_cases h3 : funct3Of instr = 0x0
  · rw [if_pos h3, if_pos h3, ← immI_eq_iff]
    exact Option.some_inj.trans indexed_eq_iff
  · exact absurd (if_neg h3) hsome

/-- A word is printed as the instruction that a step executes exactly if it is one of
`PrintedRight`. -/
theorem line_iff (hsome : disassemble instr pc ≠ none) :
    lineOf pc (decode instr) = disassemble instr pc ↔ PrintedRight instr pc := by
  rcases opcode_of_line hsome with h | h | h | h | h | h | h | h | h | h | h | h
  · exact lui_right h
  · have h' : opcode instr = 0x17#7 := h
    simp only [disassemble, decode, PrintedRight, h']
    exact iff_of_true rfl trivial
  · exact jal_right h
  · exact jalr_right h hsome
  · exact branch_right h hsome
  · exact load_right h hsome
  · exact store_right h hsome
  · exact op_right h hsome
  · exact opImm_right h hsome
  · have h' : opcode instr = 0x0F#7 := h
    simp only [disassemble, decode, PrintedRight, h'] at hsome ⊢
    by_cases h3 : funct3Of instr = 0x0
    · rw [if_pos h3, if_pos h3]
      exact iff_of_true rfl trivial
    · exact absurd (if_neg h3) hsome
  · exact system_right h hsome
  · refine iff_of_false (amo_wrong h hsome) ?_
    have h' : opcode instr = 0x2F#7 := h
    simp only [PrintedRight, h', not_false_eq_true]

/-- Every step executes what its word is decoded to, and a line that is printed is the line
of it exactly for the words of `PrintedRight`. -/
theorem disassembly_iff (instr pc : Word) :
    (∀ {N n : Nat} (s : Simulator N n) (i : Fin N), s.execute i instr = s.run i (decode instr)) ∧
    ∀ line, disassemble instr pc = some line →
      (lineOf pc (decode instr) = some line ↔ PrintedRight instr pc) := by
  refine ⟨fun s i => s.execute_decode i instr, fun line hline => ?_⟩
  have hsome : disassemble instr pc ≠ none := by
    rw [hline]
    exact Option.some_ne_none line
  rw [← hline]
  exact line_iff hsome

/-- A branch forward. -/
theorem disassembly_beq : lineOf 0x100 (decode 0x00208463) =
    some ⟨"beq", [.reg 1, .reg 2, .addr 0x108]⟩ :=
  ((disassembly_iff 0x00208463 0x100).2 _ (by decide)).mpr (by
    show (0x00208463 : Word).msb = false
    decide)

/-- `addi ra, zero, -1` is printed with the immediate 4095. -/
theorem negative_immediate_wrong : ¬∀ instr pc line, disassemble instr pc = some line →
    lineOf pc (decode instr) = some line := by
  intro h
  have hwrong := h 0xFFF00093 0 ⟨"addi", [.reg 1, .reg 0, .int 4095]⟩ (by decide)
  revert hwrong
  decide

end Disassembler
end RiscvEmulator.Debug
