import RiscvEmulator.Isa.LoadStore
import RiscvEmulator.Isa.RvM

/-! # The instructions of a hart

The instructions of RV32IM without ECALL and EBREAK, and the read of the hart's
number: their encodings, and a decoder that inverts these. -/
namespace RiscvEmulator.Isa

/-! ## Words from their fields -/

section
variable (w : BitVec 32)

/-- The offset of a branch. -/
def bOffset : BitVec 12 :=
  w.extractLsb' 31 1 ++ w.extractLsb' 7 1 ++ w.extractLsb' 25 6 ++ w.extractLsb' 8 4

/-- The offset of a jump. -/
def jOffset : BitVec 20 :=
  w.extractLsb' 31 1 ++ w.extractLsb' 12 8 ++ w.extractLsb' 20 1 ++ w.extractLsb' 21 10

/-- The immediate of a store. -/
def sImmediate : BitVec 12 := w.extractLsb' 25 7 ++ w.extractLsb' 7 5

theorem rType_eq : rType (w.extractLsb' 25 7) (w.extractLsb' 20 5) (w.extractLsb' 15 5)
    (w.extractLsb' 12 3) (w.extractLsb' 7 5) (w.extractLsb' 0 7) = w := by
  unfold rType
  refine BitVec.eq_of_getLsbD_eq fun j hj => ?_
  simp only [BitVec.getLsbD_append, BitVec.getLsbD_extractLsb']
  grind

theorem iType_eq : iType (w.extractLsb' 15 5) (w.extractLsb' 12 3) (w.extractLsb' 7 5)
    (w.extractLsb' 0 7) (w.extractLsb' 20 12) = w := by
  unfold iType
  refine BitVec.eq_of_getLsbD_eq fun j hj => ?_
  simp only [BitVec.getLsbD_append, BitVec.getLsbD_extractLsb']
  grind

theorem sType_eq : sType (w.extractLsb' 20 5) (w.extractLsb' 15 5) (w.extractLsb' 12 3)
    (w.extractLsb' 0 7) (sImmediate w) = w := by
  unfold sType sImmediate
  simp (disch := omega) only [BitVec.extractLsb'_append_eq_of_le,
    BitVec.extractLsb'_append_eq_of_add_le, Nat.reduceSub, BitVec.extractLsb'_eq_self]
  refine BitVec.eq_of_getLsbD_eq fun j hj => ?_
  simp only [BitVec.getLsbD_append, BitVec.getLsbD_extractLsb']
  grind

theorem bType_eq : bType (w.extractLsb' 20 5) (w.extractLsb' 15 5) (w.extractLsb' 12 3)
    (w.extractLsb' 0 7) (bOffset w) = w := by
  unfold bType bOffset
  simp (disch := omega) only [BitVec.extractLsb'_append_eq_of_le,
    BitVec.extractLsb'_append_eq_of_add_le, Nat.reduceSub, BitVec.extractLsb'_eq_self]
  refine BitVec.eq_of_getLsbD_eq fun j hj => ?_
  simp only [BitVec.getLsbD_append, BitVec.getLsbD_extractLsb']
  grind

theorem uType_eq : uType (w.extractLsb' 7 5) (w.extractLsb' 0 7) (w.extractLsb' 12 20) = w := by
  unfold uType
  refine BitVec.eq_of_getLsbD_eq fun j hj => ?_
  simp only [BitVec.getLsbD_append, BitVec.getLsbD_extractLsb']
  grind

theorem jType_eq : jType (w.extractLsb' 7 5) (w.extractLsb' 0 7) (jOffset w) = w := by
  unfold jType jOffset
  simp (disch := omega) only [BitVec.extractLsb'_append_eq_of_le,
    BitVec.extractLsb'_append_eq_of_add_le, Nat.reduceSub, BitVec.extractLsb'_eq_self]
  refine BitVec.eq_of_getLsbD_eq fun j hj => ?_
  simp only [BitVec.getLsbD_append, BitVec.getLsbD_extractLsb']
  grind

end

section
variable (rs2 rs1 rd : Reg) (funct3 : BitVec 3) (opcode : BitVec 7)

theorem sImmediate_sType (imm : BitVec 12) :
    sImmediate (sType rs2 rs1 funct3 opcode imm) = imm := by
  obtain ⟨_, hlow, _, _, _, hhigh⟩ := sType_fields rs2 rs1 funct3 opcode imm
  unfold sImmediate
  rw [hlow, hhigh]
  refine BitVec.eq_of_getLsbD_eq fun j hj => ?_
  simp only [BitVec.getLsbD_append, BitVec.getLsbD_extractLsb']
  grind

theorem bOffset_bType (offset : BitVec 12) :
    bOffset (bType rs2 rs1 funct3 opcode offset) = offset := by
  obtain ⟨_, h11, hlow, _, _, _, hmid, h12⟩ := bType_fields rs2 rs1 funct3 opcode offset
  unfold bOffset
  rw [h11, hlow, hmid, h12]
  refine BitVec.eq_of_getLsbD_eq fun j hj => ?_
  simp only [BitVec.getLsbD_append, BitVec.getLsbD_extractLsb']
  grind

theorem jOffset_jType (offset : BitVec 20) : jOffset (jType rd opcode offset) = offset := by
  obtain ⟨_, _, hmid, h11, hlow, h20⟩ := jType_fields rd opcode offset
  unfold jOffset
  rw [h11, hlow, hmid, h20]
  refine BitVec.eq_of_getLsbD_eq fun j hj => ?_
  simp only [BitVec.getLsbD_append, BitVec.getLsbD_extractLsb']
  grind

end

/-! ## Operations -/

def AluOp.all : List AluOp := [.add, .sub, .sll, .slt, .sltu, .xor, .srl, .sra, .or, .and]
def ImmOp.all : List ImmOp := [.addi, .slti, .sltiu, .xori, .ori, .andi]
def ShiftOp.all : List ShiftOp := [.slli, .srli, .srai]
def BranchOp.all : List BranchOp := [.beq, .bne, .blt, .bge, .bltu, .bgeu]
def MulDivOp.all : List MulDivOp := [.mul, .mulh, .mulhsu, .mulhu, .div, .divu, .rem, .remu]
def LoadOp.all : List LoadOp := [.lb, .lh, .lw, .lbu, .lhu]
def StoreOp.all : List StoreOp := [.sb, .sh, .sw]

/-- The operation with the given fields, if there is one. -/
def findOp {α β : Type} [DecidableEq β] (ops : List α) (fields : α → β) (w : β) : Option α :=
  ops.find? fun op => fields op = w

theorem fields_of_findOp {α β : Type} [DecidableEq β] {ops : List α} {fields : α → β} {w : β}
    {op : α} (h : findOp ops fields w = some op) : fields op = w := by
  unfold findOp at h
  simpa using List.find?_some h

/-! ## Instructions -/

/-- `fence` is FENCE or FENCE.I, with whatever fields; `hartId` is the read of
`mhartid`. -/
inductive Instr where
  | compute (instr : Rv32i)
  | mulDiv (instr : RvM)
  | load (instr : Load)
  | store (instr : Store)
  | fence (fields : BitVec 25)
  | hartId (rd : Reg)
deriving DecidableEq, Repr

namespace Instr

def encode : Instr → BitVec 32
  | compute instr => instr.encode
  | mulDiv instr => instr.encode
  | load instr => instr.encode
  | store instr => instr.encode
  | fence fields => fields ++ 0x0F#7
  | hartId rd => iType 0 0x2 rd 0x73 0xF14

def decode (w : BitVec 32) : Option Instr :=
  let rd := w.extractLsb' 7 5
  let funct3 := w.extractLsb' 12 3
  let rs1 := w.extractLsb' 15 5
  let rs2 := w.extractLsb' 20 5
  let funct7 := w.extractLsb' 25 7
  let imm := w.extractLsb' 20 12
  match w.extractLsb' 0 7 with
  | 0x33 =>
    if funct7 = 0x01 then
      (findOp MulDivOp.all MulDivOp.funct3 funct3).map fun op => mulDiv ⟨op, rd, rs1, rs2⟩
    else
      (findOp AluOp.all (fun op => (op.funct3, op.funct7)) (funct3, funct7)).map fun op =>
        compute (.op op rd rs1 rs2)
  | 0x13 =>
    match findOp ImmOp.all (·.aluOp.funct3) funct3 with
    | some op => some (compute (.opImm op rd rs1 imm))
    | none =>
      (findOp ShiftOp.all (fun op => (op.aluOp.funct3, op.aluOp.funct7)) (funct3, funct7)).map
        fun op => compute (.shiftImm op rd rs1 rs2)
  | 0x37 => some (compute (.lui rd (w.extractLsb' 12 20)))
  | 0x17 => some (compute (.auipc rd (w.extractLsb' 12 20)))
  | 0x6F => some (compute (.jal rd (jOffset w)))
  | 0x67 => if funct3 = 0x0 then some (compute (.jalr rd rs1 imm)) else none
  | 0x63 => (findOp BranchOp.all BranchOp.funct3 funct3).map fun op =>
      compute (.branch op rs1 rs2 (bOffset w))
  | 0x03 => (findOp LoadOp.all LoadOp.funct3 funct3).map fun op => load ⟨op, rd, rs1, imm⟩
  | 0x23 => (findOp StoreOp.all StoreOp.funct3 funct3).map fun op =>
      store ⟨op, rs2, rs1, sImmediate w⟩
  | 0x0F => some (fence (w.extractLsb' 7 25))
  | 0x73 => if funct3 = 0x2 ∧ rs1 = 0 ∧ imm = 0xF14 then some (hartId rd) else none
  | _ => none

/-- A word decodes to nothing but the instruction it encodes. -/
theorem encode_of_decode {w : BitVec 32} {instr : Instr} (h : decode w = some instr) :
    instr.encode = w := by
  have hr := rType_eq w
  have hi := iType_eq w
  have hs := sType_eq w
  have hb := bType_eq w
  have hu := uType_eq w
  have hj := jType_eq w
  unfold decode at h
  simp only at h
  split at h
  case h_1 ho =>
    rw [ho] at hr
    split at h
    · next h7 =>
      obtain ⟨op, hop, rfl⟩ := Option.map_eq_some_iff.mp h
      rw [h7, ← fields_of_findOp hop] at hr
      exact hr
    · obtain ⟨op, hop, rfl⟩ := Option.map_eq_some_iff.mp h
      have hfields := fields_of_findOp hop
      simp only [Prod.mk.injEq] at hfields
      obtain ⟨h3, h7⟩ := hfields
      rw [← h3, ← h7] at hr
      exact hr
  case h_2 ho =>
    rw [ho] at hi hr
    split at h
    · next op hop =>
      obtain rfl := Option.some.inj h
      rw [← fields_of_findOp hop] at hi
      exact hi
    · obtain ⟨op, hop, rfl⟩ := Option.map_eq_some_iff.mp h
      have hfields := fields_of_findOp hop
      simp only [Prod.mk.injEq] at hfields
      obtain ⟨h3, h7⟩ := hfields
      rw [← h3, ← h7] at hr
      exact hr
  case h_3 ho =>
    obtain rfl := Option.some.inj h
    rw [ho] at hu
    exact hu
  case h_4 ho =>
    obtain rfl := Option.some.inj h
    rw [ho] at hu
    exact hu
  case h_5 ho =>
    obtain rfl := Option.some.inj h
    rw [ho] at hj
    exact hj
  case h_6 ho =>
    split at h
    · next h3 =>
      obtain rfl := Option.some.inj h
      rw [ho, h3] at hi
      exact hi
    · cases h
  case h_7 ho =>
    obtain ⟨op, hop, rfl⟩ := Option.map_eq_some_iff.mp h
    rw [ho, ← fields_of_findOp hop] at hb
    exact hb
  case h_8 ho =>
    obtain ⟨op, hop, rfl⟩ := Option.map_eq_some_iff.mp h
    rw [ho, ← fields_of_findOp hop] at hi
    exact hi
  case h_9 ho =>
    obtain ⟨op, hop, rfl⟩ := Option.map_eq_some_iff.mp h
    rw [ho, ← fields_of_findOp hop] at hs
    exact hs
  case h_10 ho =>
    obtain rfl := Option.some.inj h
    unfold encode
    simp only
    rw [← ho]
    refine BitVec.eq_of_getLsbD_eq fun k hk => ?_
    simp only [BitVec.getLsbD_append, BitVec.getLsbD_extractLsb']
    grind
  case h_11 ho =>
    split at h
    · next hfields =>
      obtain rfl := Option.some.inj h
      obtain ⟨h3, h1, hcsr⟩ := hfields
      rw [ho, h3, h1, hcsr] at hi
      exact hi
    · cases h
  case h_12 => cases h

theorem fence_fields (fields : BitVec 25) :
    (fields ++ 0x0F#7).extractLsb' 0 7 = 0x0F#7 ∧
      (fields ++ 0x0F#7).extractLsb' 7 25 = fields := by
  simp (disch := omega) only [BitVec.extractLsb'_append_eq_of_le,
    BitVec.extractLsb'_append_eq_of_add_le]
  simp only [Nat.reduceSub, BitVec.extractLsb'_eq_self, and_self]

/-- And every instruction is found again in its word. -/
theorem decode_encode (instr : Instr) : decode instr.encode = some instr := by
  unfold decode encode
  cases instr with
  | compute instr =>
    cases instr with
    | op o rd rs1 rs2 =>
      obtain ⟨ho, hrd, h3, h1, h2, h7⟩ := rType_fields o.funct7 rs2 rs1 o.funct3 rd 0x33
      simp only [Rv32i.encode, ho, hrd, h3, h1, h2, h7]
      cases o <;> rfl
    | opImm o rd rs1 imm =>
      obtain ⟨ho, hrd, h3, h1, himm, _⟩ := iType_fields rs1 o.aluOp.funct3 rd 0x13 imm
      simp only [Rv32i.encode, ho, hrd, h3, h1, himm]
      cases o <;> rfl
    | shiftImm o rd rs1 shamt =>
      obtain ⟨ho, hrd, h3, h1, h2, h7⟩ :=
        rType_fields o.aluOp.funct7 shamt rs1 o.aluOp.funct3 rd 0x13
      simp only [Rv32i.encode, ho, hrd, h3, h1, h2, h7]
      cases o <;> rfl
    | lui rd imm =>
      obtain ⟨ho, hrd, himm⟩ := uType_fields rd 0x37 imm
      simp only [Rv32i.encode, ho, hrd, himm]
      rfl
    | auipc rd imm =>
      obtain ⟨ho, hrd, himm⟩ := uType_fields rd 0x17 imm
      simp only [Rv32i.encode, ho, hrd, himm]
      rfl
    | jal rd offset =>
      have ho := (jType_fields rd 0x6F offset).1
      have hrd := (jType_fields rd 0x6F offset).2.1
      simp only [Rv32i.encode, ho, hrd, jOffset_jType]
      rfl
    | jalr rd rs1 imm =>
      obtain ⟨ho, hrd, h3, h1, himm, _⟩ := iType_fields rs1 0x0 rd 0x67 imm
      simp only [Rv32i.encode, ho, hrd, h3, h1, himm]
      rfl
    | branch o rs1 rs2 offset =>
      obtain ⟨ho, _, _, h3, h1, h2, _, _⟩ := bType_fields rs2 rs1 o.funct3 0x63 offset
      simp only [Rv32i.encode, ho, h3, h1, h2, bOffset_bType]
      cases o <;> rfl
  | mulDiv instr =>
    obtain ⟨o, rd, rs1, rs2⟩ := instr
    obtain ⟨ho, hrd, h3, h1, h2, h7⟩ := rType_fields 0x01 rs2 rs1 o.funct3 rd 0x33
    simp only [RvM.encode, ho, hrd, h3, h1, h2, h7, if_true]
    cases o <;> rfl
  | load instr =>
    obtain ⟨o, rd, rs1, imm⟩ := instr
    obtain ⟨ho, hrd, h3, h1, himm, _⟩ := iType_fields rs1 o.funct3 rd 0x03 imm
    simp only [Load.encode, ho, hrd, h3, h1, himm]
    cases o <;> rfl
  | store instr =>
    obtain ⟨o, rs2, rs1, imm⟩ := instr
    obtain ⟨ho, _, h3, h1, h2, _⟩ := sType_fields rs2 rs1 o.funct3 0x23 imm
    simp only [Store.encode, ho, h3, h1, h2, sImmediate_sType]
    cases o <;> rfl
  | fence fields =>
    obtain ⟨ho, hfields⟩ := fence_fields fields
    simp only [ho, hfields]
  | hartId rd =>
    obtain ⟨ho, hrd, h3, h1, himm, _⟩ := iType_fields 0 0x2 rd 0x73 0xF14
    simp only [ho, hrd, h3, h1, himm]
    rfl

end Instr
end RiscvEmulator.Isa
