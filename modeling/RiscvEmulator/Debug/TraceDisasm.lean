import Mathlib.Data.Nat.Digits.Defs
import RiscvEmulator.Debug.Disassembler

/-! # The disassembly of the trace

`disasm` of `Core.cpp`, which names an instruction for the log of a step, and for which words
the instruction it names is the one that is executed. -/
namespace RiscvEmulator.Debug
open RiscvEmulator.System Memory Cores Isa

namespace Trace

/-- An `x` with the digits of a register, a decimal number, a number after `0x`, digits alone,
and a register in brackets, after a number or alone. The digits are kept as they are written,
the last one first. -/
inductive Operand where
  | x (digits : List Nat)
  | int (v : Word)
  | hex (v : Word)
  | digits (digits : List Nat)
  | indexed (v : Word) (digits : List Nat)
  | indirect (digits : List Nat)
deriving DecidableEq, Repr

/-- The digits of a register's number. -/
def decimal (r : Cores.Reg) : List Nat := Nat.digits 10 r.toNat

def xReg (r : Cores.Reg) : Operand := .x (decimal r)

def csrMnemonic : CsrOp → String
  | .rw => "csrrw"
  | .rs => "csrrs"
  | .rc => "csrrc"

def csrImmMnemonic : CsrOp → String
  | .rw => "csrrwi"
  | .rs => "csrrsi"
  | .rc => "csrrci"

/-! ## The formats -/

section
variable (instr : Word)

def immLine (mnemonic : String) (imm : Word) : Line Operand :=
  ⟨mnemonic, [xReg (rdOf instr), xReg (rs1Of instr), .int imm]⟩

def opLine (mnemonic : String) : Line Operand :=
  ⟨mnemonic, [xReg (rdOf instr), xReg (rs1Of instr), xReg (rs2Of instr)]⟩

def amoLine (mnemonic : String) : Line Operand :=
  ⟨mnemonic, [xReg (rdOf instr), xReg (rs2Of instr), .indirect (decimal (rs1Of instr))]⟩

def upperLine (mnemonic : String) : Line Operand :=
  ⟨mnemonic, [xReg (rdOf instr), .hex (immU instr >>> 12)]⟩

def branchLine (mnemonic : String) : Line Operand :=
  ⟨mnemonic, [xReg (rs1Of instr), xReg (rs2Of instr), .int (immB instr)]⟩

def loadLine (mnemonic : String) : Line Operand :=
  ⟨mnemonic, [xReg (rdOf instr), .indexed (immI instr) (decimal (rs1Of instr))]⟩

def storeLine (mnemonic : String) : Line Operand :=
  ⟨mnemonic, [xReg (rs2Of instr), .indexed (immS instr) (decimal (rs1Of instr))]⟩

/-- The stream is set to hexadecimal digits for the CSR and set back at the end of the line,
so that what stands between is in hexadecimal digits as well. -/
def csrLine (mnemonic : String) : Line Operand :=
  ⟨mnemonic, [xReg (rdOf instr), .hex ((instr.extractLsb' 20 12).setWidth 32),
    .x (Nat.digits 16 (rs1Of instr).toNat)]⟩

def csrImmLine (mnemonic : String) : Line Operand :=
  ⟨mnemonic, [xReg (rdOf instr), .hex ((instr.extractLsb' 20 12).setWidth 32),
    .digits (Nat.digits 16 ((instr >>> 20) &&& 0x1F).toNat)]⟩

end

/-- What is printed for a word, `none` for nothing and for the names that begin with
`unknown`. -/
def disasm (instr : Word) : Option (Line Operand) :=
  let funct3 := funct3Of instr
  let funct7 := funct7Of instr
  let rs2 := rs2Of instr
  match opcode instr with
  | 0x13 => match funct3 with
    | 0x0 => some (immLine instr "addi" (immI instr))
    | 0x2 => some (immLine instr "slti" (immI instr))
    | 0x3 => some (immLine instr "sltiu" (immI instr))
    | 0x4 => some (immLine instr "xori" (immI instr))
    | 0x6 => some (immLine instr "ori" (immI instr))
    | 0x7 => some (immLine instr "andi" (immI instr))
    | 0x1 => some (immLine instr "slli" (immI instr &&& 0x1f))
    | 0x5 =>
      let shamt := immI instr &&& 0x1f
      if funct7 = 0x00 then some (immLine instr "srli" shamt)
      else if funct7 = 0x20 then some (immLine instr "srai" shamt)
      else none
    | _ => none
  | 0x2F =>
    if funct3 = 0x2 then
      match funct7.extractLsb' 2 5 with
      | 0x02 => some ⟨"lr.w", [xReg (rdOf instr), .indirect (decimal (rs1Of instr))]⟩
      | 0x03 => some (amoLine instr "sc.w")
      | 0x00 => some (amoLine instr "amoadd.w")
      | 0x01 => some (amoLine instr "amoswap.w")
      | 0x04 => some (amoLine instr "amoand.w")
      | 0x08 => some (amoLine instr "amoor.w")
      | 0x0C => some (amoLine instr "amoxor.w")
      | 0x10 => some (amoLine instr "amomin.w")
      | 0x14 => some (amoLine instr "amomax.w")
      | 0x18 => some (amoLine instr "amominu.w")
      | 0x1C => some (amoLine instr "amomaxu.w")
      | _ => none
    else none
  | 0x33 => match funct3 with
    | 0x0 =>
      if funct7 = 0x00 then some (opLine instr "add")
      else if funct7 = 0x20 then some (opLine instr "sub")
      else if funct7 = 0x01 then some (opLine instr "mul")
      else none
    | 0x1 =>
      if funct7 = 0x01 ∧ rs2 = 0x01 then some (opLine instr "mulh")
      else if funct7 = 0x01 ∧ rs2 = 0x02 then some (opLine instr "mulhsu")
      else if funct7 = 0x01 ∧ rs2 = 0x03 then some (opLine instr "mulhu")
      else some (opLine instr "sll")
    | 0x2 => some (opLine instr "slt")
    | 0x3 => some (opLine instr "sltu")
    | 0x4 => some (opLine instr "xor")
    | 0x5 =>
      if funct7 = 0x00 then some (opLine instr "srl")
      else if funct7 = 0x20 then some (opLine instr "sra")
      else if funct7 = 0x01 then some (opLine instr "div")
      else if funct7 = 0x05 then some (opLine instr "divu")
      else if funct7 = 0x21 then some (opLine instr "rem")
      else if funct7 = 0x25 then some (opLine instr "remu")
      else none
    | 0x6 => some (opLine instr "or")
    | 0x7 => some (opLine instr "and")
    | _ => none
  | 0x37 => some (upperLine instr "lui")
  | 0x17 => some (upperLine instr "auipc")
  | 0x6F => some ⟨"jal", [xReg (rdOf instr), .int (immJ instr)]⟩
  | 0x67 => if funct3 = 0x0 then some (loadLine instr "jalr") else none
  | 0x63 => match funct3 with
    | 0x0 => some (branchLine instr "beq")
    | 0x1 => some (branchLine instr "bne")
    | 0x4 => some (branchLine instr "blt")
    | 0x5 => some (branchLine instr "bge")
    | 0x6 => some (branchLine instr "bltu")
    | 0x7 => some (branchLine instr "bgeu")
    | _ => none
  | 0x03 => match funct3 with
    | 0x2 => some (loadLine instr "lw")
    | 0x0 => some (loadLine instr "lb")
    | 0x1 => some (loadLine instr "lh")
    | 0x4 => some (loadLine instr "lbu")
    | 0x5 => some (loadLine instr "lhu")
    | _ => none
  | 0x23 => match funct3 with
    | 0x0 => some (storeLine instr "sb")
    | 0x1 => some (storeLine instr "sh")
    | 0x2 => some (storeLine instr "sw")
    | _ => none
  | 0x73 => match funct3 with
    | 0x0 =>
      if funct7.toNat = 0x105 ∧ instr.extractLsb' 20 12 = 0x105 then
        some ⟨"wfi", [xReg (rdOf instr)]⟩
      else none
    | 0x1 => some (csrLine instr "csrrw")
    | 0x2 => some (csrLine instr "csrrs")
    | 0x3 => some (csrLine instr "csrrc")
    | 0x5 => some (csrImmLine instr "csrrwi")
    | 0x6 => some (csrImmLine instr "csrrsi")
    | 0x7 => some (csrImmLine instr "csrrci")
    | _ => none
  | _ => none

/-! ## The line of an executed instruction -/

/-- How the instruction that a step executes is written in these formats, its numbers in
decimal digits. -/
def traceLine : Decoded → Option (Line Operand)
  | .imm op rd rs1 imm => some ⟨immMnemonic op, [xReg rd, xReg rs1, .int imm]⟩
  | .shift op rd rs1 shamt => some ⟨shiftMnemonic op, [xReg rd, xReg rs1, .int shamt]⟩
  | .op op rd rs1 rs2 => some ⟨aluMnemonic op, [xReg rd, xReg rs1, xReg rs2]⟩
  | .mulDiv op rd rs1 rs2 => some ⟨mulDivMnemonic op, [xReg rd, xReg rs1, xReg rs2]⟩
  | .lui rd imm => some ⟨"lui", [xReg rd, .hex (imm >>> 12)]⟩
  | .auipc rd imm => some ⟨"auipc", [xReg rd, .hex (imm >>> 12)]⟩
  | .jal rd offset => some ⟨"jal", [xReg rd, .int offset]⟩
  | .jalr rd rs1 imm => some ⟨"jalr", [xReg rd, .indexed imm (decimal rs1)]⟩
  | .branch op rs1 rs2 offset =>
    some ⟨branchMnemonic op, [xReg rs1, xReg rs2, .int offset]⟩
  | .load op rd rs1 imm => some ⟨loadMnemonic op, [xReg rd, .indexed imm (decimal rs1)]⟩
  | .store op rs2 rs1 imm => some ⟨storeMnemonic op, [xReg rs2, .indexed imm (decimal rs1)]⟩
  | .lr rd rs1 => some ⟨"lr.w", [xReg rd, .indirect (decimal rs1)]⟩
  | .sc rd rs1 rs2 => some ⟨"sc.w", [xReg rd, xReg rs2, .indirect (decimal rs1)]⟩
  | .amo op rd rs1 rs2 => some ⟨amoMnemonic op, [xReg rd, xReg rs2, .indirect (decimal rs1)]⟩
  | .csr op rd csrAddr rs1 =>
    some ⟨csrMnemonic op, [xReg rd, .hex (csrAddr.setWidth 32), xReg rs1]⟩
  | .csrImm op rd csrAddr imm => some ⟨csrImmMnemonic op,
      [xReg rd, .hex (csrAddr.setWidth 32), .digits (Nat.digits 10 imm.toNat)]⟩
  | _ => none

/-- The words that are traced as they are executed. -/
def TracedRight (instr : Word) : Prop :=
  match opcode instr with
  | 0x33 => match funct3Of instr with
    | 0x4 | 0x6 | 0x7 => funct7Of instr = 0x00
    | 0x5 => funct7Of instr ≠ 0x01 ∧ funct7Of instr ≠ 0x05
    | _ => True
  | 0x73 => match funct3Of instr with
    | 0x1 | 0x2 | 0x3 => (rs1Of instr).toNat < 10
    | 0x5 | 0x6 | 0x7 => ((instr >>> 20) &&& 0x1F).toNat < 10
    | _ => True
  | _ => True

/-! ## Agreement -/

variable {instr : Word}

theorem digits_eq_iff {k : Nat} (h : k < 32) : Nat.digits 10 k = Nat.digits 16 k ↔ k < 10 := by
  revert k
  decide

theorem opImm_traced (h : opcode instr = 0x13) (hsome : disasm instr ≠ none) :
    traceLine (decode instr) = disasm instr := by
  have h' : opcode instr = 0x13#7 := h
  simp only [disasm, decode, h'] at hsome ⊢
  rcases funct3_cases (funct3Of instr) with h3 | h3 | h3 | h3 | h3 | h3 | h3 | h3 <;>
    rw [h3] at hsome ⊢
  case inr.inr.inr.inr.inr.inl =>
    by_cases hl : funct7Of instr = 0x00
    · rw [hl]
      rfl
    · by_cases ha : funct7Of instr = 0x20
      · rw [ha]
        rfl
      · exact absurd ((if_neg hl).trans (if_neg ha)) hsome
  all_goals rfl

theorem amo_traced (h : opcode instr = 0x2F) : traceLine (decode instr) = disasm instr := by
  have h' : opcode instr = 0x2F#7 := h
  simp only [disasm, decode, h']
  by_cases h3 : funct3Of instr = 0x2
  · rw [if_pos h3, if_pos h3]
    generalize (funct7Of instr).extractLsb' 2 5 = funct5
    obtain ⟨⟨k, hk⟩⟩ := funct5
    interval_cases k <;> rfl
  · rw [if_neg h3, if_neg h3]
    rfl

/-- The trace names an operation of `funct3` 4, 6 or 7 whatever `funct7` is. -/
theorem decoded_traced_iff {o : MulDivOp} {p : AluOp} (h : mulDivMnemonic o ≠ aluMnemonic p)
    (funct7 : BitVec 7) (rd rs1 rs2 : Cores.Reg) :
    traceLine (if funct7 = 0x01 then .mulDiv o rd rs1 rs2
      else if funct7 = 0x00 then .op p rd rs1 rs2 else .skip) =
        some ⟨aluMnemonic p, [xReg rd, xReg rs1, xReg rs2]⟩ ↔ funct7 = 0x00 := by
  by_cases h1 : funct7 = 0x01
  · rw [if_pos h1, h1]
    exact iff_of_false (ne_of_mnemonic h) (by decide)
  · rw [if_neg h1]
    by_cases h0 : funct7 = 0x00
    · rw [if_pos h0]
      exact iff_of_true rfl h0
    · rw [if_neg h0]
      exact iff_of_false (fun heq => nomatch heq) h0

/-- It tells the high products apart as the step does. -/
theorem highProduct_traced (funct7 : BitVec 7) (rd rs1 rs2 : Cores.Reg) :
    traceLine (decodeOp 0x1 funct7 rd rs1 rs2) =
      if funct7 = 0x01 ∧ rs2 = 0x01 then some ⟨"mulh", [xReg rd, xReg rs1, xReg rs2]⟩
      else if funct7 = 0x01 ∧ rs2 = 0x02 then some ⟨"mulhsu", [xReg rd, xReg rs1, xReg rs2]⟩
      else if funct7 = 0x01 ∧ rs2 = 0x03 then some ⟨"mulhu", [xReg rd, xReg rs1, xReg rs2]⟩
      else some ⟨"sll", [xReg rd, xReg rs1, xReg rs2]⟩ := by
  by_cases h1 : funct7 = 0x01
  · subst h1
    simp only [decodeOp_mulh, true_and]
    by_cases hr1 : rs2 = 0x01
    · rw [if_pos hr1, if_pos hr1]
      rfl
    by_cases hr2 : rs2 = 0x02
    · rw [if_neg hr1, if_neg hr1, if_pos hr2, if_pos hr2]
      rfl
    by_cases hr3 : rs2 = 0x03
    · rw [if_neg hr1, if_neg hr1, if_neg hr2, if_neg hr2, if_pos hr3, if_pos hr3]
      rfl
    rw [if_neg hr1, if_neg hr1, if_neg hr2, if_neg hr2, if_neg hr3, if_neg hr3]
    rfl
  · have hdecode : decodeOp 0x1 funct7 rd rs1 rs2 = .op .sll rd rs1 rs2 := if_neg h1
    rw [hdecode]
    simp only [h1, false_and, if_false]
    rfl

theorem op_traced (h : opcode instr = 0x33) (hsome : disasm instr ≠ none) :
    traceLine (decode instr) = disasm instr ↔ TracedRight instr := by
  have h' : opcode instr = 0x33#7 := h
  simp only [disasm, decode, TracedRight, h'] at hsome ⊢
  rcases funct3_cases (funct3Of instr) with h3 | h3 | h3 | h3 | h3 | h3 | h3 | h3 <;>
    rw [h3] at hsome ⊢
  · refine iff_of_true ?_ trivial
    by_cases h0 : funct7Of instr = 0x00
    · rw [h0]
      rfl
    by_cases h20 : funct7Of instr = 0x20
    · rw [h20]
      rfl
    by_cases h1 : funct7Of instr = 0x01
    · rw [h1]
      rfl
    exact absurd ((if_neg h0).trans ((if_neg h20).trans (if_neg h1))) hsome
  · refine iff_of_true ?_ trivial
    exact highProduct_traced (funct7Of instr) (rdOf instr) (rs1Of instr) (rs2Of instr)
  · exact iff_of_true rfl trivial
  · exact iff_of_true rfl trivial
  · exact decoded_traced_iff (o := .div) (p := .xor) (by decide) _ _ _ _
  · by_cases h0 : funct7Of instr = 0x00
    · rw [h0]
      exact iff_of_true rfl ⟨by decide, by decide⟩
    by_cases h20 : funct7Of instr = 0x20
    · rw [h20]
      exact iff_of_true rfl ⟨by decide, by decide⟩
    by_cases h1 : funct7Of instr = 0x01
    · rw [h1]
      exact iff_of_false (ne_of_mnemonic (show "divu" ≠ "div" by decide)) fun h => h.1 rfl
    by_cases h5 : funct7Of instr = 0x05
    · rw [h5]
      refine iff_of_false (fun heq => ?_) fun h => h.2 rfl
      cases heq
    by_cases h21 : funct7Of instr = 0x21
    · rw [h21]
      exact iff_of_true rfl ⟨by decide, by decide⟩
    by_cases h25 : funct7Of instr = 0x25
    · rw [h25]
      exact iff_of_true rfl ⟨by decide, by decide⟩
    exact absurd ((if_neg h0).trans ((if_neg h20).trans ((if_neg h1).trans ((if_neg h5).trans
      ((if_neg h21).trans (if_neg h25)))))) hsome
  · exact decoded_traced_iff (o := .rem) (p := .or) (by decide) _ _ _ _
  · exact decoded_traced_iff (o := .remu) (p := .and) (by decide) _ _ _ _

theorem load_traced (h : opcode instr = 0x03) : traceLine (decode instr) = disasm instr := by
  have h' : opcode instr = 0x03#7 := h
  simp only [disasm, decode, h']
  rcases funct3_cases (funct3Of instr) with h3 | h3 | h3 | h3 | h3 | h3 | h3 | h3 <;>
    rw [h3] <;> rfl

theorem store_traced (h : opcode instr = 0x23) : traceLine (decode instr) = disasm instr := by
  have h' : opcode instr = 0x23#7 := h
  simp only [disasm, decode, h']
  rcases funct3_cases (funct3Of instr) with h3 | h3 | h3 | h3 | h3 | h3 | h3 | h3 <;>
    rw [h3] <;> rfl

theorem branch_traced (h : opcode instr = 0x63) : traceLine (decode instr) = disasm instr := by
  have h' : opcode instr = 0x63#7 := h
  simp only [disasm, decode, h']
  rcases funct3_cases (funct3Of instr) with h3 | h3 | h3 | h3 | h3 | h3 | h3 | h3 <;>
    rw [h3] <;> rfl

theorem jalr_traced (h : opcode instr = 0x67) : traceLine (decode instr) = disasm instr := by
  have h' : opcode instr = 0x67#7 := h
  simp only [disasm, decode, h']
  by_cases h3 : funct3Of instr = 0x0
  · rw [if_pos h3, if_pos h3]
    rfl
  · rw [if_neg h3, if_neg h3]
    rfl

/-- The register after the CSR is right if it has one digit. -/
theorem csr_iff {mnemonic : String} {csrAddr : Word} (rd rs1 : Cores.Reg) :
    (some ⟨mnemonic, [xReg rd, .hex csrAddr, xReg rs1]⟩ : Option (Line Operand)) =
      some ⟨mnemonic, [xReg rd, .hex csrAddr, .x (Nat.digits 16 rs1.toNat)]⟩ ↔ rs1.toNat < 10 := by
  rw [← digits_eq_iff rs1.isLt]
  simp [xReg, decimal]

theorem csrImm_iff {mnemonic : String} {csrAddr : Word} (rd : Cores.Reg) {imm : Word}
    (himm : imm.toNat < 32) :
    (some ⟨mnemonic, [xReg rd, .hex csrAddr, .digits (Nat.digits 10 imm.toNat)]⟩ :
      Option (Line Operand)) =
      some ⟨mnemonic, [xReg rd, .hex csrAddr, .digits (Nat.digits 16 imm.toNat)]⟩ ↔
        imm.toNat < 10 := by
  rw [← digits_eq_iff himm]
  simp

theorem system_traced (h : opcode instr = 0x73) (hsome : disasm instr ≠ none) :
    traceLine (decode instr) = disasm instr ↔ TracedRight instr := by
  have h' : opcode instr = 0x73#7 := h
  have himm : ((instr >>> 20) &&& 0x1F).toNat < 32 := by
    rw [toNat_and_31]
    exact Nat.mod_lt _ (by decide)
  simp only [disasm, decode, decodeSystem, TracedRight, h'] at hsome ⊢
  rcases funct3_cases (funct3Of instr) with h3 | h3 | h3 | h3 | h3 | h3 | h3 | h3 <;>
    rw [h3] at hsome ⊢
  · have hwfi : ¬((funct7Of instr).toNat = 0x105 ∧ instr.extractLsb' 20 12 = 0x105) := fun h =>
      absurd (funct7Of instr).isLt (by omega)
    exact absurd (if_neg hwfi) hsome
  · exact csr_iff _ _
  · exact csr_iff _ _
  · exact csr_iff _ _
  · exact absurd rfl hsome
  · exact csrImm_iff _ himm
  · exact csrImm_iff _ himm
  · exact csrImm_iff _ himm

theorem opcode_of_traced (h : disasm instr ≠ none) : opcode instr = 0x13 ∨
    opcode instr = 0x2F ∨ opcode instr = 0x33 ∨ opcode instr = 0x37 ∨ opcode instr = 0x17 ∨
    opcode instr = 0x6F ∨ opcode instr = 0x67 ∨ opcode instr = 0x63 ∨ opcode instr = 0x03 ∨
    opcode instr = 0x23 ∨ opcode instr = 0x73 := by
  unfold disasm at h
  dsimp only at h
  split at h
  case h_12 => exact absurd rfl h
  all_goals
    next hop => simp [hop]

theorem tracedRight_of_opcode (hop : opcode instr ≠ 0x33) (hsystem : opcode instr ≠ 0x73) :
    TracedRight instr := by
  unfold TracedRight
  split
  · next h => exact absurd h hop
  · next h => exact absurd h hsystem
  · trivial

theorem traced_iff (hsome : disasm instr ≠ none) :
    traceLine (decode instr) = disasm instr ↔ TracedRight instr := by
  by_cases hop : opcode instr = 0x33
  · exact op_traced hop hsome
  by_cases hsystem : opcode instr = 0x73
  · exact system_traced hsystem hsome
  refine iff_of_true ?_ (tracedRight_of_opcode hop hsystem)
  rcases opcode_of_traced hsome with h | h | h | h | h | h | h | h | h | h | h
  · exact opImm_traced h hsome
  · exact amo_traced h
  · exact absurd h hop
  · have h' : opcode instr = 0x37#7 := h
    simp only [disasm, decode, h']
    rfl
  · have h' : opcode instr = 0x17#7 := h
    simp only [disasm, decode, h']
    rfl
  · have h' : opcode instr = 0x6F#7 := h
    simp only [disasm, decode, h']
    rfl
  · exact jalr_traced h
  · exact branch_traced h
  · exact load_traced h
  · exact store_traced h
  · exact absurd h hsystem

/-- Every step executes what its word is decoded to, and the line in the trace is the line of
it exactly for the words of `TracedRight`. -/
theorem trace_iff (instr : Word) :
    (∀ {N n : Nat} (s : Simulator N n) (i : Fin N), s.execute i instr = s.run i (decode instr)) ∧
    ∀ line, disasm instr = some line →
      (traceLine (decode instr) = some line ↔ TracedRight instr) := by
  refine ⟨fun s i => s.execute_decode i instr, fun line hline => ?_⟩
  have hsome : disasm instr ≠ none := by
    rw [hline]
    exact Option.some_ne_none line
  rw [← hline]
  exact traced_iff hsome

/-- A load with a negative offset. -/
theorem trace_lw : traceLine (decode 0xFFC12083) =
    some ⟨"lw", [.x [1], .indexed (-4) [2]]⟩ :=
  ((trace_iff 0xFFC12083).2 _ (by decide)).mpr trivial

/-- DIVU is traced as `div`. -/
theorem divu_traced_as_div : ¬∀ instr line, disasm instr = some line →
    traceLine (decode instr) = some line := by
  intro h
  have hwrong := h 0x023150B3 ⟨"div", [.x [1], .x [2], .x [3]]⟩ (by decide)
  revert hwrong
  decide

end Trace
end RiscvEmulator.Debug
