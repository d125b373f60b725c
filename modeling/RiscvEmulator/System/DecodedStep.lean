import RiscvEmulator.Cores.Compute
import RiscvEmulator.Cores.MulDiv
import RiscvEmulator.Isa.LoadStore
import RiscvEmulator.Isa.RvA
import RiscvEmulator.Isa.Zicsr
import RiscvEmulator.System.Execution

/-! # What a step makes of a word

The operation, registers and immediate that the switch of `Core::step` takes out of a word,
apart from what it does with them. Every word is executed as what it is decoded to. -/
namespace RiscvEmulator.System
open Memory Cores Isa

/-- The operations of the switch, and what its cases do with words that name none. -/
inductive Decoded where
  | imm (op : ImmOp) (rd rs1 : Cores.Reg) (imm : Word)
  | shift (op : ShiftOp) (rd rs1 : Cores.Reg) (shamt : Word)
  | op (op : AluOp) (rd rs1 rs2 : Cores.Reg)
  | mulDiv (op : MulDivOp) (rd rs1 rs2 : Cores.Reg)
  | lui (rd : Cores.Reg) (imm : Word)
  | auipc (rd : Cores.Reg) (imm : Word)
  | jal (rd : Cores.Reg) (offset : Word)
  | jalr (rd rs1 : Cores.Reg) (imm : Word)
  | branch (op : BranchOp) (rs1 rs2 : Cores.Reg) (offset : Word)
  | load (op : LoadOp) (rd rs1 : Cores.Reg) (imm : Word)
  | store (op : StoreOp) (rs2 rs1 : Cores.Reg) (imm : Word)
  | lr (rd rs1 : Cores.Reg)
  | sc (rd rs1 rs2 : Cores.Reg)
  | amo (op : AmoOp) (rd rs1 rs2 : Cores.Reg)
  | csr (op : CsrOp) (rd : Cores.Reg) (csrAddr : BitVec 12) (rs1 : Cores.Reg)
  | csrImm (op : CsrOp) (rd : Cores.Reg) (csrAddr : BitVec 12) (imm : Word)
  | ecall
  | mret (csrAddr : BitVec 12)
  /-- It has no case of its own, and going on is all it has to do. -/
  | fence
  /-- Go on, and nothing else. -/
  | skip
  | strayLoad (rd rs1 : Cores.Reg) (imm : Word)
  | strayStore (rs2 rs1 : Cores.Reg) (imm : Word)
  | strayAmo (rd rs1 : Cores.Reg)
  | straySystem (rd : Cores.Reg) (csrAddr : BitVec 12)
deriving DecidableEq, Repr

/-! ## The cases of the switch -/

def decodeImm (funct3 : BitVec 3) (funct7Imm : BitVec 7) (rd rs1 : Cores.Reg) (imm : Word) :
    Decoded :=
  match funct3 with
  | 0x0 => .imm .addi rd rs1 imm
  | 0x2 => .imm .slti rd rs1 imm
  | 0x3 => .imm .sltiu rd rs1 imm
  | 0x4 => .imm .xori rd rs1 imm
  | 0x6 => .imm .ori rd rs1 imm
  | 0x7 => .imm .andi rd rs1 imm
  | 0x1 => .shift .slli rd rs1 (imm &&& 0x1f)
  | 0x5 =>
    if funct7Imm = 0x00 then .shift .srli rd rs1 (imm &&& 0x1f)
    else if funct7Imm = 0x20 then .shift .srai rd rs1 (imm &&& 0x1f)
    else .skip
  | _ => .skip

def decodeOp (funct3 : BitVec 3) (funct7 : BitVec 7) (rd rs1 rs2 : Cores.Reg) : Decoded :=
  match funct3 with
  | 0x0 =>
    if funct7 = 0x00 then .op .add rd rs1 rs2
    else if funct7 = 0x20 then .op .sub rd rs1 rs2
    else if funct7 = 0x01 then .mulDiv .mul rd rs1 rs2
    else .skip
  | 0x1 =>
    if funct7 = 0x01 then
      if rs2 = 0x01 then .mulDiv .mulh rd rs1 rs2
      else if rs2 = 0x02 then .mulDiv .mulhsu rd rs1 rs2
      else if rs2 = 0x03 then .mulDiv .mulhu rd rs1 rs2
      else .op .sll rd rs1 rs2
    else .op .sll rd rs1 rs2
  | 0x2 => .op .slt rd rs1 rs2
  | 0x3 => .op .sltu rd rs1 rs2
  | 0x4 =>
    if funct7 = 0x01 then .mulDiv .div rd rs1 rs2
    else if funct7 = 0x00 then .op .xor rd rs1 rs2
    else .skip
  | 0x5 =>
    if funct7 = 0x01 then .mulDiv .divu rd rs1 rs2
    else if funct7 = 0x21 then .mulDiv .rem rd rs1 rs2
    else if funct7 = 0x25 then .mulDiv .remu rd rs1 rs2
    else if funct7 = 0x00 then .op .srl rd rs1 rs2
    else if funct7 = 0x20 then .op .sra rd rs1 rs2
    else .skip
  | 0x6 =>
    if funct7 = 0x01 then .mulDiv .rem rd rs1 rs2
    else if funct7 = 0x00 then .op .or rd rs1 rs2
    else .skip
  | 0x7 =>
    if funct7 = 0x01 then .mulDiv .remu rd rs1 rs2
    else if funct7 = 0x00 then .op .and rd rs1 rs2
    else .skip
  | _ => .skip

def decodeLoad (funct3 : BitVec 3) (rd rs1 : Cores.Reg) (imm : Word) : Decoded :=
  match funct3 with
  | 0x2 => .load .lw rd rs1 imm
  | 0x0 => .load .lb rd rs1 imm
  | 0x4 => .load .lbu rd rs1 imm
  | 0x1 => .load .lh rd rs1 imm
  | 0x5 => .load .lhu rd rs1 imm
  | _ => .strayLoad rd rs1 imm

def decodeStore (funct3 : BitVec 3) (rs2 rs1 : Cores.Reg) (imm : Word) : Decoded :=
  match funct3 with
  | 0x2 => .store .sw rs2 rs1 imm
  | 0x0 => .store .sb rs2 rs1 imm
  | 0x1 => .store .sh rs2 rs1 imm
  | _ => .strayStore rs2 rs1 imm

/-- AMOAND and AMOXOR have each other's number. -/
def decodeAmo (funct5 : BitVec 5) (rd rs1 rs2 : Cores.Reg) : Decoded :=
  match funct5 with
  | 0x00 => .amo .add rd rs1 rs2
  | 0x01 => .amo .swap rd rs1 rs2
  | 0x04 => .amo .and rd rs1 rs2
  | 0x08 => .amo .or rd rs1 rs2
  | 0x0C => .amo .xor rd rs1 rs2
  | 0x10 => .amo .min rd rs1 rs2
  | 0x14 => .amo .max rd rs1 rs2
  | 0x18 => .amo .minu rd rs1 rs2
  | 0x1C => .amo .maxu rd rs1 rs2
  | 0x02 => .lr rd rs1
  | 0x03 => .sc rd rs1 rs2
  | _ => .strayAmo rd rs1

def decodeBranch (funct3 : BitVec 3) (rs1 rs2 : Cores.Reg) (offset : Word) : Decoded :=
  match funct3 with
  | 0x0 => .branch .beq rs1 rs2 offset
  | 0x1 => .branch .bne rs1 rs2 offset
  | 0x4 => .branch .blt rs1 rs2 offset
  | 0x5 => .branch .bge rs1 rs2 offset
  | 0x6 => .branch .bltu rs1 rs2 offset
  | 0x7 => .branch .bgeu rs1 rs2 offset
  | _ => .skip

/-- The test for WFI never holds. -/
def decodeSystemOther (instr : Word) : Decoded :=
  let rd := rdOf instr
  let rs1 := rs1Of instr
  let funct7 := (funct7Of instr).toNat
  let csrAddr := instr.extractLsb' 20 12
  if instr = 0x30200073 then .mret csrAddr
  else if funct7 = 0x18 ∧ rs1 = 2 ∧ rd = 0 then .mret csrAddr
  else if rd = 0 ∧ rs1 = 0 ∧ funct7 = 0 ∧ csrAddr = 0 then .ecall
  else .straySystem rd csrAddr

def decodeSystem (instr : Word) : Decoded :=
  let rd := rdOf instr
  let csrAddr := instr.extractLsb' 20 12
  let imm := (instr >>> 20) &&& 0x1F
  match funct3Of instr with
  | 0x0 => decodeSystemOther instr
  | 0x1 => .csr .rw rd csrAddr (rs1Of instr)
  | 0x2 => .csr .rs rd csrAddr (rs1Of instr)
  | 0x3 => .csr .rc rd csrAddr (rs1Of instr)
  | 0x5 => .csrImm .rw rd csrAddr imm
  | 0x6 => .csrImm .rs rd csrAddr imm
  | 0x7 => .csrImm .rc rd csrAddr imm
  | _ => .straySystem 0 csrAddr

def decode (instr : Word) : Decoded :=
  let rd := rdOf instr
  let rs1 := rs1Of instr
  let rs2 := rs2Of instr
  let funct3 := funct3Of instr
  match opcode instr with
  | 0x13 => decodeImm funct3 (funct7Of instr) rd rs1 (immI instr)
  | 0x33 => decodeOp funct3 (funct7Of instr) rd rs1 rs2
  | 0x37 => .lui rd (immU instr)
  | 0x17 => .auipc rd (immU instr)
  | 0x03 => decodeLoad funct3 rd rs1 (immI instr)
  | 0x23 => decodeStore funct3 rs2 rs1 (immS instr)
  | 0x2F =>
    if funct3 = 0x2 then decodeAmo ((funct7Of instr).extractLsb' 2 5) rd rs1 rs2 else .skip
  | 0x63 => decodeBranch funct3 rs1 rs2 (immB instr)
  | 0x6F => .jal rd (immJ instr)
  | 0x67 => if funct3 = 0x0 then .jalr rd rs1 (immI instr) else .skip
  | 0x73 => decodeSystem instr
  | 0x0F => if funct3 = 0x0 then .fence else .skip
  | _ => .skip

/-- The high products are told apart by the number of the register. -/
theorem decodeOp_mulh (rd rs1 rs2 : Cores.Reg) : decodeOp 0x1 0x01 rd rs1 rs2 =
    if rs2 = 0x01 then .mulDiv .mulh rd rs1 rs2
    else if rs2 = 0x02 then .mulDiv .mulhsu rd rs1 rs2
    else if rs2 = 0x03 then .mulDiv .mulhu rd rs1 rs2
    else .op .sll rd rs1 rs2 := rfl

/-! ## What is done with it -/

theorem funct3_cases (f : BitVec 3) : f = 0x0 ∨ f = 0x1 ∨ f = 0x2 ∨ f = 0x3 ∨ f = 0x4 ∨
    f = 0x5 ∨ f = 0x6 ∨ f = 0x7 := by
  revert f
  decide

namespace Simulator
variable {N n : Nat}

/-- Store the value of an operation. The remainder of the smallest integer by -1 is
undefined. -/
def computes (s : Simulator N n) (i : Fin N) (rd : Cores.Reg) (v : Except Abort Word) :
    Except Abort (Exit (Simulator N n)) :=
  v.map fun v => s.setCoreDone i ((s.cores i).writeback rd (some v))

def mulDivValue (op : MulDivOp) (a b : Word) : Except Abort Word :=
  if op = .rem ∧ a = 0x80000000 ∧ b = 0xFFFFFFFF then .error .undefinedDivision
  else .ok (op.eval a b)

def loadDecoded (s : Simulator N n) (i : Fin N) (op : LoadOp) (rd : Cores.Reg) (addr : Word) :
    Exit (Simulator N n) :=
  match op with
  | .lw => s.lw i rd addr
  | .lb => s.lb i rd addr
  | .lbu => s.lbu i rd addr
  | .lh => s.lh i rd addr
  | .lhu => s.lhu i rd addr

def storeDecoded (s : Simulator N n) (i : Fin N) (op : StoreOp) (addr v : Word) :
    Exit (Simulator N n) :=
  match op with
  | .sw => s.sw i addr v
  | .sb => s.sb i addr v
  | .sh => s.sh i addr v

def amoDecoded (s : Simulator N n) (i : Fin N) (op : AmoOp) (rd : Cores.Reg) (addr v : Word) :
    Exit (Simulator N n) :=
  match op with
  | .add => s.amoCache i rd addr (.add v)
  | .swap => s.amoCache i rd addr (.swap v)
  | .and => s.amoCache i rd addr (.fetchAndAnd v)
  | .or => s.amoCache i rd addr (.fetchAndOr v)
  | .xor => s.amoCache i rd addr (.fetchAndXor v)
  | .min => s.amoSelect i rd addr v fun oldVal v => oldVal.slt v
  | .max => s.amoSelect i rd addr v fun oldVal v => v.slt oldVal
  | .minu => s.amoSelect i rd addr v fun oldVal v => oldVal < v
  | .maxu => s.amoSelect i rd addr v fun oldVal v => v < oldVal

/-- An atomic at the address of `rs1`, if it is in RAM after the translation. -/
def atomicAt (s : Simulator N n) (i : Fin N) (rd rs1 : Cores.Reg)
    (ram : Simulator N n → Word → Exit (Simulator N n)) : Exit (Simulator N n) :=
  let addr := (s.cores i).regs rs1
  match s.translate i addr false false with
  | (.error ex, s) => s.fault i ex
  | (.ok physAddr, s) => if physAddr.toNat < n then ram s addr else s.finish i rd 0

/-- What a CSR instruction does with the old value and its operand. -/
def csrDecoded (s : Simulator N n) (i : Fin N) (op : CsrOp) (rd : Cores.Reg)
    (csrAddr : BitVec 12) (operand : Simulator N n → Word) : Exit (Simulator N n) :=
  let (csrValue, s) := s.readCsr i csrAddr
  s.csrUpdate i rd csrAddr csrValue (op.eval csrValue (operand s))

/-- Execution of a decoded instruction. -/
def run (s : Simulator N n) (i : Fin N) : Decoded → Except Abort (Exit (Simulator N n))
  | .imm op rd rs1 imm => s.computes i rd (.ok (op.aluOp.eval ((s.cores i).regs rs1) imm))
  | .shift op rd rs1 shamt => s.computes i rd (.ok (op.aluOp.eval ((s.cores i).regs rs1) shamt))
  | .op op rd rs1 rs2 =>
    s.computes i rd (.ok (op.eval ((s.cores i).regs rs1) ((s.cores i).regs rs2)))
  | .mulDiv op rd rs1 rs2 =>
    s.computes i rd (mulDivValue op ((s.cores i).regs rs1) ((s.cores i).regs rs2))
  | .lui rd imm => s.computes i rd (.ok imm)
  | .auipc rd imm => s.computes i rd (.ok ((s.cores i).pc + imm))
  | .jal rd offset =>
    let c := s.cores i
    .ok (s.setCoreDone i ((c.setReg rd (c.pc + 4)).setPc (c.pc + offset)))
  | .jalr rd rs1 imm =>
    let c := s.cores i
    .ok (s.setCoreDone i ((c.setReg rd (c.pc + 4)).setPc ((c.regs rs1 + imm) &&& ~~~0x1#32)))
  | .branch op rs1 rs2 offset =>
    let c := s.cores i
    .ok (s.setCoreDone i (if op.eval (c.regs rs1) (c.regs rs2) then c.setPc (c.pc + offset)
      else c.setPc (c.pc + 4)))
  | .load op rd rs1 imm =>
    let addr := (s.cores i).regs rs1 + imm
    .ok (if addr.toNat < n then s.loadDecoded i op rd addr else s.loadMmio i rd op.funct3 addr)
  | .store op rs2 rs1 imm =>
    let addr := (s.cores i).regs rs1 + imm
    let v := (s.cores i).regs rs2
    .ok (if addr.toNat < n then s.storeDecoded i op addr v else s.storeMmio i op.funct3 addr v)
  | .lr rd rs1 => .ok (s.atomicAt i rd rs1 fun s addr =>
      let (currentVal, s) := s.dataReadWord i addr
      s.finish i rd currentVal)
  | .sc rd rs1 rs2 => .ok (s.atomicAt i rd rs1 fun t addr =>
      (t.dataWriteWord i addr ((s.cores i).regs rs2)).finish i rd 0)
  | .amo op rd rs1 rs2 => .ok (s.atomicAt i rd rs1 fun t addr =>
      t.amoDecoded i op rd addr ((s.cores i).regs rs2))
  | .csr op rd csrAddr rs1 => .ok (s.csrDecoded i op rd csrAddr fun s => (s.cores i).regs rs1)
  | .csrImm op rd csrAddr imm => .ok (s.csrDecoded i op rd csrAddr fun _ => imm)
  | .ecall =>
    let s := (s.readCsr i 0).2
    .ok (.done (s.setCore i ((s.cores i).takeException (ecallCause (s.cores i).privilegeLevel))))
  | .mret csrAddr => .ok ((s.readCsr i csrAddr).2.mret i)
  | .fence => .ok (s.next i)
  | .skip => .ok (s.next i)
  | .strayLoad rd rs1 imm =>
    let addr := (s.cores i).regs rs1 + imm
    .ok (if addr.toNat < n then s.finish i rd 0 else s.loadMmio i rd 0x3 addr)
  | .strayStore rs2 rs1 imm =>
    let addr := (s.cores i).regs rs1 + imm
    .ok (if addr.toNat < n then s.next i else s.storeMmio i 0x3 addr ((s.cores i).regs rs2))
  | .strayAmo rd rs1 => .ok (s.atomicAt i rd rs1 fun s _ =>
      (s.setCore i ((s.cores i).setPc ((s.cores i).pc + 4))).next i)
  | .straySystem rd csrAddr =>
    let s := (s.readCsr i csrAddr).2
    .ok ((s.setCore i (if rd ≠ 0 then (s.cores i).setReg rd 0 else s.cores i)).next i)

/-! ## Every word is executed as what it is decoded to -/

section
variable (s : Simulator N n) (i : Fin N)

theorem run_decodeImm (funct3 : BitVec 3) (funct7 : BitVec 7) (rd rs1 : Cores.Reg) (imm : Word) :
    s.run i (decodeImm funct3 funct7 rd rs1 imm) = .ok (s.setCoreDone i
      ((s.cores i).writeback rd (aluImm funct3 funct7 ((s.cores i).regs rs1) imm))) := by
  have himm : ∀ o : ImmOp, s.run i (.imm o rd rs1 imm) = .ok (s.setCoreDone i
      ((s.cores i).writeback rd (aluImm o.aluOp.funct3 funct7 ((s.cores i).regs rs1) imm))) := by
    intro o
    rw [aluImm_eq]
    rfl
  have hshift : ∀ o : ShiftOp, s.run i (.shift o rd rs1 (imm &&& 0x1f)) = .ok (s.setCoreDone i
      ((s.cores i).writeback rd
        (aluImm o.aluOp.funct3 o.aluOp.funct7 ((s.cores i).regs rs1) imm))) := by
    intro o
    rw [aluImm_shift_eq]
    rfl
  rcases funct3_cases funct3 with rfl | rfl | rfl | rfl | rfl | rfl | rfl | rfl
  · exact himm .addi
  · exact hshift .slli
  · exact himm .slti
  · exact himm .sltiu
  · exact himm .xori
  · by_cases hl : funct7 = 0x00
    · subst hl
      exact hshift .srli
    · by_cases ha : funct7 = 0x20
      · subst ha
        exact hshift .srai
      · simp only [decodeImm, aluImm, if_neg hl, if_neg ha]
        rfl
  · exact himm .ori
  · exact himm .andi

theorem mulDivValue_ok {op : MulDivOp} (h : op ≠ .rem) (a b : Word) :
    mulDivValue op a b = .ok (op.eval a b) := if_neg fun h' => h h'.1

theorem mulDivValue_rem (a b : Word) : mulDivValue .rem a b = rem a b := by
  rw [rem_eq]
  unfold mulDivValue
  simp only [true_and]

theorem mul_eq (a b : Word) : a * b = MulDivOp.mul.eval a b := by
  unfold MulDivOp.eval
  rw [BitVec.ofInt_mul, BitVec.ofInt_toInt, BitVec.ofInt_toInt]

theorem run_decodeOp (funct3 : BitVec 3) (funct7 : BitVec 7) (rd rs1 rs2 : Cores.Reg) :
    s.run i (decodeOp funct3 funct7 rd rs1 rs2) =
      ((aluOp funct3 funct7 rs2 ((s.cores i).regs rs1) ((s.cores i).regs rs2)).map
        ((s.cores i).writeback rd)).map (s.setCoreDone i) := by
  have hop : ∀ o : AluOp, s.run i (.op o rd rs1 rs2) =
      ((aluOp o.funct3 o.funct7 rs2 ((s.cores i).regs rs1) ((s.cores i).regs rs2)).map
        ((s.cores i).writeback rd)).map (s.setCoreDone i) := by
    intro o
    rw [aluOp_eq]
    rfl
  have hmulDiv : ∀ {o : MulDivOp} {v : Word}, o ≠ .rem →
      v = o.eval ((s.cores i).regs rs1) ((s.cores i).regs rs2) →
      s.run i (.mulDiv o rd rs1 rs2) =
        .ok (s.setCoreDone i ((s.cores i).writeback rd (some v))) := by
    intro o v ho hv
    rw [run, mulDivValue_ok ho, ← hv]
    rfl
  have hrem : s.run i (.mulDiv .rem rd rs1 rs2) =
      (((rem ((s.cores i).regs rs1) ((s.cores i).regs rs2)).map some).map
        ((s.cores i).writeback rd)).map (s.setCoreDone i) := by
    rw [run, mulDivValue_rem]
    cases rem ((s.cores i).regs rs1) ((s.cores i).regs rs2) <;> rfl
  rcases funct3_cases funct3 with rfl | rfl | rfl | rfl | rfl | rfl | rfl | rfl
  · by_cases h0 : funct7 = 0x00
    · subst h0
      exact hop .add
    by_cases h20 : funct7 = 0x20
    · subst h20
      exact hop .sub
    by_cases h1 : funct7 = 0x01
    · subst h1
      exact hmulDiv (o := .mul) (by decide) (mul_eq _ _)
    simp only [decodeOp, aluOp, if_neg h0, if_neg h20, if_neg h1]
    rfl
  · by_cases h1 : funct7 = 0x01
    · subst h1
      by_cases hr1 : rs2 = 0x01
      · subst hr1
        exact hmulDiv (o := .mulh) (by decide) (mulh_eq _ _)
      by_cases hr2 : rs2 = 0x02
      · subst hr2
        exact hmulDiv (o := .mulhsu) (by decide) (mulhsu_eq _ _)
      by_cases hr3 : rs2 = 0x03
      · subst hr3
        exact hmulDiv (o := .mulhu) (by decide) (mulhu_eq _ _)
      simp only [decodeOp, aluOp, if_pos, if_neg hr1, if_neg hr2, if_neg hr3]
      exact hop .sll
    simp only [decodeOp, aluOp, if_neg h1]
    exact hop .sll
  · exact hop .slt
  · exact hop .sltu
  · by_cases h1 : funct7 = 0x01
    · subst h1
      exact hmulDiv (o := .div) (by decide) (div_eq _ _)
    by_cases h0 : funct7 = 0x00
    · subst h0
      exact hop .xor
    simp only [decodeOp, aluOp, if_neg h1, if_neg h0]
    rfl
  · by_cases h1 : funct7 = 0x01
    · subst h1
      exact hmulDiv (o := .divu) (by decide) (divu_eq _ _)
    by_cases h21 : funct7 = 0x21
    · subst h21
      exact hrem
    by_cases h25 : funct7 = 0x25
    · subst h25
      exact hmulDiv (o := .remu) (by decide) (remu_eq _ _)
    by_cases h0 : funct7 = 0x00
    · subst h0
      exact hop .srl
    by_cases h20 : funct7 = 0x20
    · subst h20
      exact hop .sra
    simp only [decodeOp, aluOp, if_neg h1, if_neg h21, if_neg h25, if_neg h0, if_neg h20]
    rfl
  · by_cases h1 : funct7 = 0x01
    · subst h1
      exact hrem
    by_cases h0 : funct7 = 0x00
    · subst h0
      exact hop .or
    simp only [decodeOp, aluOp, if_neg h1, if_neg h0]
    rfl
  · by_cases h1 : funct7 = 0x01
    · subst h1
      exact hmulDiv (o := .remu) (by decide) (remu_eq _ _)
    by_cases h0 : funct7 = 0x00
    · subst h0
      exact hop .and
    simp only [decodeOp, aluOp, if_neg h1, if_neg h0]
    rfl

theorem run_decodeBranch (funct3 : BitVec 3) (rs1 rs2 : Cores.Reg) (offset : Word) :
    s.run i (decodeBranch funct3 rs1 rs2 offset) = .ok (s.setCoreDone i
      (if branchTaken funct3 ((s.cores i).regs rs1) ((s.cores i).regs rs2) then
        (s.cores i).setPc ((s.cores i).pc + offset)
      else (s.cores i).setPc ((s.cores i).pc + 4))) := by
  have hbranch : ∀ o : BranchOp, s.run i (.branch o rs1 rs2 offset) = .ok (s.setCoreDone i
      (if branchTaken o.funct3 ((s.cores i).regs rs1) ((s.cores i).regs rs2) then
        (s.cores i).setPc ((s.cores i).pc + offset)
      else (s.cores i).setPc ((s.cores i).pc + 4))) := by
    intro o
    rw [branchTaken_eq]
    rfl
  rcases funct3_cases funct3 with rfl | rfl | rfl | rfl | rfl | rfl | rfl | rfl
  · exact hbranch .beq
  · exact hbranch .bne
  · rfl
  · rfl
  · exact hbranch .blt
  · exact hbranch .bge
  · exact hbranch .bltu
  · exact hbranch .bgeu

/-- An access beyond RAM asks only whether it is one of a word. -/
theorem loadMmio_funct3 (funct3 : BitVec 3) (h : funct3 ≠ 0x2) (rd : Cores.Reg) (addr : Word) :
    s.loadMmio i rd funct3 addr = s.loadMmio i rd 0x3 addr := by
  unfold loadMmio
  rw [if_neg h, if_neg h]
  rfl

theorem storeMmio_funct3 {funct3 : BitVec 3} (h : funct3 ≠ 0x2) (addr v : Word) :
    s.storeMmio i funct3 addr v = s.storeMmio i 0x3 addr v := by
  unfold storeMmio
  rw [if_neg h]
  rfl

theorem run_decodeLoad (instr : Word) : s.run i
    (decodeLoad (funct3Of instr) (rdOf instr) (rs1Of instr) (immI instr)) =
      .ok (s.load i instr) := by
  unfold load
  rcases funct3_cases (funct3Of instr) with h | h | h | h | h | h | h | h <;> rw [h]
  · rfl
  · rfl
  · rfl
  · rfl
  · rfl
  · rfl
  · dsimp only
    rw [s.loadMmio_funct3 i 0x6 (by decide)]
    rfl
  · dsimp only
    rw [s.loadMmio_funct3 i 0x7 (by decide)]
    rfl

theorem run_decodeStore (instr : Word) : s.run i
    (decodeStore (funct3Of instr) (rs2Of instr) (rs1Of instr) (immS instr)) =
      .ok (s.store i instr) := by
  unfold store
  rcases funct3_cases (funct3Of instr) with h | h | h | h | h | h | h | h <;> rw [h]
  · rfl
  · rfl
  · rfl
  all_goals
    dsimp only
    rw [s.storeMmio_funct3 i (by decide)]
    rfl

theorem run_decodeAmo (funct5 : BitVec 5) (rd rs1 rs2 : Cores.Reg) :
    s.run i (decodeAmo funct5 rd rs1 rs2) = .ok (s.atomicAt i rd rs1 fun t addr =>
      t.amoRam i rd funct5 addr ((s.cores i).regs rs2)) := by
  obtain ⟨⟨k, hk⟩⟩ := funct5
  interval_cases k <;> rfl

theorem run_decodeSystemOther (instr : Word) : s.run i (decodeSystemOther instr) =
    .ok ((s.readCsr i (instr.extractLsb' 20 12)).2.systemOther i instr) := by
  unfold decodeSystemOther systemOther
  have hwfi : ¬((funct7Of instr).toNat = 0x105 ∧ instr.extractLsb' 20 12 = 0x105) := fun h =>
    absurd (funct7Of instr).isLt (by omega)
  dsimp only
  rw [if_neg hwfi]
  split
  · rfl
  · split
    · rfl
    · split
      · next h =>
        rw [h.2.2.2]
        rfl
      · rfl

theorem run_decodeSystem (instr : Word) : s.run i (decodeSystem instr) =
    .ok (s.system i instr) := by
  unfold decodeSystem system
  rcases funct3_cases (funct3Of instr) with h | h | h | h | h | h | h | h <;> rw [h]
  · exact s.run_decodeSystemOther i instr
  · rfl
  · rfl
  · rfl
  · show Except.ok (((s.readCsr i _).2.setCore i ((s.readCsr i _).2.cores i)).next i) = _
    rw [setCore_self]
    rfl
  · rfl
  · rfl
  · rfl

/-- A step executes the instruction that it decodes. -/
theorem execute_decode (instr : Word) : s.execute i instr = s.run i (decode instr) := by
  unfold execute
  dsimp only
  split
  case h_1 h =>
    simp only [decode, h]
    exact (s.run_decodeImm i ..).symm
  case h_2 h =>
    simp only [decode, h]
    exact (s.run_decodeOp i ..).symm
  case h_5 h =>
    simp only [decode, h]
    exact (s.run_decodeLoad i instr).symm
  case h_6 h =>
    simp only [decode, h]
    exact (s.run_decodeStore i instr).symm
  case h_7 h =>
    simp only [decode, h, amo]
    by_cases h3 : funct3Of instr = 0x2
    · rw [if_pos h3, if_pos h3]
      exact (s.run_decodeAmo i ..).symm
    · rw [if_neg h3, if_neg h3]
      rfl
  case h_8 h =>
    simp only [decode, h]
    exact (s.run_decodeBranch i ..).symm
  case h_10 h =>
    simp only [decode, h, Core.jalr]
    by_cases h3 : funct3Of instr = 0x0
    · rw [if_pos h3, if_pos h3]
      rfl
    · rw [if_neg h3, if_neg h3]
      rfl
  case h_11 h =>
    simp only [decode, h]
    exact (s.run_decodeSystem i instr).symm
  case h_12 =>
    unfold decode
    dsimp only
    split
    case h_12 => split <;> rfl
    case h_13 => rfl
    all_goals contradiction
  all_goals
    next h =>
      simp only [decode, h]
      rfl

end

end Simulator
end RiscvEmulator.System
