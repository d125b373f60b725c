import RiscvEmulator.Isa.Instruction

/-! # The machine of the specification

Harts that take steps in any order on one array of bytes: what the instructions are
to do when there are no caches. A store to the transmit register of the serial port
sends its low byte. -/
namespace RiscvEmulator.Isa

structure Machine (N : Nat) where
  harts : Fin N → State
  memory : Bytes
  output : List (BitVec 8)

/-- The transmit register. -/
def transmitAddr : BitVec 32 := 0x10000000

namespace Machine
variable {N : Nat}

def setHart (m : Machine N) (i : Fin N) (s : State) : Machine N :=
  { m with harts := Function.update m.harts i s }

/-- The hart after an instruction that writes at most one register. -/
def result (m : Machine N) (i : Fin N) : Instr → State
  | .compute instr => instr.exec (m.harts i)
  | .mulDiv instr => instr.exec (m.harts i)
  | .load instr =>
    let s := m.harts i
    (s.write instr.rd (instr.op.eval m.memory (instr.address s.regs).toNat)).goto (s.pc + 4)
  | .hartId rd => ((m.harts i).write rd (BitVec.ofNat 32 i.val)).goto ((m.harts i).pc + 4)
  | .store _ | .fence _ => (m.harts i).goto ((m.harts i).pc + 4)

/-- What a store of hart `i` does outside the hart. -/
def effect (m : Machine N) (i : Fin N) : Instr → Machine N
  | .store instr =>
    let addr := instr.address (m.harts i).regs
    let v := (m.harts i).regs instr.rs2
    if addr = transmitAddr then { m with output := m.output ++ [v.setWidth 8] }
    else { m with memory := instr.op.apply m.memory addr.toNat v }
  | _ => m

def exec (m : Machine N) (i : Fin N) (instr : Instr) : Machine N :=
  (m.effect i instr).setHart i (m.result i instr)

/-- The instruction hart `i` is at. -/
def fetched (m : Machine N) (i : Fin N) : Option Instr :=
  Instr.decode (m.memory.word (m.harts i).pc.toNat)

def step (m : Machine N) (i : Fin N) : Option (Machine N) := (m.fetched i).map (m.exec i)

/-- The harts in this order, each a step at a time. -/
def run (m : Machine N) (order : List (Fin N)) : Option (Machine N) := order.foldlM step m

variable {m m' : Machine N} {i j : Fin N} {instr : Instr}

@[simp] theorem setHart_self (s : State) : (m.setHart i s).harts i = s := by
  simp [setHart]

theorem setHart_other (h : j ≠ i) (s : State) : (m.setHart i s).harts j = m.harts j := by
  simp [setHart, h]

@[simp] theorem effect_harts (m : Machine N) (i : Fin N) (instr : Instr) :
    (m.effect i instr).harts = m.harts := by
  unfold effect
  split
  · simp only
    split <;> rfl
  · rfl

@[simp] theorem exec_self (m : Machine N) (i : Fin N) (instr : Instr) :
    (m.exec i instr).harts i = m.result i instr := by
  simp [exec]

theorem exec_other (h : j ≠ i) (m : Machine N) (instr : Instr) :
    (m.exec i instr).harts j = m.harts j := by
  simp [exec, setHart_other h]

theorem step_eq_some : m.step i = some m' ↔ ∃ instr, m.fetched i = some instr ∧
    m' = m.exec i instr := by
  unfold step
  rw [Option.map_eq_some_iff]
  simp only [eq_comm]

theorem run_cons (m : Machine N) (i : Fin N) (order : List (Fin N)) :
    m.run (i :: order) = (m.step i).bind (·.run order) := rfl

/-- Registers `x0` stay as they are. -/
theorem result_zero (m : Machine N) (i : Fin N) (instr : Instr) :
    (m.result i instr).regs 0 = (m.harts i).regs 0 := by
  cases instr with
  | compute instr =>
    unfold result Rv32i.exec
    simp only
    split
    · exact State.write_zero ..
    · rfl
  | mulDiv instr => exact State.write_zero ..
  | load instr => exact State.write_zero ..
  | store instr => rfl
  | fence fields => rfl
  | hartId rd => exact State.write_zero ..

end Machine
end RiscvEmulator.Isa
