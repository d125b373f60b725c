import RiscvEmulator.System.LoadStoreStep
import RiscvEmulator.System.Reservation
import RiscvEmulator.System.SatpFrame

/-! # Page faults

No fault of translation is taken as a trap: the core goes on with the next
instruction. Where it has asked for the translation itself it does nothing else;
where a cache has, the access is made at the address as it is. -/
namespace RiscvEmulator.System
open Memory Cores Isa

/-! ## Accesses -/

/-- The instructions that access memory. -/
inductive DataAccess where
  | load (instr : Load)
  | store (instr : Store)
  | amo (instr : RvA)
  | lr (ord : OrderBits) (rs1 rd : Isa.Reg)
  | sc (ord : OrderBits) (rs2 rs1 rd : Isa.Reg)

namespace DataAccess

def encode : DataAccess → Word
  | load instr => instr.encode
  | store instr => instr.encode
  | amo instr => instr.encode
  | lr ord rs1 rd => loadReserved ord rs1 rd
  | sc ord rs2 rs1 rd => storeConditional ord rs2 rs1 rd

def address (regs : Isa.Reg → Word) : DataAccess → Word
  | load instr => instr.address regs
  | store instr => instr.address regs
  | amo instr => regs instr.rs1
  | lr _ rs1 _ => regs rs1
  | sc _ _ rs1 _ => regs rs1

/-- Whether the access needs the right to read, and to write. -/
def reads : DataAccess → Bool
  | store _ => false
  | _ => true

def writes : DataAccess → Bool
  | load _ | lr .. => false
  | _ => true

end DataAccess

namespace Simulator
variable {N n : Nat} {s s₁ s' t u v : Simulator N n} {i : Fin N}

/-- The core has gone on to the next instruction, and no word of memory and no
CSR of it has changed. -/
structure Passed (i : Fin N) (t u : Simulator N n) : Prop where
  memory : u.memory = t.memory
  csrs : (u.cores i).csrRegisters = (t.cores i).csrRegisters
  pc : (u.cores i).pc = (t.cores i).pc + 4

/-- Nothing else has happened, either. -/
structure Skipped (i : Fin N) (t u : Simulator N n) : Prop extends Passed i t u where
  hierarchy : u.hierarchy = t.hierarchy
  regs : (u.cores i).regs = (t.cores i).regs

theorem translate_error {addr : Word} {w instruction : Bool} {ex : ExceptionType}
    (h : (t.translate i addr w instruction).1 = .error ex) (pc : Word) :
    Core.handleException ex pc = pc + 4 := by
  have hask : ((t.mmus i).translateAddress t.memory.readWord addr w instruction).1 = .error ex := h
  unfold MMU.translateAddress at hask
  split at hask
  · cases hask
  · simp only at hask
    split at hask
    · split at hask
      · cases hask
        cases instruction <;> rfl
      · cases hask
    · split at hask
      · cases hask
        cases instruction <;> cases w <;> rfl
      · split at hask
        · cases hask
          rfl
        · cases hask

section
variable (h : CacheAccessed t v)
include h

end

theorem Passed.retire {e : Exit (Simulator N n)} (h : Passed i t (exitState e)) :
    Passed i t (retire i e) := by
  cases e with
  | fault v => exact h
  | done v =>
    obtain ⟨k, hk⟩ := (v.cores i).updatePerformanceCounter_core v.counters
    have hcore : (Simulator.retire i (.done v)).cores i =
        ((v.cores i).updatePerformanceCounter v.counters).1.setReg 0 0 := setCore_cores_self ..
    refine ⟨h.memory, ?_, ?_⟩ <;> rw [hcore, hk]
    · exact h.csrs
    · exact h.pc

theorem Skipped.retire {ex : ExceptionType} (h : Skipped i t (exitState (v.fault i ex))) :
    Skipped i t (Simulator.retire i (v.fault i ex)) := h

end Simulator
end RiscvEmulator.System
