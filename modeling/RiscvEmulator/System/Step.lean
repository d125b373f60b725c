import RiscvEmulator.System.Simulator

/-! # One step of a core

`Core::step`: interrupts, the gates that keep a core from executing, the fetch,
and the switch over the opcodes. Logging, tracing and profiling are left out;
the debugger hook before the step is off. -/
namespace RiscvEmulator.System
open Memory Cores Interrupt Device

/-- How the switch is left: by `break`, after which the instruction is counted
and `x0` cleared, or by `return`. -/
inductive Exit (σ : Type) where
  | done (s : σ)
  | fault (s : σ)

namespace Simulator
variable {N n : Nat}

/-- Store into `rd` and go on to the next instruction. -/
def finish (s : Simulator N n) (i : Fin N) (rd : Reg) (v : Word) : Exit (Simulator N n) :=
  .done (s.setCore i ((s.cores i).writeback rd (some v)))

def next (s : Simulator N n) (i : Fin N) : Exit (Simulator N n) :=
  .done (s.setCore i ((s.cores i).writeback 0 none))

def fault (s : Simulator N n) (i : Fin N) (ex : ExceptionType) : Exit (Simulator N n) :=
  let c := s.cores i
  .fault (s.setCore i (c.setPc (Core.handleException ex c.pc)))

/-! ## Loads -/

/-- A load from RAM: through the data cache at `cachedAddr`, from whose word
`extract` takes the value, or from the translated address by `direct`. -/
def loadRam (s : Simulator N n) (i : Fin N) (rd : Reg) (addr cachedAddr : Word)
    (extract : Word → Word) (direct : Simulator N n → Word → Word) : Exit (Simulator N n) :=
  if hasDataCache addr then
    let (temp, s) := s.dataRead i cachedAddr
    s.finish i rd (extract temp)
  else
    match s.translate i addr false false with
    | (.ok physAddr, s) => s.finish i rd (direct s physAddr)
    | (.error ex, s) => s.fault i ex

def byteOf (addr temp : Word) : Byte := (temp >>> ((addr &&& 0x3) * 8).toNat).setWidth 8

/-- The low half at a word boundary, else the high half. -/
def halfwordOf (addr temp : Word) : BitVec 16 :=
  if addr &&& 0x3 == 0 then temp.setWidth 16 else (temp >>> 16).setWidth 16

def aligned (addr : Word) : Word := addr &&& ~~~0x3#32

def lw (s : Simulator N n) (i : Fin N) (rd : Reg) (addr : Word) : Exit (Simulator N n) :=
  s.loadRam i rd addr addr id readWord

def lb (s : Simulator N n) (i : Fin N) (rd : Reg) (addr : Word) : Exit (Simulator N n) :=
  s.loadRam i rd addr (aligned addr) (fun temp => (byteOf addr temp).signExtend 32)
    fun s physAddr => (s.readByte physAddr).signExtend 32

def lbu (s : Simulator N n) (i : Fin N) (rd : Reg) (addr : Word) : Exit (Simulator N n) :=
  s.loadRam i rd addr (aligned addr) (fun temp => (byteOf addr temp).setWidth 32)
    fun s physAddr => (s.readByte physAddr).setWidth 32

def lh (s : Simulator N n) (i : Fin N) (rd : Reg) (addr : Word) : Exit (Simulator N n) :=
  s.loadRam i rd addr (aligned addr) (fun temp => (halfwordOf addr temp).signExtend 32)
    fun s physAddr => (s.readHalfword physAddr).signExtend 32

def lhu (s : Simulator N n) (i : Fin N) (rd : Reg) (addr : Word) : Exit (Simulator N n) :=
  s.loadRam i rd addr (aligned addr) (fun temp => (halfwordOf addr temp).setWidth 32)
    fun s physAddr => (s.readHalfword physAddr).setWidth 32

def coreIdAddr : Word := 0x10000010

/-- The UART window. -/
def inUart (addr : Word) : Bool := 0x10000000 ≤ addr && addr < 0x10000020

/-- Loads beyond the end of RAM. -/
def loadMmio (s : Simulator N n) (i : Fin N) (rd : Reg) (funct3 : BitVec 3) (addr : Word) :
    Exit (Simulator N n) :=
  if addr = coreIdAddr then s.finish i rd (if funct3 = 0x2 then BitVec.ofNat 32 i.val else 0)
  else if inUart addr then
    s.finish i rd (((s.getDevice (addr &&& 0xFFFFFFF0)).map (·.read (addr &&& 0xF))).getD 0)
  else if inClint addr then s.finish i rd (if funct3 = 0x2 then s.readWord addr else 0)
  else s.fault i .loadAccessFault

def load (s : Simulator N n) (i : Fin N) (instr : Word) : Exit (Simulator N n) :=
  let rd := rdOf instr
  let addr := (s.cores i).regs (rs1Of instr) + immI instr
  if addr.toNat < n then
    match funct3Of instr with
    | 0x2 => s.lw i rd addr
    | 0x0 => s.lb i rd addr
    | 0x4 => s.lbu i rd addr
    | 0x1 => s.lh i rd addr
    | 0x5 => s.lhu i rd addr
    | _ => s.finish i rd 0
  else s.loadMmio i rd (funct3Of instr) addr

/-! ## Stores -/

/-- A store to RAM: `cached` through the data cache, or `direct` to the
translated address. -/
def storeRam (s : Simulator N n) (i : Fin N) (addr : Word)
    (cached : Simulator N n → Simulator N n)
    (direct : Simulator N n → Word → Simulator N n) : Exit (Simulator N n) :=
  if hasDataCache addr then (cached s).next i
  else
    match s.translate i addr true false with
    | (.ok physAddr, s) => (direct s physAddr).next i
    | (.error ex, s) => s.fault i ex

/-- Read the word, change a part of it and store it. -/
def modifyWord (s : Simulator N n) (i : Fin N) (addr : Word) (f : Word → Word) :
    Simulator N n :=
  let (temp, s) := s.dataRead i (aligned addr)
  s.dataWrite i (aligned addr) (f temp)

def insertByte (addr temp v : Word) : Word :=
  let byteOffset := addr &&& 0x3
  let byteMask := 0xFF#32 <<< (byteOffset * 8).toNat
  (temp &&& ~~~byteMask) ||| ((v &&& 0xFF) <<< (byteOffset * 8).toNat)

def insertHalfword (addr temp v : Word) : Word :=
  if addr &&& 0x3 == 0 then (temp &&& 0xFFFF0000) ||| (v &&& 0xFFFF)
  else (temp &&& 0x0000FFFF) ||| ((v &&& 0xFFFF) <<< 16)

def sw (s : Simulator N n) (i : Fin N) (addr v : Word) : Exit (Simulator N n) :=
  s.storeRam i addr (·.dataWrite i addr v) (·.writeWord · v)

def sb (s : Simulator N n) (i : Fin N) (addr v : Word) : Exit (Simulator N n) :=
  s.storeRam i addr (·.modifyWord i addr (insertByte addr · v)) (·.writeByte · (v.setWidth 8))

def sh (s : Simulator N n) (i : Fin N) (addr v : Word) : Exit (Simulator N n) :=
  s.storeRam i addr (·.modifyWord i addr (insertHalfword addr · v))
    (·.writeHalfword · (v.setWidth 16))

/-- The state array and release register of the monitor. -/
def inMonitor (addr : Word) : Bool := 0x90000 ≤ addr && addr < 0x98004

/-- Stores beyond the end of RAM. Only SW cuts the value for the UART. -/
def storeMmio (s : Simulator N n) (i : Fin N) (funct3 : BitVec 3) (addr v : Word) :
    Exit (Simulator N n) :=
  if inUart addr then
    let data := if funct3 = 0x2 then v &&& 0xFF else v
    (s.writeDevice (·.1 == addr &&& 0xFFFFFFF0) fun dev => dev.2.write (addr &&& 0xF) data).next i
  else if inMonitor addr || inClint addr then (s.writeWord addr v).next i
  else s.fault i .storeAmoAccessFault

def store (s : Simulator N n) (i : Fin N) (instr : Word) : Exit (Simulator N n) :=
  let addr := (s.cores i).regs (rs1Of instr) + immS instr
  let v := (s.cores i).regs (rs2Of instr)
  if addr.toNat < n then
    match funct3Of instr with
    | 0x2 => s.sw i addr v
    | 0x0 => s.sb i addr v
    | 0x1 => s.sh i addr v
    | _ => s.next i
  else s.storeMmio i (funct3Of instr) addr v

/-! ## Atomics -/

/-- AMOMIN, AMOMAX and their unsigned forms: keep the old word if `keeps` says
so of it and the operand. -/
def amoSelect (s : Simulator N n) (i : Fin N) (rd : Reg) (addr v : Word)
    (keeps : Word → Word → Bool) : Exit (Simulator N n) :=
  let (oldVal, s) := s.dataReadWord i addr
  let s := s.dataWriteWord i addr (if keeps oldVal v then oldVal else v)
  s.finish i rd oldVal

def amoCache (s : Simulator N n) (i : Fin N) (rd : Reg) (addr : Word) (op : Atomic) :
    Exit (Simulator N n) :=
  let (currentVal, s) := s.dataAtomic i addr op
  s.finish i rd currentVal

/-- The switch over bits 31-27. -/
def amoRam (s : Simulator N n) (i : Fin N) (rd : Reg) (funct5 : BitVec 5) (addr v : Word) :
    Exit (Simulator N n) :=
  match funct5 with
  | 0x00 => s.amoCache i rd addr (.add v)
  | 0x01 => s.amoCache i rd addr (.swap v)
  | 0x04 => s.amoCache i rd addr (.fetchAndAnd v)
  | 0x08 => s.amoCache i rd addr (.fetchAndOr v)
  | 0x0C => s.amoCache i rd addr (.fetchAndXor v)
  | 0x10 => s.amoSelect i rd addr v fun oldVal v => oldVal.slt v
  | 0x14 => s.amoSelect i rd addr v fun oldVal v => v.slt oldVal
  | 0x18 => s.amoSelect i rd addr v fun oldVal v => oldVal < v
  | 0x1C => s.amoSelect i rd addr v fun oldVal v => v < oldVal
  | 0x02 => -- LR.W; no reservation is made
    let (currentVal, s) := s.dataReadWord i addr
    s.finish i rd currentVal
  | 0x03 => -- SC.W always succeeds
    (s.dataWriteWord i addr v).finish i rd 0
  | _ => -- `pc` is advanced here and again after the switch
    (s.setCore i ((s.cores i).setPc ((s.cores i).pc + 4))).next i

def amo (s : Simulator N n) (i : Fin N) (instr : Word) : Exit (Simulator N n) :=
  let rd := rdOf instr
  if funct3Of instr = 0x2 then
    let addr := (s.cores i).regs (rs1Of instr)
    let v := (s.cores i).regs (rs2Of instr)
    match s.translate i addr false false with
    | (.error ex, s) => s.fault i ex
    | (.ok physAddr, s) =>
      if physAddr.toNat < n then s.amoRam i rd ((funct7Of instr).extractLsb' 2 5) addr v
      else s.finish i rd 0
  else s.next i

/-! ## System instructions -/

def mret (s : Simulator N n) (i : Fin N) : Exit (Simulator N n) :=
  let c := s.cores i
  let mstatus := c.csrRegisters 0x300
  let mepc := c.csrRegisters 0x341
  let mpie := (mstatus >>> 7) &&& 0x1
  let mpp := mstatus.extractLsb' 11 2
  let mstatus := (mstatus &&& ~~~0x8#32) ||| (mpie <<< 3)
  let mstatus := (mstatus &&& ~~~0x80#32) ||| 0x80
  let mstatus := (mstatus &&& ~~~0x1800#32) ||| (0x3#32 <<< 11)
  let c := c.writeCsr 0x300 mstatus
  .done (s.setCore i { c with privilegeLevel := .ofBits mpp, pc := mepc })

def ecallCause : PrivilegeLevel → ExceptionCause
  | .user => ⟨8, by decide⟩
  | .supervisor => ⟨9, by decide⟩
  | .machine => ⟨11, by decide⟩
  | .reserved => ⟨9, by decide⟩

/-- `funct3` 0. The test for WFI compares the seven bits of `funct7` with 0x105
and never holds. -/
def systemOther (s : Simulator N n) (i : Fin N) (instr : Word) : Exit (Simulator N n) :=
  let rd := rdOf instr
  let rs1 := rs1Of instr
  let funct7 := (funct7Of instr).toNat
  let csrAddr := instr.extractLsb' 20 12
  let c := s.cores i
  if instr = 0x30200073 then s.mret i
  else if funct7 = 0x105 ∧ csrAddr = 0x105 then
    let (pending, c) := c.checkPendingInterrupts (s.pendingLines i)
    let c := if pending then c.handleInterrupt (s.pendingLines i)
      else { c with isWaitingForInterrupt := true }
    (s.setCore i (if rd ≠ 0 then c.setReg rd 0 else c)).next i
  else if funct7 = 0x18 ∧ rs1 = 2 ∧ rd = 0 then s.mret i
  else if rd = 0 ∧ rs1 = 0 ∧ funct7 = 0 ∧ csrAddr = 0 then
    .done (s.setCore i (c.takeException (ecallCause c.privilegeLevel)))
  else (s.setCore i (if rd ≠ 0 then c.setReg rd 0 else c)).next i

/-- Keep the old value in `rd`, unless it is `x0`, and write the new one. -/
def csrUpdate (s : Simulator N n) (i : Fin N) (rd : Reg) (csrAddr : BitVec 12)
    (csrValue writeValue : Word) : Exit (Simulator N n) :=
  let c := s.cores i
  let s := s.setCore i (if rd ≠ 0 then c.setReg rd csrValue else c)
  (s.writeCsr i csrAddr writeValue).next i

/-- The CSR is read first, whatever the instruction. -/
def system (s : Simulator N n) (i : Fin N) (instr : Word) : Exit (Simulator N n) :=
  let rd := rdOf instr
  let csrAddr := instr.extractLsb' 20 12
  let (csrValue, s) := s.readCsr i csrAddr
  let source := (s.cores i).regs (rs1Of instr)
  let imm := (instr >>> 20) &&& 0x1F
  match funct3Of instr with
  | 0x0 => s.systemOther i instr
  | 0x1 => s.csrUpdate i rd csrAddr csrValue source
  | 0x2 => s.csrUpdate i rd csrAddr csrValue (csrValue ||| source)
  | 0x3 => s.csrUpdate i rd csrAddr csrValue (csrValue &&& ~~~source)
  | 0x5 => s.csrUpdate i rd csrAddr csrValue imm
  | 0x6 => s.csrUpdate i rd csrAddr csrValue (csrValue ||| imm)
  | 0x7 => s.csrUpdate i rd csrAddr csrValue (csrValue &&& ~~~imm)
  | _ => s.next i

/-! ## The step -/

def setCoreDone (s : Simulator N n) (i : Fin N) (c : Core) : Exit (Simulator N n) :=
  .done (s.setCore i c)

def execute (s : Simulator N n) (i : Fin N) (instr : Word) :
    Except Abort (Exit (Simulator N n)) :=
  let c := s.cores i
  match opcode instr with
  | 0x13 => .ok (s.setCoreDone i (c.opImm instr))
  | 0x33 => (c.op instr).map (s.setCoreDone i)
  | 0x37 => .ok (s.setCoreDone i (c.lui instr))
  | 0x17 => .ok (s.setCoreDone i (c.auipc instr))
  | 0x03 => .ok (s.load i instr)
  | 0x23 => .ok (s.store i instr)
  | 0x2F => .ok (s.amo i instr)
  | 0x63 => .ok (s.setCoreDone i (c.branch instr))
  | 0x6F => .ok (s.setCoreDone i (c.jal instr))
  | 0x67 => .ok (s.setCoreDone i (c.jalr instr))
  | 0x73 => .ok (s.system i instr)
  | _ => .ok (s.next i)

/-- What follows the switch. -/
def retire (i : Fin N) : Exit (Simulator N n) → Simulator N n
  | .done s =>
    let (c, counters) := (s.cores i).updatePerformanceCounter s.counters
    { s.setCore i (c.setReg 0 0) with counters := counters }
  | .fault s => s

def handleInterrupt (s : Simulator N n) (i : Fin N) : Simulator N n :=
  s.setCore i ((s.cores i).handleInterrupt (s.pendingLines i))

/-- A core that has not booted waits for its flag, except core 0, and then marks
itself as booted. -/
def boot (s : Simulator N n) (i : Fin N) : Except Abort (Simulator N n) :=
  if (s.cores i).hasBooted then .ok s
  else if i.val ≠ 0 ∧ !s.coreBootedFlags i then .error .waitForBoot
  else .ok { s.setCore i { s.cores i with hasBooted := true } with
    coreBootedFlags := Function.update s.coreBootedFlags i true }

/-- Whether the core goes on, after the wait for an interrupt has been ended if
one is pending. -/
def leaveWait (s : Simulator N n) (i : Fin N) : Bool × Simulator N n :=
  let c := s.cores i
  if c.isWaitingForInterrupt then
    let (pending, c) := c.checkPendingInterrupts (s.pendingLines i)
    if pending then
      (true, (s.setCore i { c with isWaitingForInterrupt := false }).handleInterrupt i)
    else (false, s.setCore i c)
  else (true, s)

/-- Everything before the fetch; says whether there is one. -/
def prepare (s : Simulator N n) (i : Fin N) : Except Abort (Bool × Simulator N n) :=
  let s := s.handleInterrupt i
  if s.multiCoreMonitor.shouldCoreExecute i then (s.boot i).map (·.leaveWait i)
  else .ok (false, s)

def step (s : Simulator N n) (i : Fin N) : Except Abort (Simulator N n) := do
  let (executing, s) ← s.prepare i
  if executing then
    let (instr, s) := s.fetch i (s.cores i).pc
    return retire i (← s.execute i instr)
  else return s

end Simulator
end RiscvEmulator.System
