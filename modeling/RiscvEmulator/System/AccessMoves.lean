import RiscvEmulator.System.Execution

/-! # The moves of an instruction

What an instruction other than SYSTEM does, in the moves that its accesses are made of,
and what is left of it to the core. Only a store makes direct moves: to memory, a
device or the CLINT. What all of these leave alone is then a matter of the moves. -/
namespace RiscvEmulator.System
open Memory Cores Device

/-- The cores differ in registers and `pc` at most. -/
def OnlyRegs (c c' : Core) : Prop := ∃ regs pc, c' = { c with regs := regs, pc := pc }

theorem OnlyRegs.writeback (c : Core) (rd : Cores.Reg) (v : Option Word) :
    OnlyRegs c (c.writeback rd v) := by
  cases v with
  | none => exact ⟨c.regs, _, rfl⟩
  | some v => exact ⟨_, _, rfl⟩

theorem OnlyRegs.csrs {c c' : Core} (h : OnlyRegs c c') : c'.csrRegisters = c.csrRegisters := by
  obtain ⟨regs, pc, rfl⟩ := h
  rfl

namespace Simulator
variable {N n : Nat} {s t u : Simulator N n} {i : Fin N} {direct : Prop}

/-! ## Accesses -/

/-- What an access of core `i` does at a time, all of it outside the cores. -/
inductive AccessMove (i : Fin N) (direct : Prop) (s : Simulator N n) : Simulator N n → Prop
  | translate (addr : Word) (w instruction : Bool) :
    AccessMove i direct s (s.translate i addr w instruction).2
  | fetch (addr : Word) :
    AccessMove i direct s { s with hierarchy := (s.hierarchy.fetch i addr).2 }
  | data (lv : Level l1Geometry L2) :
    AccessMove i direct s { s with hierarchy := s.hierarchy.setDataCache i lv }
  | device (p : Word × UART → Bool) (write : Word × UART → UART) (h : direct) :
    AccessMove i direct s (s.writeDevice p write)
  | clint (addr value : BitVec 64) (h : direct) :
    AccessMove i direct s { s with clint := s.clint.write addr value 4 }
  | memory (m : ByteMemory n) (h : direct) : AccessMove i direct s { s with memory := m }

abbrev Accesses (i : Fin N) (direct : Prop) : Simulator N n → Simulator N n → Prop :=
  Relation.ReflTransGen (AccessMove i direct)

theorem Accesses.trans (h : Accesses i direct s t) (h' : Accesses i direct t u) :
    Accesses i direct s u := Relation.ReflTransGen.trans h h'

theorem translate_moves (s : Simulator N n) (i : Fin N) (addr : Word) (w instruction : Bool) :
    Accesses i direct s (s.translate i addr w instruction).2 := .single (.translate ..)

theorem cacheTranslate_moves (s : Simulator N n) (i : Fin N) (addr : Word) (w instruction : Bool) :
    Accesses i direct s (s.cacheTranslate i addr w instruction).2 := by
  have h : Accesses i direct s (s.translate i addr w instruction).2 := s.translate_moves ..
  unfold cacheTranslate
  split
  · next hres =>
    rw [hres] at h
    exact h
  · next hres =>
    rw [hres] at h
    exact h

theorem fetch_moves (s : Simulator N n) (i : Fin N) (addr : Word) :
    Accesses i direct s (s.fetch i addr).2 :=
  (s.cacheTranslate_moves i addr false true).tail (.fetch _)

theorem dataRead_moves (s : Simulator N n) (i : Fin N) (addr : Word) :
    Accesses i direct s (s.dataRead i addr).2 :=
  (s.cacheTranslate_moves i addr false false).tail (.data _)

theorem dataWrite_moves (s : Simulator N n) (i : Fin N) (addr data : Word) :
    Accesses i direct s (s.dataWrite i addr data) :=
  (s.cacheTranslate_moves i addr true false).tail (.data _)

theorem dataAtomic_moves (s : Simulator N n) (i : Fin N) (addr : Word) (op : Atomic) :
    Accesses i direct s (s.dataAtomic i addr op).2 :=
  (s.cacheTranslate_moves i addr true false).tail (.data _)

theorem dataReadWord_moves (s : Simulator N n) (i : Fin N) (addr : Word) :
    Accesses i direct s (s.dataReadWord i addr).2 :=
  (s.cacheTranslate_moves i addr false false).tail (.data _)

theorem dataWriteWord_moves (s : Simulator N n) (i : Fin N) (addr data : Word) :
    Accesses i direct s (s.dataWriteWord i addr data) :=
  (s.cacheTranslate_moves i addr true false).tail (.data _)

theorem modifyWord_moves (s : Simulator N n) (i : Fin N) (addr : Word) (f : Word → Word) :
    Accesses i direct s (s.modifyWord i addr f) :=
  (s.dataRead_moves i (aligned addr)).trans (dataWrite_moves _ i _ _)

/-- Direct stores change memory, a device or the CLINT. -/
theorem writeDirect_moves (s : Simulator N n) (i : Fin N) (addr data : Word) :
    Accesses i True s (s.writeWord addr data) ∧
      (∀ half, Accesses i True s (s.writeHalfword addr half)) ∧
      ∀ byte, Accesses i True s (s.writeByte addr byte) := by
  unfold writeWord writeHalfword writeByte
  refine ⟨?_, ?_, ?_⟩
  · split
    · exact .single (.device _ _ trivial)
    · split
      · exact .single (.clint _ _ trivial)
      · exact .single (.memory _ trivial)
  · intro half
    split
    · exact .single (.device _ _ trivial)
    · exact .single (.memory _ trivial)
  · intro byte
    split
    · exact .single (.device _ _ trivial)
    · exact .single (.memory _ trivial)

/-! ## Instructions -/

/-- The state in which the switch is left. -/
def exitState : Exit (Simulator N n) → Simulator N n
  | .done s => s
  | .fault s => s

/-- From `s` to `t` core `i` has made accesses and changed its registers and `pc`. -/
def Moved (i : Fin N) (direct : Prop) (s t : Simulator N n) : Prop :=
  ∃ u c, Accesses i direct s u ∧ t = u.setCore i c ∧ OnlyRegs (u.cores i) c

section
variable (h : Accesses i direct s t)
include h

theorem Accesses.finish (rd : Cores.Reg) (v : Word) :
    Moved i direct s (exitState (t.finish i rd v)) := ⟨t, _, h, rfl, .writeback ..⟩

theorem Accesses.next : Moved i direct s (exitState (t.next i)) := ⟨t, _, h, rfl, .writeback ..⟩

theorem Accesses.fault (ex : ExceptionType) : Moved i direct s (exitState (t.fault i ex)) :=
  ⟨t, _, h, rfl, _, _, rfl⟩

end

/-- How core `i` leaves the switch after its accesses: with or without a value for `rd`,
by an exception, or, where it `skips` an instruction, with `pc` advanced twice. -/
inductive Leaves (i : Fin N) (direct skips : Prop) (s : Simulator N n) :
    Exit (Simulator N n) → Prop
  | finish {u : Simulator N n} (h : Accesses i direct s u) (rd : Cores.Reg) (v : Word) :
    Leaves i direct skips s (u.finish i rd v)
  | next {u : Simulator N n} (h : Accesses i direct s u) : Leaves i direct skips s (u.next i)
  | fault {u : Simulator N n} (h : Accesses i direct s u) (ex : ExceptionType) :
    Leaves i direct skips s (u.fault i ex)
  | skip {u : Simulator N n} (h : Accesses i direct s u) (hskips : skips) :
    Leaves i direct skips s ((u.setCore i ((u.cores i).setPc ((u.cores i).pc + 4))).next i)

theorem Leaves.moved {skips : Prop} {e : Exit (Simulator N n)} (h : Leaves i direct skips s e) :
    Moved i direct s (exitState e) := by
  cases h with
  | finish h rd v => exact h.finish rd v
  | next h => exact h.next
  | fault h ex => exact h.fault ex
  | @skip u h _ =>
    refine ⟨u, _, h, setCore_setCore .., ?_⟩
    rw [setCore_cores_self]
    exact ⟨_, _, rfl⟩

theorem loadRam_leaves (s : Simulator N n) (i : Fin N) (rd : Cores.Reg) (addr cachedAddr : Word)
    (extract : Word → Word) (load : Simulator N n → Word → Word) :
    Leaves i direct False s (s.loadRam i rd addr cachedAddr extract load) := by
  unfold loadRam
  split
  · exact .finish (s.dataRead_moves i cachedAddr) rd _
  · have h : Accesses i direct s (s.translate i addr false false).2 := s.translate_moves ..
    split
    · next hres =>
      rw [hres] at h
      exact .finish h rd _
    · next hres =>
      rw [hres] at h
      exact .fault h _

theorem load_leaves (s : Simulator N n) (i : Fin N) (instr : Word) :
    Leaves i direct False s (s.load i instr) := by
  unfold load
  simp only
  split
  · split
    case h_6 => exact .finish .refl _ _
    all_goals exact loadRam_leaves ..
  · unfold loadMmio
    split
    · exact .finish .refl _ _
    · split
      · exact .finish .refl _ _
      · split
        · exact .finish .refl _ _
        · exact .fault .refl _

theorem load_moved (s : Simulator N n) (i : Fin N) (instr : Word) :
    Moved i direct s (exitState (s.load i instr)) :=
  (s.load_leaves i instr).moved

/-- The bits 31-27 that the switch of the atomics knows. -/
def knownAtomics : List (BitVec 5) :=
  [0x00, 0x01, 0x04, 0x08, 0x0C, 0x10, 0x14, 0x18, 0x1C, 0x02, 0x03]

/-- An atomic in RAM that the switch does not know. -/
def AmoSkips (s : Simulator N n) (i : Fin N) (instr : Word) : Prop :=
  funct3Of instr = 0x2 ∧ (funct7Of instr).extractLsb' 2 5 ∉ knownAtomics ∧
    ∃ physAddr t, s.translate i ((s.cores i).regs (rs1Of instr)) false false = (.ok physAddr, t) ∧
      physAddr.toNat < n

theorem amoRam_leaves (h : Accesses i direct s t) (rd : Cores.Reg) (funct5 : BitVec 5)
    (addr v : Word) :
    Leaves i direct (funct5 ∉ knownAtomics) s (t.amoRam i rd funct5 addr v) := by
  have hcache : ∀ op, Leaves i direct (funct5 ∉ knownAtomics) s (t.amoCache i rd addr op) := by
    intro op
    exact .finish (h.trans (t.dataAtomic_moves i addr op)) rd _
  have hselect : ∀ keeps,
      Leaves i direct (funct5 ∉ knownAtomics) s (t.amoSelect i rd addr v keeps) := by
    intro keeps
    exact .finish ((h.trans (t.dataReadWord_moves i addr)).trans (dataWriteWord_moves _ i addr _))
      rd _
  unfold amoRam
  split
  case h_1 | h_2 | h_3 | h_4 | h_5 => exact hcache _
  case h_6 | h_7 | h_8 | h_9 => exact hselect _
  case h_10 => exact .finish (h.trans (t.dataReadWord_moves i addr)) rd _
  case h_11 => exact .finish (h.trans (t.dataWriteWord_moves i addr v)) rd _
  case h_12 =>
    refine .skip h ?_
    simp only [knownAtomics, List.mem_cons, List.not_mem_nil, or_false, not_or]
    exact ⟨‹_›, ‹_›, ‹_›, ‹_›, ‹_›, ‹_›, ‹_›, ‹_›, ‹_›, ‹_›, ‹_›⟩

/-- An exit stays what it is where skipping is allowed more often. -/
theorem Leaves.mono {skips skips' : Prop} {e : Exit (Simulator N n)}
    (h : Leaves i direct skips s e) (hskips : skips → skips') : Leaves i direct skips' s e := by
  cases h with
  | finish h rd v => exact .finish h rd v
  | next h => exact .next h
  | fault h ex => exact .fault h ex
  | skip h hs => exact .skip h (hskips hs)

theorem amo_leaves (s : Simulator N n) (i : Fin N) (instr : Word) :
    Leaves i direct (s.AmoSkips i instr) s (s.amo i instr) := by
  unfold amo
  simp only
  split
  · next h3 =>
    have h : Accesses i direct s (s.translate i ((s.cores i).regs (rs1Of instr)) false false).2 :=
      s.translate_moves ..
    split
    · next hres =>
      rw [hres] at h
      exact .fault h _
    · next hres =>
      rw [hres] at h
      split
      · next hram => exact (amoRam_leaves h _ _ _ _).mono fun hop => ⟨h3, hop, _, _, hres, hram⟩
      · exact .finish h _ _
  · exact .next .refl

theorem amo_moved (s : Simulator N n) (i : Fin N) (instr : Word) :
    Moved i direct s (exitState (s.amo i instr)) := (s.amo_leaves i instr).moved

theorem storeRam_leaves (s : Simulator N n) (i : Fin N) (addr : Word)
    {cached : Simulator N n → Simulator N n} {store : Simulator N n → Word → Simulator N n}
    (hcached : Accesses i True s (cached s))
    (hstore : ∀ t physAddr, Accesses i True t (store t physAddr)) :
    Leaves i True False s (s.storeRam i addr cached store) := by
  unfold storeRam
  split
  · exact .next hcached
  · have h : Accesses i True s (s.translate i addr true false).2 := s.translate_moves ..
    split
    · next hres =>
      rw [hres] at h
      exact .next (h.trans (hstore _ _))
    · next hres =>
      rw [hres] at h
      exact .fault h _

theorem store_leaves (s : Simulator N n) (i : Fin N) (instr : Word) :
    Leaves i True False s (s.store i instr) := by
  unfold store
  simp only
  split
  · split
    · exact storeRam_leaves s i _ (s.dataWrite_moves i _ _)
        fun t a => (t.writeDirect_moves i a _).1
    · exact storeRam_leaves s i _ (s.modifyWord_moves i _ _)
        fun t a => (t.writeDirect_moves i a 0).2.2 _
    · exact storeRam_leaves s i _ (s.modifyWord_moves i _ _)
        fun t a => (t.writeDirect_moves i a 0).2.1 _
    · exact .next .refl
  · unfold storeMmio
    split
    · exact .next (.single (.device _ _ trivial))
    · split
      · exact .next (s.writeDirect_moves i _ _).1
      · exact .fault .refl _

theorem store_moved (s : Simulator N n) (i : Fin N) (instr : Word) :
    Moved i True s (exitState (s.store i instr)) :=
  (s.store_leaves i instr).moved

/-- Every instruction but those of SYSTEM. -/
theorem execute_moved {instr : Word} {e : Exit (Simulator N n)} (hsystem : opcode instr ≠ 0x73)
    (h : s.execute i instr = .ok e) : Moved i (opcode instr = 0x23) s (exitState e) := by
  have hcore : ∀ c : Core, OnlyRegs (s.cores i) c →
      Moved i (opcode instr = 0x23) s (exitState (s.setCoreDone i c)) :=
    fun c hc => ⟨s, c, .refl, rfl, hc⟩
  unfold execute at h
  simp only at h
  split at h
  · cases h
    exact hcore _ (.writeback ..)
  · unfold Core.op at h
    generalize aluOp _ _ _ _ _ = r at h
    cases r with
    | error e => cases h
    | ok v =>
      cases h
      exact hcore _ (.writeback ..)
  · cases h
    exact hcore _ (.writeback ..)
  · cases h
    exact hcore _ (.writeback ..)
  · cases h
    exact load_moved ..
  · next hop =>
    cases h
    have hdirect : (opcode instr = 0x23) = True := eq_true hop
    rw [hdirect]
    exact store_moved ..
  · cases h
    exact amo_moved ..
  · cases h
    refine hcore _ ?_
    unfold Core.branch
    split <;> exact ⟨_, _, rfl⟩
  · cases h
    exact hcore _ ⟨_, _, rfl⟩
  · cases h
    refine hcore _ ?_
    unfold Core.jalr
    split <;> exact ⟨_, _, rfl⟩
  · next hop => exact absurd hop hsystem
  · cases h
    exact Accesses.next .refl

end Simulator
end RiscvEmulator.System
