import RiscvEmulator.Memory.Tlb
import RiscvEmulator.System.AccessMoves

/-! # What accesses leave alone, with translation

An access changes the caches and the TLB of its core; only a direct store changes
the simulator's memory. No instruction but those of SYSTEM changes a CSR. -/
namespace RiscvEmulator.System
open Memory Cores Interrupt Device

namespace Simulator
variable {N n : Nat} {s t u : Simulator N n} {i : Fin N} {direct : Prop}

/-! ## Accesses -/

/-- The cores are as they were, and the MMUs have their tables. -/
structure Accessed (s t : Simulator N n) : Prop where
  cores : t.cores = s.cores
  bases : ∀ j, (t.mmus j).pageTableBase = (s.mmus j).pageTableBase

/-- Memory is as it was, too. -/
structure CacheAccessed (s t : Simulator N n) : Prop extends Accessed s t where
  memory : t.memory = s.memory
  devices : t.devices = s.devices
  clint : t.clint = s.clint

theorem Accessed.refl (s : Simulator N n) : Accessed s s := ⟨rfl, fun _ => rfl⟩

theorem Accessed.trans (h : Accessed s t) (h' : Accessed t u) : Accessed s u :=
  ⟨h'.cores.trans h.cores, fun j => (h'.bases j).trans (h.bases j)⟩

theorem Accessed.csrs (h : Accessed s t) (i : Fin N) :
    (t.cores i).csrRegisters = (s.cores i).csrRegisters := by
  rw [h.cores]

theorem CacheAccessed.refl (s : Simulator N n) : CacheAccessed s s := ⟨.refl s, rfl, rfl, rfl⟩

theorem CacheAccessed.trans (h : CacheAccessed s t) (h' : CacheAccessed t u) :
    CacheAccessed s u :=
  ⟨h.toAccessed.trans h'.toAccessed, h'.memory.trans h.memory, h'.devices.trans h.devices,
    h'.clint.trans h.clint⟩

theorem translate_accessed (s : Simulator N n) (i : Fin N) (addr : Word) (w instruction : Bool) :
    CacheAccessed s (s.translate i addr w instruction).2 ∧
      (s.translate i addr w instruction).2.hierarchy = s.hierarchy := by
  have hbase := ((s.mmus i).ask_remembers s.memory.readWord ⟨addr, w, instruction⟩).1
  refine ⟨⟨⟨rfl, fun j => ?_⟩, rfl, rfl, rfl⟩, rfl⟩
  by_cases hj : j = i
  · subst hj
    rw [← hbase]
    exact congrArg MMU.pageTableBase (Function.update_self ..)
  · exact congrArg MMU.pageTableBase (Function.update_of_ne hj ..)

/-- A direct move changes memory, a device or the CLINT. -/
theorem AccessMove.accessed (h : AccessMove i direct s t) :
    Accessed s t ∧ (¬direct → CacheAccessed s t) := by
  cases h with
  | translate addr w instruction =>
    have h := (s.translate_accessed i addr w instruction).1
    exact ⟨h.toAccessed, fun _ => h⟩
  | fetch addr => exact ⟨⟨rfl, fun _ => rfl⟩, fun _ => ⟨⟨rfl, fun _ => rfl⟩, rfl, rfl, rfl⟩⟩
  | data lv => exact ⟨⟨rfl, fun _ => rfl⟩, fun _ => ⟨⟨rfl, fun _ => rfl⟩, rfl, rfl, rfl⟩⟩
  | device p write h => exact ⟨⟨rfl, fun _ => rfl⟩, fun hd => absurd h hd⟩
  | clint addr value h => exact ⟨⟨rfl, fun _ => rfl⟩, fun hd => absurd h hd⟩
  | memory m h => exact ⟨⟨rfl, fun _ => rfl⟩, fun hd => absurd h hd⟩

theorem Accesses.accessed (h : Accesses i direct s t) : Accessed s t := by
  induction h with
  | refl => exact .refl s
  | tail _ hmove ih => exact ih.trans hmove.accessed.1

theorem Accesses.cacheAccessed (h : Accesses i direct s t) (hd : ¬direct) : CacheAccessed s t := by
  induction h with
  | refl => exact .refl s
  | tail _ hmove ih => exact ih.trans (hmove.accessed.2 hd)

theorem cacheTranslate_accessed (s : Simulator N n) (i : Fin N) (addr : Word)
    (w instruction : Bool) : CacheAccessed s (s.cacheTranslate i addr w instruction).2 ∧
      (s.cacheTranslate i addr w instruction).2.hierarchy = s.hierarchy := by
  have h := s.translate_accessed i addr w instruction
  unfold cacheTranslate
  split
  · next hres =>
    rw [hres] at h
    exact h
  · next hres =>
    rw [hres] at h
    exact h

theorem fetch_accessed (s : Simulator N n) (i : Fin N) (addr : Word) :
    CacheAccessed s (s.fetch i addr).2 := (s.fetch_moves i addr).cacheAccessed not_false

theorem dataRead_accessed (s : Simulator N n) (i : Fin N) (addr : Word) :
    CacheAccessed s (s.dataRead i addr).2 := (s.dataRead_moves i addr).cacheAccessed not_false

theorem dataWrite_accessed (s : Simulator N n) (i : Fin N) (addr data : Word) :
    CacheAccessed s (s.dataWrite i addr data) :=
  (s.dataWrite_moves i addr data).cacheAccessed not_false

theorem modifyWord_accessed (s : Simulator N n) (i : Fin N) (addr : Word) (f : Word → Word) :
    CacheAccessed s (s.modifyWord i addr f) :=
  (s.modifyWord_moves i addr f).cacheAccessed not_false

/-! ## Instructions -/

/-- From `s` to `t` core `i` has accessed its caches and changed itself, but no
CSR. -/
def Performed (i : Fin N) (s t : Simulator N n) : Prop :=
  ∃ u c, CacheAccessed s u ∧ t = u.setCore i c ∧ c.csrRegisters = (s.cores i).csrRegisters

/-- Every instruction but stores and those of SYSTEM. -/
theorem execute_performed {instr : Word} {e : Exit (Simulator N n)} (hstore : opcode instr ≠ 0x23)
    (hsystem : opcode instr ≠ 0x73) (h : s.execute i instr = .ok e) :
    Performed i s (exitState e) := by
  obtain ⟨u, c, hu, ht, hc⟩ := execute_moved hsystem h
  have hacc := hu.cacheAccessed hstore
  exact ⟨u, c, hacc, ht, hc.csrs.trans (hacc.csrs i)⟩

/-! ## Stores -/

/-- The same for a store, which may also change memory and devices. -/
def Stored (i : Fin N) (s t : Simulator N n) : Prop :=
  ∃ u c, Accessed s u ∧ t = u.setCore i c ∧ c.csrRegisters = (s.cores i).csrRegisters

theorem store_stored (s : Simulator N n) (i : Fin N) (instr : Word) :
    Stored i s (exitState (s.store i instr)) := by
  obtain ⟨u, c, hu, ht, hc⟩ := s.store_moved i instr
  exact ⟨u, c, hu.accessed, ht, hc.csrs.trans (hu.accessed.csrs i)⟩

end Simulator
end RiscvEmulator.System
