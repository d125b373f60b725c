import RiscvEmulator.System.Execution
import RiscvEmulator.Cores.Compute

/-! # The data side of a step

What the cores can observe of memory: the copies of the data caches and what the
L2 shows, the simulator's own memory and the devices. Looking for the next
instruction leaves it alone, and so does every instruction but loads, stores,
atomics and system instructions. -/
namespace RiscvEmulator.System
open Memory Cores

namespace Simulator
variable {N n : Nat} {s s₁ s' t : Simulator N n} {i : Fin N} {instr : Word}

/-- The state a hierarchy is put back into. -/
def setHierarchy (t : Simulator N n) (h : Hierarchy N) : Simulator N n := { t with hierarchy := h }

@[simp] theorem setHierarchy_hierarchy (t : Simulator N n) (h : Hierarchy N) :
    (t.setHierarchy h).hierarchy = h := rfl

/-- The word a load of core `i` finds at an address of RAM. -/
def ramWord (s : Simulator N n) (i : Fin N) (addr : Word) : Word :=
  if hasDataCache addr then (s.hierarchy.load i addr).1 else s.readWord addr

theorem ramWord_cached {x : WordAddr} (hc : hasDataCache (byteAddr x) = true)
    (hg : s.hierarchy.Good) (i : Fin N) :
    s.ramWord i (byteAddr x) = (s.hierarchy.shared.seenBy i).view x := by
  unfold ramWord
  rw [if_pos hc, (Hierarchy.load_spec hg i x).1]

theorem ramWord_uncached {addr : Word} (hc : hasDataCache addr = false) (i : Fin N) :
    s.ramWord i addr = s.readWord addr := by
  unfold ramWord
  rw [hc]
  rfl

/-- The states have the same data side. -/
structure SameData (s t : Simulator N n) : Prop where
  shared : t.hierarchy.shared = s.hierarchy.shared
  memory : t.memory = s.memory
  devices : t.devices = s.devices
  clint : t.clint = s.clint
  mmus : t.mmus = s.mmus

namespace SameData

theorem refl (s : Simulator N n) : SameData s s := ⟨rfl, rfl, rfl, rfl, rfl⟩

theorem trans {u : Simulator N n} (h : SameData s t) (h' : SameData t u) : SameData s u :=
  ⟨h'.shared.trans h.shared, h'.memory.trans h.memory, h'.devices.trans h.devices,
    h'.clint.trans h.clint, h'.mmus.trans h.mmus⟩

theorem readWord (h : SameData s t) (addr : Word) : t.readWord addr = s.readWord addr := by
  unfold Simulator.readWord
  rw [h.memory, h.devices, h.clint]

theorem untranslated (h : SameData s t) (hu : s.Untranslated i) : t.Untranslated i := by
  unfold Untranslated
  rw [h.mmus]
  exact hu

end SameData

/-! ## Up to the fetch -/

theorem SameButGate.sameData (h : SameButGate i s t) :
    SameData s t ∧ t.hierarchy = s.hierarchy := by
  obtain ⟨c, flags, _, rfl⟩ := h
  exact ⟨⟨rfl, rfl, rfl, rfl, rfl⟩, rfl⟩

theorem SameButGate.others (h : SameButGate i s t) {j : Fin N} (hj : j ≠ i) :
    t.cores j = s.cores j := by
  obtain ⟨c, flags, _, rfl⟩ := h
  exact setCore_cores_other s i c hj

theorem Fetches.regs (h : s.Fetches i s₁ instr) :
    ((s₁.fetchPc i).2.cores i).regs = (s.cores i).regs := by
  rw [← (SameButGate.prepare h.prepared).regs]
  exact congrArg (fun cores => (cores i).regs) (fetch_frame s₁ i (s₁.cores i).pc).1

theorem Fetches.others (h : s.Fetches i s₁ instr) {j : Fin N} (hj : j ≠ i) :
    (s₁.fetchPc i).2.cores j = s.cores j := by
  rw [← (SameButGate.prepare h.prepared).others hj]
  exact congrFun (fetch_frame s₁ i (s₁.cores i).pc).1 j

theorem Fetches.untranslated (h : s.Fetches i s₁ instr) (hu : s.Untranslated i) :
    (s₁.fetchPc i).2.Untranslated i := by
  have hu₁ := (SameButGate.prepare h.prepared).untranslated hu
  unfold fetchPc
  rw [hu₁.fetch_eq]
  exact hu₁

/-- The state in which the fetched instruction executes. -/
theorem Fetches.sameData (h : s.Fetches i s₁ instr) (hg : s.hierarchy.Good)
    (hu : s.Untranslated i) :
    (s₁.fetchPc i).2.hierarchy.Good ∧ SameData s (s₁.fetchPc i).2 := by
  have hgate := SameButGate.prepare h.prepared
  obtain ⟨hdata, hh⟩ := hgate.sameData
  have hg₁ : s₁.hierarchy.Good := hh ▸ hg
  obtain ⟨hg₂, hshared⟩ := Hierarchy.fetch_spec hg₁ i (s₁.cores i).pc
  unfold fetchPc
  rw [(hgate.untranslated hu).fetch_eq]
  exact ⟨hg₂, hdata.trans ⟨hshared, rfl, rfl, rfl, rfl⟩⟩

/-! ## After the switch -/

/-- `s'` is `t` after the registers of core `i` have become `regs`. -/
structure Retired (t : Simulator N n) (i : Fin N) (regs : Reg → Word) (s' : Simulator N n) :
    Prop where
  data : SameData t s'
  hierarchy : s'.hierarchy = t.hierarchy
  regs : (s'.cores i).regs = regs
  others : ∀ j, j ≠ i → s'.cores j = t.cores j

theorem retire_retired (t : Simulator N n) (i : Fin N) (c : Core) :
    Retired t i (Function.update c.regs 0 0) (retire i (.done (t.setCore i c))) := by
  obtain ⟨hstate, v, hcore⟩ := retire_done t i c
  generalize retire i (.done (t.setCore i c)) = s' at hstate hcore
  refine ⟨?_, ?_, ?_, ?_⟩
  · rw [hstate]
    exact ⟨rfl, rfl, rfl, rfl, rfl⟩
  · rw [hstate]
    rfl
  · rw [hcore]
  · intro j hj
    rw [hstate]
    exact setCore_cores_other t i _ hj

/-- Storing into a register and clearing `x0` afterwards. -/
theorem retire_finish (t : Simulator N n) (i : Fin N) (rd : Reg) (v : Word)
    (h0 : (t.cores i).regs 0 = 0) :
    Retired t i ((t.cores i).isaState.write rd v).regs (retire i (t.finish i rd v)) := by
  have h := retire_retired t i ((t.cores i).writeback rd (some v))
  have hregs : Function.update ((t.cores i).writeback rd (some v)).regs 0 0 =
      ((t.cores i).isaState.write rd v).regs := Core.update_update_zero h0 rd v
  rwa [hregs] at h

theorem retire_next (t : Simulator N n) (i : Fin N) (h0 : (t.cores i).regs 0 = 0) :
    Retired t i (t.cores i).regs (retire i (t.next i)) := by
  have h := retire_retired t i ((t.cores i).writeback 0 none)
  have hregs : Function.update ((t.cores i).writeback 0 none).regs 0 0 = (t.cores i).regs :=
    Core.update_zero h0
  rwa [hregs] at h

/-! ## Steps that leave memory alone -/

/-- The invariant of the cores and their memory: the hierarchy is in order, no
core translates addresses, and `x0` is 0. -/
structure Sound (s : Simulator N n) : Prop where
  good : s.hierarchy.Good
  untranslated : ∀ i, s.Untranslated i
  zero : ∀ i, (s.cores i).regs 0 = 0

theorem loaded_sound (N n : Nat) (program : List Word) {regs : Fin N → Reg → Word}
    (h0 : ∀ i, regs i 0 = 0) : (loaded N n program regs).Sound :=
  ⟨loaded_good .., fun _ => loaded_untranslated .., h0⟩

/-- Neither a load or store nor an atomic or a system instruction. -/
def Quiet (instr : Word) : Prop :=
  opcode instr ≠ 0x03 ∧ opcode instr ≠ 0x23 ∧ opcode instr ≠ 0x2F ∧ opcode instr ≠ 0x73

instance (instr : Word) : Decidable (Quiet instr) :=
  inferInstanceAs (Decidable (_ ∧ _ ∧ _ ∧ _))

theorem execute_quiet (h : Quiet instr) (t : Simulator N n) (i : Fin N) :
    (∃ c, t.execute i instr = .ok (.done (t.setCore i c))) ∨ ∃ e, t.execute i instr = .error e := by
  obtain ⟨hload, hstore, hamo, hsystem⟩ := h
  unfold execute
  split
  · exact .inl ⟨_, rfl⟩
  · cases hop : (t.cores i).op instr with
    | ok c => exact .inl ⟨c, congrArg (Except.map (t.setCoreDone i)) hop⟩
    | error e => exact .inr ⟨e, congrArg (Except.map (t.setCoreDone i)) hop⟩
  · exact .inl ⟨_, rfl⟩
  · exact .inl ⟨_, rfl⟩
  · next h => exact absurd h hload
  · next h => exact absurd h hstore
  · next h => exact absurd h hamo
  · exact .inl ⟨_, rfl⟩
  · exact .inl ⟨_, rfl⟩
  · exact .inl ⟨_, rfl⟩
  · next h => exact absurd h hsystem
  · exact .inl ⟨_, rfl⟩

/-- A step without data access: the core does not execute, or it executes a quiet
instruction. -/
structure QuietStep (s : Simulator N n) (i : Fin N) (s' : Simulator N n) : Prop where
  step : s.step i = .ok s'
  quiet : (∃ s'', s.prepare i = .ok (false, s'')) ∨ ∃ s₁ instr, s.Fetches i s₁ instr ∧ Quiet instr

/-- The registers of all cores but `i` are as before, and `x0` stays 0. -/
theorem Sound.retired {regs : Reg → Word} (hs : s.Sound) (hg : t.hierarchy.Good)
    (hm : t.mmus = s.mmus) (ho : ∀ j, j ≠ i → t.cores j = s.cores j)
    (hr : Retired t i regs s') (h0 : regs 0 = 0) : s'.Sound := by
  refine ⟨hr.hierarchy ▸ hg, ?_, ?_⟩
  · intro j
    unfold Untranslated
    rw [hr.data.mmus, hm]
    exact hs.untranslated j
  · intro j
    by_cases hj : j = i
    · subst hj
      rw [hr.regs, h0]
    · rw [hr.others j hj, ho j hj]
      exact hs.zero j

theorem Sound.quietStep (hs : s.Sound) (h : s.QuietStep i s') : s'.Sound ∧ SameData s s' := by
  rcases h.quiet with ⟨s'', hp⟩ | ⟨s₁, instr, hf, hq⟩
  · -- the core does not execute
    obtain rfl : s'' = s' := Except.ok.inj ((step_idle hp).symm.trans h.step)
    have hgate := SameButGate.prepare hp
    obtain ⟨hdata, hh⟩ := hgate.sameData
    refine ⟨⟨hh ▸ hs.good, fun j => hdata.untranslated (hs.untranslated j), fun j => ?_⟩, hdata⟩
    by_cases hj : j = i
    · subst hj
      rw [hgate.regs]
      exact hs.zero j
    · rw [hgate.others hj]
      exact hs.zero j
  · obtain ⟨hg, hdata⟩ := hf.sameData hs.good (hs.untranslated i)
    have hstep := hf.step_eq.symm.trans h.step
    rcases execute_quiet hq (s₁.fetchPc i).2 i with ⟨c, hc⟩ | ⟨e, he⟩
    · rw [hc] at hstep
      obtain rfl := Except.ok.inj hstep
      have hret := retire_retired (s₁.fetchPc i).2 i c
      exact ⟨hs.retired hg hdata.mmus (fun j hj => hf.others hj) hret (Function.update_self ..),
        hdata.trans hret.data⟩
    · rw [he] at hstep
      cases hstep

end Simulator
end RiscvEmulator.System
