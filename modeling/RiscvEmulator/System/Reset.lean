import RiscvEmulator.System.Continuation
import RiscvEmulator.System.LoadedImage

/-! # Reset

`Simulator::reset` clears registers, memory, caches and TLBs. It takes the devices away,
and it leaves the CSRs, the monitor and the interrupt controllers as they are: no
program that is loaded after it runs as in a new simulator. -/
namespace RiscvEmulator.System
open Memory Cores Lib.Fold

namespace Simulator
variable {N n : Nat} {s t u : Simulator N n} {i : Fin N} {buffer : FileBuffer}

/-- The statistics of the caches are reset with their entries. -/
def reset (s : Simulator N n) : Simulator N n :=
  { s with
    cores i := (s.cores i).reset i.val (some n)
    memory := ⟨fun _ => 0⟩
    devices := []
    hierarchy := s.hierarchy.invalidateAll
    mmus i := (s.mmus i).flushTlb }

/-! ## What a load leaves alone -/

/-- A load changes the `pc` of the cores, memory and the caches over DDR. -/
def LoadFrame (s t : Simulator N n) : Prop :=
  ∃ (pc : Fin N → Word) (memory : ByteMemory n) (hierarchy : Hierarchy N), t = { s with
    cores := fun i => (s.cores i).setPc (pc i)
    memory := memory
    hierarchy := hierarchy }

theorem LoadFrame.refl (s : Simulator N n) : LoadFrame s s :=
  ⟨fun i => (s.cores i).pc, s.memory, s.hierarchy, rfl⟩

theorem setEntryPoint_frame (s : Simulator N n) (entryPoint : Word) :
    LoadFrame s (s.setEntryPoint entryPoint) := by
  unfold setEntryPoint
  split
  · exact ⟨fun _ => entryPoint, s.memory, s.hierarchy, rfl⟩
  · exact .refl s

theorem LoadFrame.write (h : LoadFrame s t) (memory : ByteMemory n) (hierarchy : Hierarchy N) :
    LoadFrame s { t with memory := memory, hierarchy := hierarchy } := by
  obtain ⟨pc, _, _, rfl⟩ := h
  exact ⟨pc, memory, hierarchy, rfl⟩

theorem LoadFrame.trans (h : LoadFrame s t) (h' : LoadFrame t u) : LoadFrame s u := by
  obtain ⟨_, _, _, rfl⟩ := h
  obtain ⟨pc, memory, hierarchy, rfl⟩ := h'
  exact ⟨pc, memory, hierarchy, rfl⟩

theorem finishLoad_frame {entryPoint maxLoadedAddr : Word} {r : Bool × Simulator N n}
    (h : s.finishLoad entryPoint maxLoadedAddr = .ok r) : LoadFrame s r.2 := by
  have hset : LoadFrame s (s.invalidateCaches.setEntryPoint entryPoint) :=
    ((LoadFrame.refl s).write s.memory _).trans (setEntryPoint_frame _ entryPoint)
  unfold finishLoad at h
  simp only at h
  split at h
  · generalize zeroFill _ _ _ = filled at h
    cases filled with
    | error e => cases h
    | ok memory =>
      cases h
      exact hset.write memory _
  · cases h
    exact hset

/-- A load that succeeds has come to its end, and its last part did not fault. -/
theorem loadProgram_finish {r : Bool × Simulator N n} (h : s.loadProgram buffer = .ok r) :
    r = (false, s) ∨ ∃ m entryPoint maxLoadedAddr, maxLoadedAddr.toNat ≤ n ∧
      (s.withImage m).finishLoad entryPoint maxLoadedAddr = .ok r := by
  unfold loadProgram at h
  split at h
  · unfold loadElf at h
    split at h
    · cases h
      exact .inl rfl
    · split at h
      · cases h
        exact .inl rfl
      · obtain ⟨first, hfirst, h⟩ := bind_eq_ok h
        obtain ⟨_, _, h⟩ := bind_eq_ok h
        obtain ⟨m, _, h⟩ := bind_eq_ok h
        exact .inr ⟨m, _, _, Image.loadSegments_max hfirst, h⟩
  · unfold loadRaw at h
    split at h
    · cases h
      exact .inl rfl
    · next hfits =>
      obtain ⟨_, _, h⟩ := bind_eq_ok h
      obtain ⟨m, _, h⟩ := bind_eq_ok h
      obtain ⟨_, _, h⟩ := bind_eq_ok h
      refine .inr ⟨m, _, _, ?_, h⟩
      rw [BitVec.toNat_ofNat]
      exact (Nat.mod_le ..).trans (Nat.le_of_not_lt hfits)

theorem loadProgram_frame {r : Bool × Simulator N n} (h : s.loadProgram buffer = .ok r) :
    LoadFrame s r.2 := by
  rcases loadProgram_finish h with rfl | ⟨m, _, _, _, hfinish⟩
  · exact .refl s
  · exact ((LoadFrame.refl s).write m.memory _).trans (finishLoad_frame hfinish)

/-- A memory below the end of what is cleared takes no program. -/
theorem loaded_reaches (h : s.loadProgram buffer = .ok (true, t)) : bssEnd ≤ n := by
  rcases loadProgram_finish h with heq | ⟨m, entryPoint, _, hmax, hfinish⟩
  · cases heq
  · have hin := inBounds_ok (true, t)
    rw [← hfinish] at hin
    exact (finishLoad_inBounds_iff _ entryPoint hmax).mp hin

/-- An empty file is a raw binary. -/
theorem empty_loads (hbss : bssEnd ≤ n) (s : Simulator N n) :
    ∃ t, s.loadProgram [] = .ok (true, t) := by
  obtain ⟨memory, hcopy⟩ : ∃ memory, copyFromFile [] s.memory 0 0 0 = .ok memory := by
    have hfile : 0 + 0 ≤ ([] : FileBuffer).length := Nat.le_refl 0
    have hmemory : 0 + 0 ≤ n := Nat.zero_le n
    unfold copyFromFile
    rw [if_pos hfile, if_pos hmemory]
    exact ⟨_, rfl⟩
  obtain ⟨t, hfinish, _⟩ := (s.withImage ⟨memory, s.ddr⟩).finishLoad_eq 0 0 hbss
  have hraw : ¬FileBuffer.isElf [] = true := by decide
  have hfits : ¬n < ([] : FileBuffer).length := Nat.not_lt_zero n
  refine ⟨t, ?_⟩
  unfold loadProgram loadRaw
  rw [if_neg hraw, if_neg hfits]
  show (copyFromFile [] s.memory 0 0 0 >>= s.storeRaw []) = _
  rw [hcopy]
  exact hfinish

/-! ## No devices -/

theorem AccessMove.noDevices {direct : Prop} (h : AccessMove i direct s t) (hs : s.devices = []) :
    t.devices = [] := by
  cases h with
  | translate addr w instruction => exact hs
  | fetch addr => exact hs
  | data lv => exact hs
  | device p write _ =>
    unfold writeDevice
    rw [hs]
    rfl
  | clint addr value _ => exact hs
  | memory m _ => exact hs

theorem StepMoves.noDevices (h : StepMoves i s t) (hs : s.devices = []) : t.devices = [] := by
  induction h with
  | refl => exact hs
  | tail _ hmove ih =>
    cases hmove with
    | access h => exact h.noDevices ih
    | core c => exact ih
    | flags flags => exact ih
    | counters counters => exact ih
    | base base => exact ih

theorem coresStep_noDevices (h : s.coresStep = .ok t) (hs : s.devices = []) : t.devices = [] :=
  foldlM_invariant (P := fun t : Simulator N n => t.devices = [])
    (fun _ _ _ ht hturn => (executeCoreStep_moves hturn).noDevices ht) h hs

theorem endMoves_noDevices (h : Relation.ReflTransGen EndMove s t) (hs : s.devices = []) :
    t.devices = [] := by
  induction h with
  | refl => exact hs
  | tail _ hmove ih => cases hmove <;> exact ih

theorem getDevice_none (hs : s.devices = []) (addr : Word) : s.getDevice addr = none := by
  unfold getDevice
  rw [hs]
  rfl

end Simulator

namespace Emulation
variable {N n : Nat} {e e' a b : Emulation N n} {released signal : Bool} {buffer : FileBuffer}

theorem Cycle.noDevices (h : Cycle e signal e') (he : e.devices = []) : e'.devices = [] := by
  obtain ⟨s, hs, hends⟩ := h.ends
  exact Simulator.endMoves_noDevices hends (Simulator.coresStep_noDevices hs he)

theorem Reached.noDevices (h : Reached a released e) (ha : a.devices = []) : e.devices = [] := by
  induction h with
  | start => exact ha
  | count cycles _ ih => exact ih
  | cycle _ hcycle ih => exact hcycle.noDevices ih

/-! ## Runs after a reset -/

def reset (e : Emulation N n) : Emulation N n := { e with toSimulator := e.toSimulator.reset }

def loadProgram (e : Emulation N n) (buffer : FileBuffer) :
    Except LoadFault (Bool × Emulation N n) :=
  (e.toSimulator.loadProgram buffer).map fun r => (r.1, { e with toSimulator := r.2 })

/-- A simulator just constructed. -/
def constructed (N n : Nat) : Emulation N n :=
  start N n ⟨fun _ => 0⟩ (Simulator.init N n ⟨fun _ => 0⟩).memory

inductive Call where
  | run (cycles : Word)
  | debugRun (steps : Word)

def perform (e : Emulation N n) : Call → Except Abort (Emulation N n)
  | .run cycles => e.run cycles
  | .debugRun steps => e.debugRun steps

/-- The same registers, CSRs and memory, and the same devices with the same output. -/
structure Alike (a b : Emulation N n) : Prop where
  regs : ∀ i, (a.cores i).regs = (b.cores i).regs
  csrs : ∀ i, (a.cores i).csrRegisters = (b.cores i).csrRegisters
  memory : ∀ x < n, a.memory.bytes x = b.memory.bytes x
  output : ∀ addr, (a.getDevice addr).map (·.output) = (b.getDevice addr).map (·.output)

/-- Runs that end alike, or abort alike. -/
def EndAlike : Except Abort (Emulation N n) → Except Abort (Emulation N n) → Prop
  | .ok a, .ok b => Alike a b
  | .error x, .error y => x = y
  | _, _ => False

/-- Whatever is loaded after a reset runs as it does in a new simulator. -/
def ResetRestores (e : Emulation N n) : Prop :=
  ∀ buffer a b, e.reset.loadProgram buffer = .ok (true, a) →
    (constructed N n).loadProgram buffer = .ok (true, b) →
    ∀ calls : List Call, EndAlike (calls.foldlM perform a) (calls.foldlM perform b)

/-- What a program loaded after a reset of `e` starts with. -/
structure LeftOver (e a : Emulation N n) : Prop where
  regs : ∀ i, (a.cores i).regs = Function.update (fun _ => 0) 2 (BitVec.ofNat 32 n)
  csrs : ∀ i csr, csr ≠ 0xF14 → (a.cores i).csrRegisters csr = (e.cores i).csrRegisters csr
  privilege : ∀ i, (a.cores i).privilegeLevel = (e.cores i).privilegeLevel
  finished : ∀ i, (a.cores i).hasFinished = (e.cores i).hasFinished
  flags : a.coreBootedFlags = e.coreBootedFlags
  monitor : a.multiCoreMonitor = e.multiCoreMonitor
  clint : a.clint = e.clint
  plic : a.plic = e.plic
  released : a.releaseAllCoresCalled = e.releaseAllCoresCalled
  processed : a.releaseProcessed = e.releaseProcessed
  devices : a.devices = []

theorem loadProgram_ok {loaded : Bool} (h : e.loadProgram buffer = .ok (loaded, a)) :
    ∃ s, e.toSimulator.loadProgram buffer = .ok (loaded, s) ∧ a = { e with toSimulator := s } := by
  unfold loadProgram at h
  generalize e.toSimulator.loadProgram buffer = r at h ⊢
  cases r with
  | error fault => cases h
  | ok r =>
    cases h
    exact ⟨r.2, rfl, rfl⟩

theorem reset_leftOver {loaded : Bool} (h : e.reset.loadProgram buffer = .ok (loaded, a)) :
    LeftOver e a := by
  obtain ⟨s, hs, rfl⟩ := loadProgram_ok h
  obtain ⟨pc, memory, hierarchy, rfl⟩ := Simulator.loadProgram_frame hs
  exact {
    regs := fun i => rfl
    csrs := fun i csr hcsr => Function.update_of_ne hcsr _ (e.cores i).csrRegisters
    privilege := fun i => rfl
    finished := fun i => rfl
    flags := rfl
    monitor := rfl
    clint := rfl
    plic := rfl
    released := rfl
    processed := rfl
    devices := rfl }

theorem constructed_regs {loaded : Bool}
    (h : (constructed N n).loadProgram buffer = .ok (loaded, b)) (i : Fin N) :
    (b.cores i).regs = Function.update (fun _ => 0) 2 0x100000 := by
  obtain ⟨s, hs, rfl⟩ := loadProgram_ok h
  obtain ⟨pc, memory, hierarchy, rfl⟩ := Simulator.loadProgram_frame hs
  rfl

theorem constructed_device {loaded : Bool}
    (h : (constructed N n).loadProgram buffer = .ok (loaded, b)) :
    b.getDevice Simulator.uartBase = some {} := by
  obtain ⟨s, hs, rfl⟩ := loadProgram_ok h
  obtain ⟨pc, memory, hierarchy, rfl⟩ := Simulator.loadProgram_frame hs
  rfl

/-- Whatever the program, only the new simulator has a UART. -/
theorem loaded_not_alike {loaded loaded' : Bool}
    (ha : e.reset.loadProgram buffer = .ok (loaded, a))
    (hb : (constructed N n).loadProgram buffer = .ok (loaded', b)) : ¬Alike a b := by
  intro halike
  have houtput := halike.output Simulator.uartBase
  rw [constructed_device hb, Simulator.getDevice_none (reset_leftOver ha).devices] at houtput
  cases houtput

/-- No state is restored by a reset, unless the memory is too small for any program. What
is loaded after it finds what the programs before it have left, and no device ever
again. -/
theorem reset_restores_iff (e : Emulation N n) :
    (ResetRestores e ↔ n < Simulator.bssEnd) ∧
      ∀ buffer a b, e.reset.loadProgram buffer = .ok (true, a) →
        (constructed N n).loadProgram buffer = .ok (true, b) →
        ¬Alike a b ∧ LeftOver e a ∧
          (∀ i, (b.cores i).regs = Function.update (fun _ => 0) 2 0x100000) ∧
          ∀ released a' addr, Reached a released a' → a'.getDevice addr = none := by
  refine ⟨⟨fun hrestores => ?_, fun hsmall buffer a b ha _ => ?_⟩, fun buffer a b ha hb => ?_⟩
  · by_contra hlarge
    obtain ⟨s, hs⟩ := Simulator.empty_loads (Nat.le_of_not_lt hlarge) e.reset.toSimulator
    obtain ⟨t, ht⟩ := Simulator.empty_loads (Nat.le_of_not_lt hlarge) (constructed N n).toSimulator
    have ha : e.reset.loadProgram [] = .ok (true, { e.reset with toSimulator := s }) := by
      unfold loadProgram
      rw [hs]
      rfl
    have hb : (constructed N n).loadProgram [] =
        .ok (true, { constructed N n with toSimulator := t }) := by
      unfold loadProgram
      rw [ht]
      rfl
    exact loaded_not_alike ha hb (hrestores [] _ _ ha hb [])
  · obtain ⟨s, hs, _⟩ := loadProgram_ok ha
    exact absurd (Simulator.loaded_reaches hs) (Nat.not_le_of_lt hsmall)
  · have hleft := reset_leftOver ha
    exact ⟨loaded_not_alike ha hb, hleft, constructed_regs hb, fun released a' addr hreached =>
      Simulator.getDevice_none (hreached.noDevices hleft.devices) addr⟩

/-- It prints an `A`. -/
def printing : FileBuffer := [0x100002B7, 0x04100313, 0x0062A023].flatMap (Simulator.fileBytes 4)

/-- Whether this program is loaded, the end of a run of it, and what the UART has printed
there. -/
def printed (e : Emulation 1 0x200000) :
    Option (Bool × Emulation 1 0x200000 × Option (List Byte)) :=
  (e.loadProgram printing).toOption.bind fun r => (r.2.run 3).toOption.map fun e' =>
    (r.1, e', (e'.getDevice Simulator.uartBase).map (·.output))

/-- The program is loaded and run, and then again after a reset. -/
theorem printed_once : (printed (constructed 1 0x200000)).bind (fun first =>
    (printed first.2.1.reset).map fun second =>
      (first.1, first.2.2, second.1, second.2.2)) = some (true, some [0x41], true, none) := by
  decide +kernel

theorem printed_eq {e e' : Emulation 1 0x200000} {loaded : Bool} {output : Option (List Byte)}
    (h : printed e = some (loaded, e', output)) : ∃ a, e.loadProgram printing = .ok (loaded, a) ∧
      a.run 3 = .ok e' ∧ (e'.getDevice Simulator.uartBase).map (·.output) = output := by
  obtain ⟨⟨loaded, a⟩, hload, hrest⟩ := Option.bind_eq_some_iff.mp h
  obtain ⟨e', hrun, heq⟩ := Option.map_eq_some_iff.mp hrest
  cases heq
  exact ⟨a, eq_ok_of_toOption hload, eq_ok_of_toOption hrun, rfl⟩

/-- The second run prints nothing. -/
theorem reset_loses_output : ∃ b released e, (constructed 1 0x200000).loadProgram printing =
    .ok (true, b) ∧ Reached b released e ∧ ¬ResetRestores e := by
  obtain ⟨⟨loaded, e, output⟩, hfirst, hrest⟩ := Option.bind_eq_some_iff.mp printed_once
  obtain ⟨⟨loaded', a', output'⟩, hsecond, heq⟩ := Option.map_eq_some_iff.mp hrest
  cases heq
  obtain ⟨b, hb, hrun, hprinted⟩ := printed_eq hfirst
  obtain ⟨a, ha, hrun', hnothing⟩ := printed_eq hsecond
  obtain ⟨released, hreached⟩ := runLoop_reached (Reached.start.count 0) hrun
  refine ⟨b, released, e, hb, hreached, fun hrestores => ?_⟩
  have halike := hrestores printing a b ha hb [.run 3]
  have hone : ∀ c : Emulation 1 0x200000, [Call.run 3].foldlM perform c = c.run 3 :=
    fun c => bind_pure (c.run 3)
  rw [hone, hone, hrun, hrun'] at halike
  have houtput := halike.output Simulator.uartBase
  rw [hprinted, hnothing] at houtput
  cases houtput

end Emulation
end RiscvEmulator.System
