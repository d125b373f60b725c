import RiscvEmulator.System.ProgramRun
import RiscvEmulator.System.Reset

/-! # ELF files are executed

A well-formed ELF file describes a machine: its segments in memory, zeros below the end
of the BSS, and every hart at its entry point with the default stack top. If that machine
is disciplined, loading the file and running the simulator is running the machine. -/
namespace RiscvEmulator.System
open Memory Cores Isa Lib.Fold

namespace FileBuffer
variable {N : Nat} {buffer : FileBuffer}

/-- Where the program starts: at `_start`, if the file has that symbol. -/
def entryPoint (buffer : FileBuffer) : Word :=
  match buffer.findSymbolStart buffer.ehdr startName with
  | .ok symbolStart => if symbolStart ≠ 0 then symbolStart else buffer.ehdr.entry
  | .error _ => buffer.ehdr.entry

/-- The file describes the machine. -/
structure Describes (buffer : FileBuffer) (m : Machine N) : Prop where
  segments : ∀ i x, buffer.Loads i → (buffer.phdr i).Contains x →
    m.memory x = (buffer.phdr i).byteAt buffer x
  cleared : ∀ x < Simulator.bssEnd, (∀ i, buffer.Loads i → ¬(buffer.phdr i).Contains x) →
    m.memory x = 0
  harts : ∀ i, m.harts i = ⟨Function.update (fun _ => 0) 2 0x100000, buffer.entryPoint⟩
  output : m.output = []

end FileBuffer

namespace Simulator
variable {N n : Nat} {buffer : FileBuffer} {s s' : Simulator N n}

/-! ## What a load leaves alone -/

theorem invalidateCaches_of_empty {ddr : DDRMemory} (h : s.hierarchy = Hierarchy.init N ddr) :
    s.invalidateCaches = s := by
  unfold invalidateCaches
  rw [h, Hierarchy.init_invalidateAll, ← h]

/-- What follows the writes sets the entry point and clears memory. -/
theorem finishLoad_of_empty {ddr : DDRMemory} (hempty : s.hierarchy = Hierarchy.init N ddr)
    {entryPoint maxLoadedAddr : Word} {b : Bool}
    (h : s.finishLoad entryPoint maxLoadedAddr = .ok (b, s')) :
    s' = { s.setEntryPoint entryPoint with memory := s'.memory } := by
  have hset : (s.setEntryPoint entryPoint).hierarchy = Hierarchy.init N ddr := by
    unfold setEntryPoint
    split <;> exact hempty
  unfold finishLoad at h
  simp only [invalidateCaches_of_empty hempty] at h
  split at h
  · unfold zeroFill at h
    split at h
    · obtain rfl := (Prod.mk.inj (Except.ok.inj h)).2
      exact invalidateCaches_of_empty hset
    · cases h
  · obtain rfl := (Prod.mk.inj (Except.ok.inj h)).2
    rfl

theorem setEntryPoint_cores (s : Simulator N n) (entryPoint : Word)
    (h0 : ∀ i, (s.cores i).pc = 0) :
    s.setEntryPoint entryPoint = { s with cores := fun i => (s.cores i).setPc entryPoint } := by
  unfold setEntryPoint
  split
  · rfl
  · next h =>
    have hentry : entryPoint = 0 := not_not.mp h
    have hcores : (fun i => (s.cores i).setPc entryPoint) = s.cores := by
      funext i
      unfold Core.setPc
      rw [hentry, ← h0 i]
    rw [hcores]

/-- A load of a well-formed file into a fresh simulator changes memory, DDR and the `pc`
of the cores. -/
theorem loadProgram_fresh {b : Bool} (hw : buffer.WellFormed n)
    (h : (init N n ⟨fun _ => 0⟩).loadProgram buffer = .ok (b, s')) :
    s' = { init N n s'.ddr with
      memory := s'.memory
      cores := fun i => (Core.init i.val 0).setPc buffer.entryPoint } := by
  have hsize := hw.header
  obtain ⟨v, hsymbol⟩ := hw.symbols
  have hentry : (if v ≠ 0 then v else buffer.ehdr.entry) = buffer.entryPoint := by
    unfold FileBuffer.entryPoint
    rw [hsymbol]
  unfold loadProgram loadElf at h
  rw [if_pos hw.isElf, if_neg (by omega), if_neg (not_not.mpr hw.class32)] at h
  obtain ⟨r, hload, h⟩ := bind_eq_ok h
  unfold storeElf at h
  rw [hsymbol] at h
  obtain ⟨w, hv, h⟩ := bind_eq_ok h
  obtain rfl : v = w := Except.ok.inj hv
  obtain ⟨m, hstore, h⟩ := bind_eq_ok h
  rw [hentry] at h
  have hempty : ((init N n ⟨fun _ => 0⟩).withImage m).hierarchy = Hierarchy.init N m.ddr := rfl
  have hframe := finishLoad_of_empty hempty h
  rw [setEntryPoint_cores _ _ fun _ => rfl] at hframe
  rw [hframe]
  rfl

end Simulator

/-! ## Execution -/

namespace Emulation
variable {N n : Nat} {L : Layout N n} {buffer : FileBuffer}

/-- The fresh simulator with a program loaded. -/
structure LoadedElf (buffer : FileBuffer) (s : Simulator N n) : Prop where
  frame : s = { Simulator.init N n s.ddr with
    memory := s.memory
    cores := fun i => (Core.init i.val 0).setPc buffer.entryPoint }
  holds : Simulator.ElfHolds buffer s
  loaded : Simulator.ElfLoaded buffer s

namespace LoadedElf
variable {s : Simulator N n}

theorem fresh (h : LoadedElf buffer s) : Fresh { constructed N n with toSimulator := s } := by
  refine ⟨fun i => ?_, fun i => ?_, fun i => ?_, ?_, rfl, rfl⟩
  all_goals
    show _ = _
    rw [h.frame]
    rfl

theorem cores (h : LoadedElf buffer s) (i : Fin N) :
    s.cores i = (Core.init i.val 0).setPc buffer.entryPoint := by
  rw [h.frame]

theorem describes (h : LoadedElf buffer s) : buffer.Describes s.machine := by
  refine ⟨h.loaded.memory, fun x hx => h.holds.cleared x (Simulator.leavesAlone_of_lt N hx),
    fun i => ?_, ?_⟩
  · show (s.cores i).isaState = _
    rw [h.cores i]
    rfl
  · unfold Simulator.machine
    rw [h.frame]
    rfl

/-- Outside of the image DDR and `memory` are both as they were in the fresh simulator. -/
theorem ddr_eq (h : LoadedElf buffer s) (hw : buffer.WellFormed n) {x : Nat}
    (hx : x < ddrSize) (halone : MultiCoreMonitor.LeavesAlone N x) :
    s.ddr.bytes x = s.memory.bytes x := by
  by_cases hin : ∃ i, buffer.Loads i ∧ (buffer.phdr i).Contains x
  · have hbyte := h.loaded.ddr x (.inr hin)
    have hddr : ddrSize = 0x40000000 := rfl
    rwa [Simulator.ddr_readByte s (by omega), if_pos hx] at hbyte
  · have hnone : ∀ i, buffer.Loads i → ¬(buffer.phdr i).Contains x := fun i hi hc =>
      hin ⟨i, hi, hc⟩
    rw [h.holds.cleared x halone hnone,
      h.holds.others x fun i hi hfile => hnone i hi (hw.contains hi hfile)]

theorem laidOut (h : LoadedElf buffer s) (hsize : n % 4 = 0 ∧ n ≤ 0x02000000)
    (hw : buffer.WellFormed n) (hphase : L.use 0x2600 ≠ .code) : s.LaidOut L s.ddr := by
  refine ⟨hsize, by rw [h.frame]; rfl, fun a hused hin => ?_, fun i => ?_, fun i => ?_,
    fun i => ?_, fun i => ?_, by rw [h.frame]; rfl⟩
  · have hlt := Layout.lt_of_used hused
    have hddr : ddrSize = 0x40000000 := rfl
    exact h.ddr_eq hw (by omega) (L.leavesAlone hphase hused hin)
  · rw [h.cores i]
    rfl
  · rw [h.cores i]
    exact masked_of_init rfl
  · rw [h.cores i]
    rfl
  · unfold Simulator.Untranslated
    rw [h.frame]
    rfl

end LoadedElf

/-- For a well-formed file whose image survives the load, and a layout in which all cores
share the block of the release word: if the machines that the file describes are
disciplined, the file is loaded into the fresh simulator, and both modes end where one of
these machines does. -/
theorem elf_runs (hN : 0 < N) (hsize : n % 4 = 0 ∧ n ≤ 0x02000000)
    (hbss : Simulator.bssEnd ≤ n) (hw : buffer.WellFormed n) (hs : Simulator.Survives n buffer)
    (hsignal : L.use 0x2600 = .shared)
    (hd : ∀ m : Machine N, buffer.Describes m → L.Disciplined m) :
    ∃ e : Emulation N n, (constructed N n).loadProgram buffer = .ok (true, e) ∧
      buffer.Describes e.machine ∧ ∀ cycles : Word, ∃ c r d,
        (Schedule.start e.machine).run cycles.toNat = some c ∧
        e.run cycles = .ok r ∧ e.debugRun cycles = .ok d ∧
        Shows L r.toSimulator c ∧ Shows L d.toSimulator c := by
  have hn : n < 2 ^ 32 := by
    have := hsize.2
    omega
  obtain ⟨s, hload, hholds⟩ := Simulator.loadProgram_holds (N := N) hn hbss hw hs.ends
  have h : LoadedElf buffer s := ⟨Simulator.loadProgram_fresh hw hload, hholds,
    Simulator.loaded_of_survives hw hn hbss hholds hs⟩
  refine ⟨{ constructed N n with toSimulator := s }, ?_, h.describes, fun cycles =>
    (h.fresh.scheduled (h.laidOut hsize hw (hsignal ▸ nofun)) (hd _ h.describes)).runs hN hsignal
      cycles⟩
  unfold loadProgram
  rw [show (constructed N n).toSimulator.loadProgram buffer = .ok (true, s) from hload]
  rfl

/-- The program that releases the cores, as a file. -/
def releaseElf : FileBuffer :=
  Simulator.elfFile 0 [{ type := ptLoad, offset := 84, paddr := 0, filesz := 20, memsz := 20 }]
    ((releaseProgram.map Instr.encode).flatMap (Simulator.fileBytes 4))

theorem releaseElf_loads {i : Nat} (hi : releaseElf.Loads i) : i = 0 := by
  have hlt : i < 1 := hi.1
  omega

theorem releaseElf_wellFormed : releaseElf.WellFormed 0x100000 where
  isElf := by decide +kernel
  header := by decide +kernel
  class32 := by decide +kernel
  table := by decide +kernel
  filesz_le i hi := by rw [releaseElf_loads hi]; decide +kernel
  inFile i hi := by rw [releaseElf_loads hi]; decide +kernel
  inMemory i hi := by rw [releaseElf_loads hi]; decide +kernel
  disjoint i k x hi hk _ _ := by rw [releaseElf_loads hi, releaseElf_loads hk]
  symbols := FileBuffer.start_returns (.inl (by decide +kernel))

theorem releaseElf_releasing {m : Machine 2} (h : releaseElf.Describes m) : Releasing m := by
  refine ⟨fun k => ?_, fun i => ⟨0, ?_, fun hne => absurd rfl hne⟩⟩
  · have hword : m.memory.word (4 * k.val) =
        Bytes.word ((releaseElf.phdr 0).byteAt releaseElf) (4 * k.val) := by
      refine (Bytes.word_eq_iff ..).mpr fun j hj => ?_
      have hpaddr : (releaseElf.phdr 0).paddr.toNat = 0 := by decide +kernel
      have hmemsz : (releaseElf.phdr 0).memsz.toNat = 20 := by decide +kernel
      refine h.segments 0 _ (by decide +kernel) ⟨?_, ?_⟩
      · omega
      · omega
    have hcode : ∀ k : Fin 5, Instr.decode (Bytes.word ((releaseElf.phdr 0).byteAt releaseElf)
        (4 * k.val)) = releaseProgram[k]? := by
      decide +kernel
    rw [hword]
    exact hcode k
  · rw [h.harts i]
    show releaseElf.entryPoint = 0
    decide +kernel

theorem elf_runs_releaseElf : ∃ e : Emulation 2 0x100000,
    (constructed 2 0x100000).loadProgram releaseElf = .ok (true, e) ∧
      releaseElf.Describes e.machine ∧ ∀ cycles : Word, ∃ c r d,
        (Schedule.start e.machine).run cycles.toNat = some c ∧
        e.run cycles = .ok r ∧ e.debugRun cycles = .ok d ∧
        Shows withRelease r.toSimulator c ∧ Shows withRelease d.toSimulator c := by
  refine elf_runs (by decide) (by decide) (by decide) releaseElf_wellFormed
    (Simulator.survives_of_aligned releaseElf_wellFormed (fun i hi => ?_) fun i hi => ?_)
    (by decide) fun m hm => (releaseElf_releasing hm).disciplined
  · rw [releaseElf_loads hi]
    decide +kernel
  · rw [releaseElf_loads hi]
    decide +kernel

end Emulation
end RiscvEmulator.System
