import RiscvEmulator.Memory.Remembered
import RiscvEmulator.System.WaitForInterrupt

/-! # Finish detection

A core is marked as finished when it comes to a jump to its own address. It does stay
there: what it has fetched once, translated address and word, it fetches again, whatever
the other cores store. Only an interrupt takes it away, and the test does not look for
any; or another translation, if at the mark there was none. -/
namespace RiscvEmulator.System
open Memory Cores Interrupt Lib.Fold

namespace Simulator
variable {N n : Nat} {s s₁ s' t u v : Simulator N n} {i j : Fin N} {pc instr : Word}

/-! ## The jump -/

/-- The offset of the test is 0 only if that of the instruction is. -/
theorem signExtend_zero_of_jump {imm : Word}
    (h : pc + (if imm &&& 0x100000 != 0 then imm ||| 0xffe00000 else imm) = pc) :
    signExtend imm 21 = 0 := by
  have hzero : (if imm &&& 0x100000 != 0 then imm ||| 0xffe00000 else imm) = 0 :=
    (BitVec.add_right_inj pc).mp (h.trans (BitVec.add_zero pc).symm)
  split at hzero
  · have hbit := congrArg (fun v : Word => v.getLsbD 31) hzero
    simp at hbit
  · rw [hzero]
    decide

/-- The test finds a JAL whose offset is 0. -/
theorem jumpsToItself_jal (h : jumpsToItself pc instr = true) :
    opcode instr = 0x6F ∧ pc + immJ instr = pc := by
  unfold jumpsToItself at h
  split at h
  · next hop =>
    have hoffset : immJ instr = 0 := signExtend_zero_of_jump (beq_iff_eq.mp h)
    refine ⟨?_, hoffset ▸ BitVec.add_zero pc⟩
    have hlow := congrArg BitVec.toNat (beq_iff_eq.mp hop)
    rw [BitVec.toNat_and, show (0x7f : Word).toNat = 2 ^ 7 - 1 from rfl,
      Nat.and_two_pow_sub_one_eq_mod] at hlow
    refine BitVec.eq_of_toNat_eq ?_
    simpa [opcode] using hlow
  · cases h

/-! ## Fetches that need no memory -/

/-- Core `i` gets `instr` at `addr` from its TLB, if there is a page table, and its
instruction cache. -/
def Cached (s : Simulator N n) (i : Fin N) (addr instr : Word) : Prop :=
  ∃ paddr, (s.mmus i).Knows addr paddr ∧
    (s.hierarchy.l1Icaches i).lines.held (wordOf paddr) = some instr

def Translates (s : Simulator N n) (i : Fin N) (addr : Word) : Prop :=
  ∃ paddr, (s.translate i addr false true).1 = .ok paddr

theorem Cached.of_eq {addr : Word} (h : s.Cached i addr instr) (hmmu : t.mmus i = s.mmus i)
    (hicache : t.hierarchy.l1Icaches i = s.hierarchy.l1Icaches i) : t.Cached i addr instr := by
  unfold Cached
  rw [hmmu, hicache]
  exact h

theorem translate_mmu (s : Simulator N n) (i : Fin N) (addr : Word) (w instruction : Bool) :
    (s.translate i addr w instruction).2.mmus i =
      ((s.mmus i).translateAddress s.memory.readWord addr w instruction).2 :=
  Function.update_self ..

/-- A fetch of an address that translates: a translation, then a read of the
instruction cache. -/
theorem fetch_parts {addr paddr : Word} (h : (s.translate i addr false true).1 = .ok paddr) :
    let read := (s.hierarchy.instructionCache i).read paddr i.val
    (s.fetch i addr).1 = read.2.1 ∧
      (s.fetch i addr).2.hierarchy.l1Icaches i = read.2.2.cache ∧
      (s.fetch i addr).2.mmus i =
        ((s.mmus i).translateAddress s.memory.readWord addr false true).2 := by
  have hpair : s.translate i addr false true = (.ok paddr, (s.translate i addr false true).2) :=
    Prod.ext h rfl
  unfold fetch cacheTranslate
  rw [hpair]
  exact ⟨rfl, Function.update_self .., Function.update_self ..⟩

/-- A cached instruction is fetched, and stays cached. -/
theorem Cached.fetch {addr : Word} (h : s.Cached i addr instr) :
    (s.fetch i addr).1 = instr ∧ (s.fetch i addr).2.Cached i addr instr := by
  obtain ⟨paddr, hknows, hheld⟩ := h
  obtain ⟨hok, hknows'⟩ := hknows.translate s.memory.readWord true
  have hline : (s.hierarchy.instructionCache i).cache.lines.held (wordOf paddr) = some instr :=
    hheld
  obtain ⟨hvalue, hlines⟩ := Level.read_of_held hline i.val
  obtain ⟨hfetched, hicache, hmmu⟩ := fetch_parts hok
  refine ⟨hfetched.trans hvalue, paddr, ?_, ?_⟩
  · rw [hmmu]
    exact hknows'
  · rw [hicache, hlines]
    exact hheld

/-- An instruction that has been fetched is cached. -/
theorem fetch_cached {addr : Word} (hcache : (s.hierarchy.l1Icaches i).Replaceable)
    (htlb : (s.mmus i).Replaceable) (h : s.Translates i addr) :
    (s.fetch i addr).2.Cached i addr (s.fetch i addr).1 := by
  obtain ⟨paddr, hok⟩ := h
  obtain ⟨hfetched, hicache, hmmu⟩ := fetch_parts hok
  have hclean : (s.hierarchy.instructionCache i).cache.Replaceable := hcache
  refine ⟨paddr, ?_, ?_⟩
  · rw [hmmu]
    exact MMU.knows_translated rfl htlb hok
  · rw [hicache, hfetched]
    exact Level.read_held hclean paddr i.val

/-- A fetch changes nothing about whether its address translates. -/
theorem fetch_translates {addr : Word} (h : (s.fetch i addr).2.Translates i addr) :
    s.Translates i addr := by
  have hmmu : (s.fetch i addr).2.mmus i =
      ((s.mmus i).translateAddress s.memory.readWord addr false true).2 := by
    rw [← s.translate_mmu]
    unfold fetch cacheTranslate
    rcases s.translate i addr false true with ⟨result, t⟩
    cases result <;> rfl
  have hmemory : (s.fetch i addr).2.memory = s.memory := (s.fetch_frame i addr).2.1
  obtain ⟨paddr, hok⟩ := h
  have hagain := @MMU.ask_again _ (s.mmus i) s.memory.readWord rfl ⟨addr, false, true⟩
    ⟨addr, false, true⟩ rfl (fun hkind => by cases hkind.1)
  refine ⟨paddr, ?_⟩
  unfold translate at hok ⊢
  rw [hmmu, hmemory] at hok
  exact hagain.symm.trans hok

/-! ## What the run keeps -/

/-- Core `j` always has something to give up, in its instruction cache and its TLB. -/
structure Replaceable (s : Simulator N n) (j : Fin N) : Prop where
  icache : (s.hierarchy.l1Icaches j).Replaceable
  mmu : (s.mmus j).Replaceable

theorem Replaceable.of_eq (h : s.Replaceable j) (hmmu : t.mmus j = s.mmus j)
    (hicache : t.hierarchy.l1Icaches j = s.hierarchy.l1Icaches j) : t.Replaceable j :=
  ⟨hicache ▸ h.icache, hmmu ▸ h.mmu⟩

theorem Replaceable.move (h : s.Replaceable j) (hmove : StepMove i s t) : t.Replaceable j := by
  by_cases hj : j = i
  · subst hj
    cases hmove with
    | access haccess =>
      cases haccess with
      | translate addr w instruction =>
        refine ⟨h.icache, ?_⟩
        rw [translate_mmu]
        exact h.mmu.translateAddress s.memory.readWord addr w instruction
      | fetch addr =>
        have hicache : (s.hierarchy.fetch j addr).2.l1Icaches j =
            ((s.hierarchy.instructionCache j).access addr j.val).2.2.cache :=
          Function.update_self ..
        have hclean : (s.hierarchy.instructionCache j).cache.Replaceable := h.icache
        refine ⟨?_, h.mmu⟩
        show ((s.hierarchy.fetch j addr).2.l1Icaches j).Replaceable
        rw [hicache]
        exact Level.access_replaceable hclean addr j.val
      | data lv => exact ⟨h.icache, h.mmu⟩
      | device p write _ => exact ⟨h.icache, h.mmu⟩
      | clint addr value _ => exact ⟨h.icache, h.mmu⟩
      | memory m _ => exact ⟨h.icache, h.mmu⟩
    | core c => exact ⟨h.icache, h.mmu⟩
    | flags flags => exact ⟨h.icache, h.mmu⟩
    | counters counters => exact ⟨h.icache, h.mmu⟩
    | base base =>
      have hmmu : Function.update s.mmus j ((s.mmus j).setPageTableBase base) j =
          (s.mmus j).setPageTableBase base := Function.update_self ..
      refine ⟨h.icache, ?_⟩
      show (Function.update s.mmus j ((s.mmus j).setPageTableBase base) j).Replaceable
      rw [hmmu]
      exact h.mmu
  · exact h.of_eq (hmove.aside.mmus j hj) (hmove.aside.icaches j hj)

theorem Replaceable.moves (h : s.Replaceable j) (hmoves : StepMoves i s t) : t.Replaceable j := by
  induction hmoves with
  | refl => exact h
  | tail _ hmove ih => exact ih.move hmove

/-- What holds of core `j` throughout a run: it does not wait, and it has something to
give up. -/
structure Tidy (s : Simulator N n) (j : Fin N) : Prop extends s.Replaceable j where
  awake : (s.cores j).isWaitingForInterrupt = false

theorem Tidy.rest (h : s.Tidy j) (hrest : s.LeftAlone j t) : t.Tidy j :=
  ⟨h.toReplaceable.of_eq hrest.mmu hrest.icache, hrest.waits.trans h.awake⟩

theorem checkInfiniteLoop_waits (s : Simulator N n) (i : Fin N) :
    ((s.checkInfiniteLoop i).cores i).isWaitingForInterrupt =
      (s.cores i).isWaitingForInterrupt := by
  have hfetch : (s.fetch i (s.cores i).pc).2.cores = s.cores := (s.fetch_fixed i _).cores
  unfold checkInfiniteLoop
  simp only
  split
  · rw [setCore_cores_self, hfetch]
  · rw [hfetch]

theorem turn_awake (h : (s.cores i).isWaitingForInterrupt = false)
    (hturn : s.executeCoreStep i = .ok t) : (t.cores i).isWaitingForInterrupt = false := by
  rcases executeCoreStep_cases hturn with ⟨_, rfl⟩ | ⟨u, hstep, rfl⟩
  · exact h
  · rw [checkInfiniteLoop_waits]
    refine step_awake ?_ hstep
    unfold marked
    rw [setCore_cores_self]
    exact h

theorem Tidy.turn (h : s.Tidy j) (hturn : s.executeCoreStep i = .ok t) : t.Tidy j := by
  by_cases hi : i = j
  · subst hi
    exact ⟨h.toReplaceable.moves (executeCoreStep_moves hturn), turn_awake h.awake hturn⟩
  · exact h.rest (Meanwhile.turn i hi hturn).leftAlone

end Simulator

namespace Emulation
variable {N n : Nat} {e e₀ e' : Emulation N n} {i : Fin N} {released signal : Bool}

theorem Cycle.tidy (h : Cycle e signal e') (htidy : e.Tidy i) : e'.Tidy i := by
  obtain ⟨s, hs, hrest⟩ := h.leftAlone i
  have hcores : s.Tidy i := foldlM_invariant (P := fun t : Simulator N n => t.Tidy i)
    (fun _ _ _ ht hturn => ht.turn hturn) hs htidy
  exact hcores.rest hrest

theorem Reached.tidy (h : Reached e₀ released e) (htidy : e₀.Tidy i) : e.Tidy i := by
  induction h with
  | start => exact htidy
  | count cycles _ ih => exact ih
  | cycle _ hcycle ih => exact hcycle.tidy ih

end Emulation

namespace Simulator
variable {N n : Nat} {s s₁ s' t u v : Simulator N n} {i j : Fin N} {pc instr : Word}

/-! ## The mark -/

/-- A turn that marks its core as finished ends with a fetch of a jump to itself. -/
theorem turn_marks (hturn : s.executeCoreStep i = .ok t)
    (hbefore : (s.cores i).hasFinished = false) (hafter : (t.cores i).hasFinished = true) :
    ∃ u, (s.marked i).step i = .ok u ∧ jumpsToItself (u.cores i).pc (u.fetchPc i).1 = true ∧
      t = (u.fetchPc i).2.setCore i { (u.fetchPc i).2.cores i with hasFinished := true } := by
  rcases executeCoreStep_cases hturn with ⟨_, rfl⟩ | ⟨u, hstep, hu⟩
  · rw [hbefore] at hafter
    cases hafter
  · unfold checkInfiniteLoop at hu
    simp only at hu
    split at hu
    · next hjump => exact ⟨u, hstep, hjump, hu⟩
    · -- no jump, and nothing else marks a core
      have hfetch : (u.fetch i (u.cores i).pc).2.cores = u.cores := (u.fetch_fixed i _).cores
      have hmarked : ((s.marked i).cores i).hasFinished = false := by
        unfold marked
        rw [setCore_cores_self]
        exact hbefore
      rw [hu, hfetch, (step_frame hstep).finished, hmarked] at hafter
      cases hafter

/-- Nothing takes core `i` away from where it is in `t`: an interrupt would go to the
same place if one was taken, and if nothing translates its `pc` in `t`, what it finds
there still is a jump to itself. -/
structure Undisturbed (t : Simulator N n) (i : Fin N) (u : Simulator N n) : Prop where
  interrupts : ((u.cores i).handleInterrupt (u.pendingLines i)).pc = (u.cores i).pc
  untranslated : ¬t.Translates i (t.cores i).pc →
    jumpsToItself (t.cores i).pc (u.fetch i (t.cores i).pc).1 = true

/-- Core `i` is where it was marked, with the jump at hand. -/
structure Parked (t : Simulator N n) (i : Fin N) (u : Simulator N n) : Prop where
  pc : (u.cores i).pc = (t.cores i).pc
  awake : (u.cores i).isWaitingForInterrupt = false
  cached : t.Translates i (t.cores i).pc → ∃ instr,
    jumpsToItself (t.cores i).pc instr = true ∧ u.Cached i (t.cores i).pc instr

theorem parked_of_marked (htidy : s.Tidy i) (hturn : s.executeCoreStep i = .ok t)
    (hbefore : (s.cores i).hasFinished = false) (hafter : (t.cores i).hasFinished = true) :
    Parked t i t := by
  obtain ⟨u, hstep, hjump, ht⟩ := turn_marks hturn hbefore hafter
  have hfixed := u.fetch_fixed i (u.cores i).pc
  have hcore : (u.fetchPc i).2.cores i = u.cores i := congrFun hfixed.cores i
  have hpc : (t.cores i).pc = (u.cores i).pc := by
    rw [ht, setCore_cores_self, hcore]
  refine ⟨rfl, turn_awake htidy.awake hturn, fun htranslates => ?_⟩
  have hmark : StepMoves i s (s.marked i) := (StepMoves.refl s i).core _
  have hu : u.Replaceable i := (htidy.toReplaceable.moves hmark).moves (step_moves hstep)
  rw [hpc] at htranslates ⊢
  refine ⟨(u.fetchPc i).1, hjump, ?_⟩
  have hcached := fetch_cached hu.icache hu.mmu (fetch_translates (s := u) (i := i) (by
    rw [ht] at htranslates
    exact htranslates))
  rw [ht]
  exact hcached

theorem Parked.rest (h : Parked t i u) (hrest : u.LeftAlone i v) : Parked t i v := by
  refine ⟨hrest.pc.trans h.pc, hrest.waits.trans h.awake, fun htranslates => ?_⟩
  obtain ⟨instr, hjump, hcached⟩ := h.cached htranslates
  exact ⟨instr, hjump, hcached.of_eq hrest.mmu hrest.icache⟩

/-- What comes before the fetch moves an awake core only to the handler of an interrupt. -/
theorem prepare_pc {b : Bool} (hawake : (s.cores i).isWaitingForInterrupt = false)
    (h : s.prepare i = .ok (b, s₁)) :
    (s₁.cores i).pc = ((s.cores i).handleInterrupt (s.pendingLines i)).pc := by
  have hcore : (s.handleInterrupt i).cores i = (s.cores i).handleInterrupt (s.pendingLines i) :=
    setCore_cores_self ..
  rcases prepare_cases h with ⟨_, rfl⟩ | ⟨u, hb, hgate⟩
  · rw [hcore]
  · have hu : (u.cores i).pc = ((s.handleInterrupt i).cores i).pc := by
      rcases boot_cases hb with ⟨_, rfl⟩ | ⟨_, rfl⟩
      · rfl
      · simp [Simulator.setCore]
    rw [leaveWait_of_awake ((boot_waits hb).trans ((s.handleInterrupt_waits i).trans hawake))]
      at hgate
    obtain rfl : u = s₁ := congrArg Prod.snd hgate
    rw [hu, hcore]

theorem SameButGate.fetch_eq (h : SameButGate i s t) (addr : Word) :
    (t.fetch i addr).1 = (s.fetch i addr).1 := by
  obtain ⟨c, flags, _, rfl⟩ := h
  have ht : ({ s.setCore i c with coreBootedFlags := flags } : Simulator N n).translate i addr
      false true = ((s.translate i addr false true).1,
        { (s.translate i addr false true).2.setCore i c with coreBootedFlags := flags }) := rfl
  unfold fetch cacheTranslate
  rw [ht]
  rcases s.translate i addr false true with ⟨result, u⟩
  cases result <;> rfl

theorem execute_jal (hop : opcode instr = 0x6F) (s : Simulator N n) (i : Fin N) :
    s.execute i instr = .ok (.done (s.setCore i ((s.cores i).jal instr))) := by
  unfold execute
  rw [hop]
  rfl

/-- What a parked core fetches. -/
theorem Parked.fetch (h : Parked t i u) (hquiet : t.Undisturbed i u) :
    jumpsToItself (t.cores i).pc (u.fetch i (t.cores i).pc).1 = true := by
  by_cases htranslates : t.Translates i (t.cores i).pc
  · obtain ⟨instr, hjump, hcached⟩ := h.cached htranslates
    rw [hcached.fetch.1]
    exact hjump
  · exact hquiet.untranslated htranslates

/-- A step of a parked core. -/
theorem Parked.step (h : Parked t i u) (hquiet : t.Undisturbed i u) (hstep : u.step i = .ok v) :
    Parked t i v := by
  rcases step_cases hstep with hp | ⟨u₁, instr, e, hf, he, rfl⟩
  · have hpc := (prepare_pc h.awake hp).trans (hquiet.interrupts.trans h.pc)
    refine ⟨hpc, (prepare_awake hp).1 h.awake, fun htranslates => ?_⟩
    obtain ⟨instr, hjump, hcached⟩ := h.cached htranslates
    obtain ⟨c, flags, _, rfl⟩ := SameButGate.prepare hp
    exact ⟨instr, hjump, hcached.of_eq rfl rfl⟩
  · have hpc := (prepare_pc h.awake hf.prepared).trans (hquiet.interrupts.trans h.pc)
    have hgate := SameButGate.prepare hf.prepared
    have hcores : (u₁.fetchPc i).2.cores = u₁.cores := (u₁.fetch_fixed i _).cores
    have hjump : jumpsToItself (t.cores i).pc instr = true := by
      have hfetched := hf.fetched
      unfold fetchPc at hfetched
      rw [hpc, hgate.fetch_eq] at hfetched
      rw [← hfetched]
      exact h.fetch hquiet
    obtain ⟨hop, htarget⟩ := jumpsToItself_jal hjump
    have hawake := hf.executed_waits he
    rw [execute_jal hop] at he
    obtain rfl := Except.ok.inj he
    obtain ⟨hretired, count, hcore⟩ :=
      retire_done (u₁.fetchPc i).2 i (((u₁.fetchPc i).2.cores i).jal instr)
    refine ⟨?_, hawake, fun htranslates => ?_⟩
    · rw [hcore, hcores]
      show (u₁.cores i).pc + immJ instr = _
      rw [hpc, htarget]
    · obtain ⟨instr', hjump', hcached⟩ := h.cached htranslates
      obtain ⟨c, flags, _, hgate⟩ := hgate
      have hcached₁ : u₁.Cached i (t.cores i).pc instr' := by
        rw [hgate]
        exact hcached.of_eq rfl rfl
      have hfetched := hcached₁.fetch.2
      rw [← hpc] at hfetched ⊢
      rw [hretired]
      exact ⟨instr', hpc ▸ hjump', hfetched.of_eq rfl rfl⟩

/-! ## Finish detection -/

/-- Wherever core `i` executes in what may come after `t`, its own steps being those of
`steps`, it does so at the `pc` it has in `t`. -/
def StaysAt (i : Fin N) (steps : Simulator N n → Prop) (t : Simulator N n) : Prop :=
  ∀ u u₁, Continues i steps t u → steps u → u.prepare i = .ok (true, u₁) →
    (u₁.cores i).pc = (t.cores i).pc

theorem Parked.continues (h : Parked t i t) (hcont : Continues i (t.Undisturbed i) t u) :
    Parked t i u :=
  hcont.invariant (fun _ _ hu hrest => hu.rest hrest)
    (fun _ _ hu hquiet hok => hu.step hquiet hok) h

end Simulator

namespace Emulation
variable {N n : Nat} {e e₀ : Emulation N n} {i : Fin N} {released : Bool} {s t : Simulator N n}

/-- A core that a turn of any run marks as finished stays where it is as long as its steps
are undisturbed; and a step at which it is still there and executes leaves it there
exactly if no interrupt moves it. -/
theorem finish_detection (h : Reached e₀ released e) (htidy : ∀ j, e₀.Tidy j)
    (hof : e.TurnOf i s) (hturn : s.executeCoreStep i = .ok t)
    (hbefore : (s.cores i).hasFinished = false) (hafter : (t.cores i).hasFinished = true) :
    t.StaysAt i (t.Undisturbed i) ∧
      ∀ u u₁, Simulator.Continues i (t.Undisturbed i) t u → u.prepare i = .ok (true, u₁) →
        ((u₁.cores i).pc = (t.cores i).pc ↔
          ((u.cores i).handleInterrupt (u.pendingLines i)).pc = (u.cores i).pc) := by
  have hs : s.Tidy i := hof.invariant (P := fun s : Simulator N n => s.Tidy i)
    (fun _ _ _ hs hturn => hs.turn hturn) (h.tidy (htidy i))
  have hparked := Simulator.parked_of_marked hs hturn hbefore hafter
  have hexec : ∀ u u₁, Simulator.Continues i (t.Undisturbed i) t u → u.prepare i = .ok (true, u₁) →
      ((u₁.cores i).pc = (t.cores i).pc ↔
        ((u.cores i).handleInterrupt (u.pendingLines i)).pc = (u.cores i).pc) := by
    intro u u₁ hcont hprep
    have hu := hparked.continues hcont
    rw [Simulator.prepare_pc hu.awake hprep, hu.pc]
  exact ⟨fun u u₁ hcont hquiet hprep => (hexec u u₁ hcont hprep).mpr hquiet.interrupts, hexec⟩

/-- The constructor, with any program in memory and DDR. -/
theorem start_tidy (N n : Nat) (ddr : DDRMemory) (memory : ByteMemory n) (j : Fin N) :
    (start N n ddr memory).Tidy j := by
  refine ⟨⟨Cache.init_replaceable l1Geometry N, ?_⟩, rfl⟩
  intro hnil
  cases hnil

/-- The program is a jump to itself. -/
theorem finish_detection_jump : ∃ t, (running [0x0000006F]).executeCoreStep 0 = .ok t ∧
    t.StaysAt 0 (t.Undisturbed 0) ∧
      ∀ u u₁, Simulator.Continues 0 (t.Undisturbed 0) t u → u.prepare 0 = .ok (true, u₁) →
        ((u₁.cores 0).pc = (t.cores 0).pc ↔
          ((u.cores 0).handleInterrupt (u.pendingLines 0)).pc = (u.cores 0).pc) := by
  have hmarks : ((running [0x0000006F]).executeCoreStep 0).toOption.map
      (fun t => (t.cores 0).hasFinished) = some true := by decide +kernel
  obtain ⟨t, ht, hafter⟩ := Option.map_eq_some_iff.mp hmarks
  have hturn := eq_ok_of_toOption ht
  exact ⟨t, hturn, finish_detection .start (fun j => start_tidy ..) ⟨[], [], rfl, rfl⟩ hturn rfl
    hafter⟩

/-- The core raises its software interrupt, then enables interrupts; the next word is
a jump to itself. -/
def interruptedProgram : List Word :=
  [0x02000137, 0x00800093, 0x00112023, 0x3000A073, 0x0000006F]

theorem interruptedProgram_run : ((running interruptedProgram).run 3).toOption.bind (fun e =>
    (e.executeCoreStep 0).toOption.bind fun t => (t.prepare 0).toOption.map fun r =>
      ((e.cores 0).hasFinished, (t.cores 0).hasFinished, (t.cores 0).pc, r.1, (r.2.cores 0).pc)) =
    some (false, true, 16, true, 0) := by
  decide +kernel

/-- The core is marked with the interrupt pending, and its next step is in the handler. -/
theorem finished_core_leaves : ∃ released e t, Reached (running interruptedProgram) released e ∧
    e.TurnOf 0 e.toSimulator ∧ e.executeCoreStep 0 = .ok t ∧ (e.cores 0).hasFinished = false ∧
      (t.cores 0).hasFinished = true ∧ ¬t.StaysAt 0 fun _ => True := by
  obtain ⟨e, he, hrest⟩ := Option.bind_eq_some_iff.mp interruptedProgram_run
  obtain ⟨t, ht, hrest⟩ := Option.bind_eq_some_iff.mp hrest
  obtain ⟨⟨executing, u⟩, hu, hfacts⟩ := Option.map_eq_some_iff.mp hrest
  simp only [Prod.mk.injEq] at hfacts
  obtain ⟨hbefore, hafter, hpc, rfl, hmoved⟩ := hfacts
  obtain ⟨released, hreached⟩ := runLoop_reached (Reached.start.count 0) (eq_ok_of_toOption he)
  refine ⟨released, e, t, hreached, ⟨[], [], rfl, rfl⟩, eq_ok_of_toOption ht, hbefore, hafter,
    fun hstays => ?_⟩
  have hthere := hstays t u .start trivial (eq_ok_of_toOption hu)
  rw [hmoved, hpc] at hthere
  cases hthere

end Emulation
end RiscvEmulator.System
