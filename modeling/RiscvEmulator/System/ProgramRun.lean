import RiscvEmulator.System.FinishDetection
import RiscvEmulator.System.SequentialConsistency

/-! # Disciplined programs from the constructor on

`run` and `debug_run` of a disciplined program, as a schedule of the machine of the
specification: in each cycle the harts step in the order of their numbers, but for
those that have come to a jump to themselves, and for those that wait for the word at
`0x98000`. The modes part only where such a program cannot look. -/
namespace RiscvEmulator.System
open Memory Cores Isa

/-! ## The schedule -/

/-- A jump to its own address. -/
def selfJump : Instr → Bool
  | .compute (.jal _ offset) => offset = 0
  | _ => false

/-- The machine, with what decides which of its harts step. -/
structure Schedule (N : Nat) where
  machine : Machine N
  finished : Fin N → Bool
  released : Bool

namespace Schedule
variable {N : Nat} {c c' : Schedule N} {i : Fin N}

def start (m : Machine N) : Schedule N := ⟨m, fun _ => false, false⟩

/-- Whether hart `i` steps in a cycle. -/
def steps (c : Schedule N) (i : Fin N) : Bool := !c.finished i && (i.val == 0 || c.released)

def turn (c : Schedule N) (i : Fin N) : Option (Schedule N) :=
  if c.steps i then do
    let m ← c.machine.step i
    let instr ← m.fetched i
    return { c with
      machine := m
      finished := Function.update c.finished i (selfJump instr) }
  else some c

/-- The harts that step, and a look at the release word. -/
def cycle (c : Schedule N) : Option (Schedule N) := do
  let c ← (List.finRange N).foldlM turn c
  return { c with
    released := c.released || c.machine.memory.word Simulator.releaseSignalAddr == 0xDEADBEEF }

def allFinished (c : Schedule N) : Bool := (List.finRange N).all c.finished

theorem turn_released (h : c.turn i = some c') : c'.released = c.released := by
  unfold turn at h
  split at h
  · obtain ⟨m, _, h⟩ := Option.bind_eq_some_iff.mp h
    obtain ⟨instr, _, h⟩ := Option.bind_eq_some_iff.mp h
    obtain rfl := Option.some.inj h
    rfl
  · obtain rfl := Option.some.inj h
    rfl

theorem turns_released {order : List (Fin N)} (h : order.foldlM turn c = some c') :
    c'.released = c.released := by
  induction order generalizing c with
  | nil =>
    obtain rfl := Option.some.inj h
    rfl
  | cons i order ih =>
    rw [List.foldlM_cons] at h
    obtain ⟨c₁, hc₁, h⟩ := Option.bind_eq_some_iff.mp h
    exact (ih h).trans (turn_released hc₁)

/-- So many cycles, or until all harts have finished. -/
def run (c : Schedule N) : Nat → Option (Schedule N)
  | 0 => some c
  | cycles + 1 => if c.allFinished then some c else do (← c.cycle).run cycles

/-- When all harts have finished, nothing is left to run. -/
theorem run_of_allFinished (h : c.allFinished = true) (cycles : Nat) : c.run cycles = some c := by
  cases cycles with
  | zero => rfl
  | succ cycles =>
    unfold run
    rw [if_pos h]

theorem run_succ (h : c.allFinished = false) (cycles : Nat) :
    c.run (cycles + 1) = c.cycle.bind (·.run cycles) := by
  rw [run, if_neg (by rw [h]; exact Bool.false_ne_true)]
  rfl

theorem not_allFinished_start (hN : 0 < N) (m : Machine N) : (start m).allFinished = false := by
  rw [Bool.eq_false_iff]
  intro h
  have := List.all_eq_true.mp h ⟨0, hN⟩ (List.mem_finRange _)
  cases this

end Schedule

/-! ## The test for a jump to itself -/

theorem decode_jal {w : Word} (h : opcode w = 0x6F) :
    ∃ rd, Instr.decode w = some (.compute (.jal rd (jOffset w))) := by
  have hop : w.extractLsb' 0 7 = 0x6F := by
    simpa [opcode] using h
  unfold Instr.decode
  rw [hop]
  exact ⟨_, rfl⟩

theorem jump_zero (rd : Isa.Reg) (pc : Word) :
    Simulator.jumpsToItself pc (Rv32i.encode (.jal rd 0)) = true := by
  have himm : ∀ rd : Isa.Reg, Simulator.jumpsToItself 0 (Rv32i.encode (.jal rd 0)) = true := by
    decide
  have h := himm rd
  unfold Simulator.jumpsToItself at h ⊢
  split at h
  · next hop =>
    rw [if_pos hop]
    have hoffset := (BitVec.zero_add _).symm.trans (beq_iff_eq.mp h)
    exact beq_iff_eq.mpr ((congrArg (pc + ·) hoffset).trans (BitVec.add_zero pc))
  · cases h

/-- What the simulator looks at is whether the instruction is a jump to itself. -/
theorem jumpsToItself_encode (pc : Word) (instr : Instr) :
    Simulator.jumpsToItself pc instr.encode = selfJump instr := by
  rw [Bool.eq_iff_iff]
  constructor
  · intro h
    obtain ⟨hop, htarget⟩ := Simulator.jumpsToItself_jal h
    obtain ⟨rd, hdecode⟩ := decode_jal hop
    rw [Instr.decode_encode] at hdecode
    generalize jOffset instr.encode = offset at hdecode
    obtain rfl := Option.some.inj hdecode
    have hzero : (offset.concat false).signExtend 32 = 0 := by
      rw [← immJ_jType rd 0x6F offset]
      exact (BitVec.add_right_inj pc).mp (htarget.trans (BitVec.add_zero pc).symm)
    have hoffset : offset = 0 := by
      refine BitVec.eq_of_getLsbD_eq fun j hj => ?_
      have hbit := congrArg (fun v : Word => v.getLsbD (j + 1)) hzero
      have hwide : j + 1 < 32 := by omega
      have hin : j + 1 < 21 := by omega
      simpa [BitVec.getElem_signExtend, BitVec.getElem_concat, hwide, hin, hj] using hbit
    unfold selfJump
    simp [hoffset]
  · intro h
    unfold selfJump at h
    split at h
    · next rd offset =>
      rw [of_decide_eq_true h]
      exact jump_zero rd pc
    · cases h

/-! ## Beside the steps -/

namespace Simulator
variable {N n : Nat} {L : Layout N n} {S : Space L} {s t : Simulator N n} {m : Machine N}
  {i : Fin N}

namespace Represents

/-- It takes no more than this. -/
theorem congr (h : Represents S s m) (hhierarchy : t.hierarchy = s.hierarchy)
    (hmemory : ∀ x : WordAddr, L.use (x.toNat / 16) ≠ .unused →
      Bytes.word t.memory.bytes (4 * (S.place x).toNat) =
        Bytes.word s.memory.bytes (4 * (S.place x).toNat))
    (htranslates : S.Translates t) (hdevices : t.devices = s.devices)
    (hcores : ∀ i, ∃ booted finished,
      t.cores i = { s.cores i with hasBooted := booted, hasFinished := finished }) :
    Represents S t m := by
  obtain ⟨f, hw⟩ := h.words
  refine ⟨h.size, ⟨f, ?_, hw.cached, ?_⟩, ?_, h.zero, ?_, ?_, htranslates, ?_⟩
  · rw [hhierarchy]
    exact hw.owned
  · intro x hx hc
    rw [hmemory x hx]
    exact hw.memory x hx hc
  · intro i
    obtain ⟨booted, finished, hi⟩ := hcores i
    rw [hi]
    exact h.harts i
  · intro i
    obtain ⟨booted, finished, hi⟩ := hcores i
    refine (h.masked i).of_mstatus ?_
    rw [hi]
  · intro i
    obtain ⟨booted, finished, hi⟩ := hcores i
    rw [hi]
    exact h.awake i
  · rw [hdevices]
    exact h.sent

theorem setCore (h : Represents S s m) (i : Fin N) (booted finished : Bool) :
    Represents S (s.setCore i { s.cores i with hasBooted := booted, hasFinished := finished })
      m := by
  refine h.congr rfl (fun _ _ => rfl) (h.translates.of_eq rfl rfl) rfl fun j => ?_
  by_cases hj : j = i
  · subst hj
    exact ⟨booted, finished, setCore_cores_self ..⟩
  · exact ⟨_, _, setCore_cores_other _ _ _ hj⟩

/-- The look for a jump to itself. -/
theorem checkInfiniteLoop (h : Represents S s m) (hmay : L.MayFetch (m.harts i).pc)
    {instr : Instr} (hfetched : m.fetched i = some instr) :
    Represents S (s.checkInfiniteLoop i) m ∧
      ((s.checkInfiniteLoop i).cores i).hasFinished =
        (selfJump instr || (s.cores i).hasFinished) := by
  have hword : instr.encode = m.memory.word (m.harts i).pc.toNat :=
    Instr.encode_of_decode hfetched
  rw [← h.pc i] at hmay hword
  obtain ⟨mmus, hfetch, ht⟩ := h.fetch_eq i hmay
  rw [← hword] at hfetch
  obtain ⟨f, hw⟩ := h.words
  have hafter : Represents S
      { s with mmus := mmus, hierarchy := (s.hierarchy.fetch i (S.phys (s.cores i).pc)).2 } m :=
    ⟨h.size, ⟨f, hw.fetch i _⟩, h.harts, h.zero, h.masked, h.awake, ht, h.sent⟩
  unfold Simulator.checkInfiniteLoop
  simp only [hfetch, jumpsToItself_encode]
  split
  · next hjump =>
    refine ⟨hafter.setCore i _ true, ?_⟩
    rw [setCore_cores_self, hjump]
    rfl
  · next hjump =>
    refine ⟨hafter, ?_⟩
    rw [Bool.eq_false_of_not_eq_true hjump]
    rfl

/-- The end of a cycle. -/
theorem endMove {hn : n ≤ 0x02000000} (h : Represents (.plain L hn) s m) (hmove : EndMove s t) :
    Represents (.plain L hn) t m := by
  have htables : ∀ a, (Space.plain L hn).tables a →
      t.memory.readWord a = s.memory.readWord a := fun _ hnone => hnone.elim
  cases hmove with
  | tick =>
    exact h.congr rfl (fun _ _ => rfl) (h.translates.of_eq rfl rfl) rfl fun i => ⟨_, _, rfl⟩
  | releaseAllCores =>
    refine h.congr rfl (fun _ _ => rfl) (h.translates.of_eq rfl rfl) rfl fun i => ?_
    by_cases hi : i.val = 0
    · exact ⟨_, _, if_pos hi⟩
    · exact ⟨true, (s.cores i).hasFinished, if_neg hi⟩
  | releaseCores =>
    refine h.congr rfl (fun x hx => ?_) (h.translates.congr rfl htables) rfl fun i =>
      ⟨_, _, rfl⟩
    rw [Space.plain_place]
    refine (Bytes.word_eq_iff ..).mpr fun k hk => ?_
    have hstates := L.states _ hx
    show (if _ then _ else _ : ByteMemory n).bytes _ = _
    split
    · refine MultiCoreMonitor.writeCoreStates_outside _ _ _ ?_
      unfold MultiCoreMonitor.OutsideStates MultiCoreMonitor.coreStatesAddr
      omega
    · rfl

theorem endMoves {hn : n ≤ 0x02000000} (h : Represents (.plain L hn) s m)
    (hmoves : Relation.ReflTransGen EndMove s t) : Represents (.plain L hn) t m := by
  induction hmoves with
  | refl => exact h
  | tail _ hmove ih => exact ih.endMove hmove

end Represents

/-! ## Turns -/

/-- The simulator is where the schedule is, and its cores take turns as the harts. -/
structure Scheduled (L : Layout N n) (s : Simulator N n) (c : Schedule N) : Prop where
  size : n ≤ 0x02000000
  represents : Represents (.plain L size) s c.machine
  disciplined : L.Disciplined c.machine
  finished : ∀ i, (s.cores i).hasFinished = c.finished i
  first : ∀ i, i.val = 0 → s.multiCoreMonitor.shouldCoreExecute i = true
  held : c.released = false → ∀ i, i.val ≠ 0 → s.Held i
  free : c.released = true → ∀ i, i.val ≠ 0 → s.Executable i

namespace Scheduled
variable {c c' : Schedule N} {s' : Simulator N n}

theorem entersStep (h : Scheduled L s c) (i : Fin N) : s.entersStep i = c.steps i := by
  by_cases hi : i.val = 0
  · unfold Simulator.entersStep Schedule.steps
    simp [h.finished i, hi]
  · cases hr : c.released with
    | false =>
      rw [(h.held hr i hi).entersStep hi]
      unfold Schedule.steps
      simp [hi, hr]
    | true =>
      unfold Simulator.entersStep Schedule.steps
      simp [h.finished i, (h.free hr i hi).booted, hr]

/-- A core whose hart steps gets past every gate. -/
theorem marked_running (h : Scheduled L s c) (hsteps : c.steps i = true) :
    (s.marked i).Running i := by
  have hcore : (s.marked i).cores i = { s.cores i with hasBooted := true } := setCore_cores_self ..
  refine ⟨?_, by rw [hcore], by rw [hcore]; exact h.represents.awake i⟩
  show s.multiCoreMonitor.shouldCoreExecute i = true
  by_cases hi : i.val = 0
  · exact h.first i hi
  · refine (h.free ?_ i hi).released
    unfold Schedule.steps at hsteps
    simpa [hi] using (Bool.and_eq_true_iff.mp hsteps).2

/-- What a turn leaves to be shown. -/
theorem of_turn (h : Scheduled L s c) (hturn : s.executeCoreStep i = .ok s')
    (hrel : Represents (.plain L h.size) s' c'.machine) (hdis : L.Disciplined c'.machine)
    (hreleased : c'.released = c.released) (hself : (s'.cores i).hasFinished = c'.finished i)
    (hothers : ∀ j, j ≠ i → c'.finished j = c.finished j) : Scheduled L s' c' := by
  have hframe := executeCoreStep_frame hturn
  refine ⟨h.size, hrel, hdis, fun j => ?_, fun j hj => ?_, fun hr j hj => ?_,
    fun hr j hj => ?_⟩
  · by_cases hj : j = i
    · rw [hj]
      exact hself
    · rw [hframe.others j hj, h.finished j, hothers j hj]
  · rw [hframe.monitor]
    exact h.first j hj
  · exact (h.held (hreleased ▸ hr) j hj).turn hj hturn
  · exact (h.free (hreleased ▸ hr) j hj).turn hturn

/-- The turn of a core is the turn of its hart. -/
theorem turn (h : Scheduled L s c) (i : Fin N) :
    ∃ s' c', s.executeCoreStep i = .ok s' ∧ c.turn i = some c' ∧ Scheduled L s' c' := by
  have henter := h.entersStep i
  unfold Schedule.turn
  cases hsteps : c.steps i with
  | false =>
    rw [hsteps] at henter
    exact ⟨s, c, executeCoreStep_skips henter, rfl, h⟩
  | true =>
    rw [hsteps] at henter
    have hmarked : Represents (.plain L h.size) (s.marked i) c.machine :=
      h.represents.setCore i true _
    obtain ⟨t, m', ht, hm', hrel⟩ :=
      hmarked.step (h.marked_running hsteps) (h.disciplined.follows i)
    have hdis := h.disciplined.step hm'
    obtain ⟨hfetch, instr, hfetched, _⟩ := hdis.follows i
    obtain ⟨hchecked, hmark⟩ := hrel.checkInfiniteLoop hfetch hfetched
    have hturn : s.executeCoreStep i = .ok (t.checkInfiniteLoop i) := by
      rw [executeCoreStep_enters henter, ht]
      rfl
    have hbefore : (t.cores i).hasFinished = false := by
      have hcore : (s.marked i).cores i = { s.cores i with hasBooted := true } :=
        setCore_cores_self ..
      rw [(step_frame ht).finished, hcore]
      unfold Schedule.steps at hsteps
      simpa [h.finished i] using (Bool.and_eq_true_iff.mp hsteps).1
    rw [hbefore, Bool.or_false] at hmark
    rw [if_pos rfl, hm']
    simp only [Option.bind_eq_bind, Option.bind_some, hfetched]
    refine ⟨_, _, hturn, rfl, h.of_turn hturn hchecked hdis rfl ?_ fun j hj => ?_⟩
    · show _ = Function.update c.finished i (selfJump instr) i
      rw [hmark, Function.update_self]
    · exact Function.update_of_ne hj ..

/-- And so a turn of each. -/
theorem coresStep (h : Scheduled L s c) : ∃ s' c', s.coresStep = .ok s' ∧
    (List.finRange N).foldlM Schedule.turn c = some c' ∧ Scheduled L s' c' := by
  unfold Simulator.coresStep
  generalize List.finRange N = order
  induction order generalizing s c with
  | nil => exact ⟨s, c, rfl, rfl, h⟩
  | cons i order ih =>
    obtain ⟨s₁, c₁, hs₁, hc₁, h₁⟩ := h.turn i
    obtain ⟨s', c', hs', hc', h'⟩ := ih h₁
    refine ⟨s', c', ?_, ?_, h'⟩
    · rw [List.foldlM_cons, hs₁]
      exact hs'
    · rw [List.foldlM_cons, hc₁]
      exact hc'

theorem allCoresFinished (h : Scheduled L s c) : s.allCoresFinished = c.allFinished :=
  congrArg (List.finRange N).all (funext h.finished)

/-- The release word, if all cores may use it. -/
theorem releaseSignal (h : Scheduled L s c) (hsignal : L.use 0x2600 = .shared) :
    s.releaseSignal = (c.machine.memory.word releaseSignalAddr == 0xDEADBEEF) := by
  obtain ⟨f, hw⟩ := h.represents.words
  have hx : ((0x26000 : WordAddr).toNat / 16) = 0x2600 := rfl
  have hused : L.use ((0x26000 : WordAddr).toNat / 16) ≠ .unused := by
    rw [hx, hsignal]
    simp
  have hc : hasDataCache (byteAddr 0x26000) = false := L.shared _ hsignal
  have hword := hw.memory 0x26000 hused hc
  rw [Space.plain_place] at hword
  have hinside := L.inside _ hused
  unfold Simulator.releaseSignal
  have hfits : releaseSignalAddr + 4 ≤ n := by
    unfold releaseSignalAddr
    omega
  rw [decide_eq_true hfits, load32_eq_word, Bool.true_and]
  exact congrArg (· == (0xDEADBEEF : Word)) hword

end Scheduled
end Simulator

/-! ## Cycles -/

namespace Emulation
variable {N n : Nat} {L : Layout N n} {e e' : Emulation N n} {c c' : Schedule N} {signal : Bool}

/-- The simulator is where the schedule is, and has made the release if the schedule
has. -/
structure Scheduled (L : Layout N n) (e : Emulation N n) (c : Schedule N) : Prop extends
    Simulator.Scheduled L e.toSimulator c where
  called : e.releaseAllCoresCalled = c.released
  notProcessed : c.released = false → e.releaseProcessed = false

/-- The release frees the cores, and changes nothing else that counts. -/
theorem Scheduled.released {s : Simulator N n} (h : s.Scheduled L c) (hr : c.released = false)
    (hrel : Simulator.Represents (.plain L h.size) e'.toSimulator c.machine)
    (hcores : e'.cores = s.releaseAllCores.cores)
    (hflags : e'.coreBootedFlags = s.releaseAllCores.coreBootedFlags)
    (hmonitor : e'.multiCoreMonitor = s.releaseCores.multiCoreMonitor)
    (hcalled : e'.releaseAllCoresCalled = true) :
    e'.Scheduled L { c with released := true } := by
  refine ⟨⟨h.size, hrel, h.disciplined, fun i => ?_, fun i hi => ?_, nofun, fun _ i hi => ?_⟩,
    hcalled, nofun⟩
  · rw [hcores]
    show (if _ then _ else _ : Cores.Core).hasFinished = c.finished i
    split
    · exact h.finished i
    · exact h.finished i
  · have hstate : e'.multiCoreMonitor.coreStates i = s.multiCoreMonitor.coreStates i := by
      rw [hmonitor]
      exact if_neg fun hne => hne.1 hi
    have hfirst := h.first i hi
    unfold MultiCoreMonitor.shouldCoreExecute at hfirst ⊢
    rw [hstate]
    exact hfirst
  · exact ((h.held hr i hi).released hi hcores hflags hmonitor).1

/-- A cycle of either mode is a cycle of the schedule. -/
theorem Scheduled.cycle (h : e.Scheduled L c) (hsignal : L.use 0x2600 = .shared)
    (hcycle : Cycle e signal e') : ∃ c', c.cycle = some c' ∧ e'.Scheduled L c' := by
  obtain ⟨s, hs, -, hsettled⟩ := hcycle.settled
  obtain ⟨u, hu, hmoves⟩ := hcycle.ends
  obtain rfl : s = u := Except.ok.inj (hs.symm.trans hu)
  obtain ⟨t, c₁, ht, hc₁, h₁⟩ := h.toScheduled.coresStep
  obtain rfl : s = t := Except.ok.inj (hs.symm.trans ht)
  have hreleased := Schedule.turns_released hc₁
  have hword := h₁.releaseSignal hsignal
  have hrel := h₁.represents.endMoves hmoves
  have hcalled := h.called.trans hreleased.symm
  have hprocessed : c₁.released = false → e.releaseProcessed = false := fun hr =>
    h.notProcessed (hreleased.symm.trans hr)
  unfold Schedule.cycle
  rw [hc₁]
  refine ⟨_, rfl, ?_⟩
  rw [← hword]
  by_cases hkept : c₁.released = true ∨ s.releaseSignal = false
  · obtain ⟨hcores, hflags, hmonitor, hcall, hproc⟩ := hsettled.kept (hkept.imp_left hcalled.trans)
    have hsame : (c₁.released || s.releaseSignal) = c₁.released := by
      rcases hkept with hr | hnone
      · rw [hr]
        rfl
      · rw [hnone, Bool.or_false]
    rw [hsame]
    refine ⟨⟨h₁.size, hrel, h₁.disciplined, fun i => ?_, fun i hi => ?_, fun hr i hi => ?_,
      fun hr i hi => ?_⟩, hcall.trans hcalled, fun hr => hproc.trans (hprocessed hr)⟩
    · rw [hcores]
      exact h₁.finished i
    · rw [hmonitor]
      exact h₁.first i hi
    · obtain ⟨hb, hf, hflag, hhalt⟩ := h₁.held hr i hi
      exact ⟨by rw [hcores, hb], by rw [hcores, hf], by rw [hflags, hflag], by rw [hmonitor, hhalt]⟩
    · obtain ⟨hb, hflag, hexec⟩ := h₁.free hr i hi
      exact ⟨by rw [hcores, hb], by rw [hflags, hflag], by rw [hmonitor, hexec]⟩
  · obtain ⟨hr, hmagic⟩ := not_or.mp hkept
    rw [Bool.not_eq_true] at hr
    rw [Bool.not_eq_false] at hmagic
    obtain ⟨hcores, hflags, hmonitor, hcall⟩ :=
      hsettled.released (hcalled.trans hr) hmagic (hprocessed hr)
    rw [hr, hmagic]
    exact Scheduled.released h₁ hr hrel hcores hflags hmonitor hcall

/-! ## Both modes -/

theorem Scheduled.runLoop (h : e.Scheduled L c) (hsignal : L.use 0x2600 = .shared)
    (hgoes : c.allFinished = false) (currentCycle cycles : Nat) :
    ∃ e' c', e.runLoop currentCycle cycles = .ok e' ∧ c.run cycles = some c' ∧
      e'.Scheduled L c' := by
  induction cycles generalizing e c currentCycle with
  | zero => exact ⟨e, c, rfl, rfl, h⟩
  | succ cycles ih =>
    obtain ⟨s, _, hs, -, -⟩ := h.toScheduled.coresStep
    obtain ⟨c₁, hc₁, h₁⟩ := h.cycle hsignal (.run currentCycle hs)
    rw [runLoop_succ, hs, Schedule.run_succ hgoes, hc₁]
    simp only [Option.bind_some]
    show ∃ e' c', (if (e.endRunCycle currentCycle s).allCoresFinished then _ else _) = _ ∧ _
    rw [h₁.allCoresFinished]
    cases hall : c₁.allFinished with
    | true => exact ⟨_, c₁, rfl, Schedule.run_of_allFinished hall cycles, h₁⟩
    | false => exact ih h₁ hall (currentCycle + 1)

theorem Scheduled.debugLoop (h : e.Scheduled L c) (hsignal : L.use 0x2600 = .shared)
    (steps : Nat) :
    ∃ e' c', e.debugLoop steps = .ok e' ∧ c.run steps = some c' ∧ e'.Scheduled L c' := by
  induction steps generalizing e c with
  | zero => exact ⟨e, c, rfl, rfl, h⟩
  | succ steps ih =>
    rw [debugLoop_succ, h.allCoresFinished]
    cases hall : c.allFinished with
    | true => exact ⟨e, c, rfl, Schedule.run_of_allFinished hall _, h⟩
    | false =>
      obtain ⟨s, _, hs, -, -⟩ := h.toScheduled.coresStep
      obtain ⟨c₁, hc₁, h₁⟩ := h.cycle hsignal (.debug hs)
      obtain ⟨e', c', he', hc', h'⟩ := ih h₁
      refine ⟨e', c', ?_, ?_, h'⟩
      · rw [hs]
        exact he'
      · rw [Schedule.run_succ hall, hc₁]
        exact hc'

/-- What a user gets to see of the schedule. -/
structure Shows (L : Layout N n) (s : Simulator N n) (c : Schedule N) : Prop where
  harts : ∀ i, (s.cores i).isaState = c.machine.harts i
  finished : ∀ i, (s.cores i).hasFinished = c.finished i
  output : s.machine.output = c.machine.output
  words : ∀ i addr, L.MayLoad i addr 4 → s.ramWord i addr = c.machine.memory.word addr.toNat

theorem Scheduled.shows (h : e.Scheduled L c) : Shows L e.toSimulator c :=
  ⟨h.represents.harts, h.finished, h.represents.output, fun _ _ hmay =>
    h.represents.ramWord hmay⟩

theorem Fresh.scheduled {ddr : DDRMemory} (hfresh : Fresh e) (hs : e.LaidOut L ddr)
    (hd : L.Disciplined e.machine) : e.Scheduled L (Schedule.start e.machine) := by
  refine ⟨⟨hs.size.2, hs.represents, hd, hfresh.notFinished, fun i hi => ?_, fun _ i hi => ?_,
    nofun⟩, hfresh.notCalled, fun _ => hfresh.notProcessed⟩
  · unfold MultiCoreMonitor.shouldCoreExecute
    rw [hfresh.monitor]
    have hstate : (MultiCoreMonitor.init N).coreStates i = .running := if_pos hi
    rw [hstate]
  · exact (hfresh.bootState.before rfl).2.2 i hi

/-- Both modes end where the schedule does. -/
theorem Scheduled.runs {m : Machine N} (hstart : e.Scheduled L (Schedule.start m)) (hN : 0 < N)
    (hsignal : L.use 0x2600 = .shared) (cycles : Word) :
    ∃ c r d, (Schedule.start m).run cycles.toNat = some c ∧
      e.run cycles = .ok r ∧ e.debugRun cycles = .ok d ∧
      Shows L r.toSimulator c ∧ Shows L d.toSimulator c := by
  have hcount : ({ e with globalCycleCount := 0 } : Emulation N n).Scheduled L
      (Schedule.start m) := ⟨hstart.toScheduled, hstart.called, hstart.notProcessed⟩
  have hgoes := Schedule.not_allFinished_start hN m
  obtain ⟨r, c, hr, hc, h⟩ := hcount.runLoop hsignal hgoes 0 cycles.toNat
  obtain ⟨d, c', hd', hc', h'⟩ := hstart.debugLoop hsignal cycles.toNat
  obtain rfl : c = c' := Option.some.inj (hc.symm.trans hc')
  exact ⟨c, r, d, hc, hr, hd', h.shows, h'.shows⟩

/-- From a simulator just constructed, with the program where it is to be and the release
word for all cores to use, neither mode aborts, and both end where the schedule does. -/
theorem program_runs {ddr : DDRMemory} (hN : 0 < N) (hfresh : Fresh e) (hs : e.LaidOut L ddr)
    (hsignal : L.use 0x2600 = .shared) (hd : L.Disciplined e.machine) (cycles : Word) :
    ∃ c r d, (Schedule.start e.machine).run cycles.toNat = some c ∧
      e.run cycles = .ok r ∧ e.debugRun cycles = .ok d ∧
      Shows L r.toSimulator c ∧ Shows L d.toSimulator c :=
  (hfresh.scheduled hs hd).runs hN hsignal cycles

/-! ## A program that releases the cores -/

/-- The constructor with a program at 0, in memory and DDR. -/
theorem start_laidOut (program : List Word) (hsize : n % 4 = 0 ∧ n ≤ 0x02000000)
    (hlen : 4 * program.length ≤ n) :
    (start N n (ByteMemory.writeBlock ⟨fun _ => 0⟩ 0 program)
      (ByteMemory.writeBlock ⟨fun _ => 0⟩ 0 program)).LaidOut L
      (ByteMemory.writeBlock ⟨fun _ => 0⟩ 0 program) := by
  refine ⟨hsize, rfl, fun a _ _ => ?_, fun _ => rfl, fun i => masked_of_init rfl, fun _ => rfl,
    fun _ => rfl, rfl⟩
  have h2 := hsize.2
  exact Simulator.writeBlock_congr program (x := 0) (by simp; omega) (by simp [ddrSize]; omega)
    (by simpa using hlen) rfl

/-- A block of code at 0, and the block of the release word. -/
def withReleaseUse (b : Nat) : Use 2 :=
  if b = 0 then .code else if b = 0x2600 then .shared else .unused

theorem withReleaseUse_used {b : Nat} (h : withReleaseUse b ≠ .unused) : b = 0 ∨ b = 0x2600 := by
  unfold withReleaseUse at h
  grind

theorem withReleaseUse_inside (b : Nat) (h : withReleaseUse b ≠ .unused) :
    64 * b + 64 ≤ 0x100000 := by
  have := withReleaseUse_used h
  omega

theorem withReleaseUse_shared (addr : Word) (h : withReleaseUse (addr.toNat / 64) = .shared) :
    hasDataCache addr = false := by
  rw [Bool.eq_false_iff]
  intro hc
  have := (hasDataCache_iff addr).mp hc
  unfold withReleaseUse at h
  split_ifs at h
  omega

theorem withReleaseUse_states (b : Nat) (h : withReleaseUse b ≠ .unused) :
    64 * b + 64 ≤ 0x90000 ∨ 0x90000 + 4 * 2 ≤ 64 * b := by
  have := withReleaseUse_used h
  omega

theorem withReleaseUse_window : withReleaseUse 0x2080 = .unused := rfl

def withRelease : Layout 2 0x100000 :=
  ⟨withReleaseUse, withReleaseUse_inside, withReleaseUse_shared, withReleaseUse_window,
    withReleaseUse_states⟩

/-- Store the release word and stay. -/
def releaseProgram : List Instr :=
  [.compute (.lui 5 0x98), .compute (.lui 6 0xDEADC), .compute (.opImm .addi 6 6 0xEEF),
    .store ⟨.sw, 6, 5, 0⟩, .compute (.jal 0 0)]

def releasing : Emulation 2 0x100000 :=
  start 2 0x100000 (ByteMemory.writeBlock ⟨fun _ => 0⟩ 0 (releaseProgram.map Instr.encode))
    (ByteMemory.writeBlock ⟨fun _ => 0⟩ 0 (releaseProgram.map Instr.encode))

/-- A hart is at one of its instructions, with the address in `x5` once it is past the
first. -/
def AtRelease (s : State) (k : Fin 5) : Prop :=
  s.pc = BitVec.ofNat 32 (4 * k.val) ∧ (k ≠ 0 → s.regs 5 = 0x98000)

structure Releasing (m : Machine 2) : Prop where
  code : ∀ k : Fin 5, Instr.decode (m.memory.word (4 * k.val)) = releaseProgram[k]?
  harts : ∀ i, ∃ k, AtRelease (m.harts i) k

theorem Releasing.exec {m : Machine 2} {i : Fin 2} {instr : Instr} (h : Releasing m)
    (hmem : ∀ k : Fin 5, (m.effect i instr).memory.word (4 * k.val) = m.memory.word (4 * k.val))
    (k : Fin 5) (hk : AtRelease (m.result i instr) k) : Releasing (m.exec i instr) := by
  refine ⟨fun k => ?_, fun j => ?_⟩
  · show Instr.decode ((m.effect i instr).memory.word (4 * k.val)) = _
    rw [hmem]
    exact h.code k
  · by_cases hj : j = i
    · subst hj
      rw [Machine.exec_self]
      exact ⟨k, hk⟩
    · rw [Machine.exec_other hj]
      exact h.harts j

/-- The instruction of hart `i`. -/
theorem Releasing.fetched {m : Machine 2} {i : Fin 2} {k : Fin 5} (h : Releasing m)
    (hk : AtRelease (m.harts i) k) : m.fetched i = releaseProgram[k]? := by
  have hpc : (m.harts i).pc.toNat = 4 * k.val := by
    rw [hk.1, BitVec.toNat_ofNat]
    omega
  unfold Machine.fetched
  rw [hpc]
  exact h.code k

theorem Releasing.disciplined {m : Machine 2} (h : Releasing m) : withRelease.Disciplined m := by
  refine Layout.disciplined_of_invariant h ?_
  intro m i h
  obtain ⟨k, hk⟩ := h.harts i
  have hfetched := h.fetched hk
  obtain ⟨hpc, hbase⟩ := hk
  have hplaces : ∀ k : Fin 5, withRelease.MayFetch (BitVec.ofNat 32 (4 * k.val)) := by
    unfold Layout.MayFetch
    decide
  refine ⟨hpc ▸ hplaces k, ?_⟩
  match k with
  | 0 =>
    refine ⟨_, hfetched, rfl, h.exec (fun _ => rfl) 1 ⟨?_, fun _ => ?_⟩⟩
    · show (m.harts i).pc + 4 = _
      rw [hpc]
      rfl
    · have hne : (5 : Isa.Reg) ≠ 0 := by decide
      exact State.write_self (m.harts i) 0x98000 hne
  | 1 =>
    refine ⟨_, hfetched, rfl, h.exec (fun _ => rfl) 2 ⟨?_, fun _ => ?_⟩⟩
    · show (m.harts i).pc + 4 = _
      rw [hpc]
      rfl
    · simpa [Machine.result, Rv32i.exec, Rv32i.result, State.write, State.goto] using
        hbase (by decide)
  | 2 =>
    refine ⟨_, hfetched, rfl, h.exec (fun _ => rfl) 3 ⟨?_, fun _ => ?_⟩⟩
    · show (m.harts i).pc + 4 = _
      rw [hpc]
      rfl
    · simpa [Machine.result, Rv32i.exec, Rv32i.result, State.write, State.goto] using
        hbase (by decide)
  | 3 =>
    have haddr : Store.address ⟨.sw, 6, 5, 0⟩ (m.harts i).regs = 0x98000 := by
      show (m.harts i).regs 5 + _ = _
      rw [hbase (by decide)]
      rfl
    refine ⟨_, hfetched, .inl ?_, h.exec (fun k => ?_) 4 ⟨?_, fun _ => hbase (by decide)⟩⟩
    · rw [haddr]
      exact ⟨by decide, .inr (by decide)⟩
    · simp only [Machine.effect, haddr, if_neg (show ¬(0x98000 : Word) = transmitAddr by decide)]
      refine Simulator.apply_word_other .sw m.memory _ (by decide) ?_
      show k.val ≠ 0x98000 / 4
      omega
    · show (m.harts i).pc + 4 = _
      rw [hpc]
      rfl
  | 4 =>
    have htarget : (Rv32i.jal 0 0).target (m.harts i) = some 16 := by
      show some ((m.harts i).pc + _) = some 16
      rw [hpc]
      rfl
    refine ⟨_, hfetched, ?_, h.exec (fun _ => rfl) 4 ⟨?_, fun _ => hbase (by decide)⟩⟩
    · show (Rv32i.jal 0 0).targetMisaligned (m.harts i) = false
      unfold Rv32i.targetMisaligned
      rw [htarget]
      rfl
    · show ((Rv32i.jal 0 0).target (m.harts i)).getD ((m.harts i).pc + 4) = _
      rw [htarget]
      rfl

theorem releasing_disciplined : withRelease.Disciplined releasing.machine :=
  Releasing.disciplined ⟨by decide +kernel, fun _ => ⟨0, rfl, fun h => absurd rfl h⟩⟩

theorem program_runs_releasing : ∃ c r d,
    (Schedule.start releasing.machine).run (8 : Word).toNat = some c ∧
      releasing.run 8 = .ok r ∧ releasing.debugRun 8 = .ok d ∧
      Shows withRelease r.toSimulator c ∧ Shows withRelease d.toSimulator c :=
  program_runs (by decide) (start_fresh ..) (start_laidOut _ (by decide) (by decide)) (by decide)
    releasing_disciplined 8

end Emulation

end RiscvEmulator.System
