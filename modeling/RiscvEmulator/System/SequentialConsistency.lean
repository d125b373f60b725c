import RiscvEmulator.System.AddressSpace
import RiscvEmulator.System.CoreFrame

/-! # Disciplined programs find one memory

The cores' caches are never kept in step, and cached words have a memory of their
own. A disciplined program cannot tell: in whatever order the cores step, registers,
program counters, output and every word a core may load are those of the machine of
the specification after the same steps. -/
namespace RiscvEmulator.System
open Memory Cores Isa Device

/-- What is used and cached, or code, is not where the monitor writes. -/
theorem Layout.leavesAlone {N n : Nat} (L : Layout N n) (hphase : L.use 0x2600 ≠ .code)
    {a : Word} (hused : L.useOf a ≠ .unused) (hin : hasDataCache a = true ∨ L.useOf a = .code) :
    MultiCoreMonitor.LeavesAlone N a.toNat := by
  have hstates := L.states _ hused
  refine ⟨?_, ?_⟩
  · unfold MultiCoreMonitor.OutsideStates MultiCoreMonitor.coreStatesAddr
    omega
  · unfold MultiCoreMonitor.initPhaseAddr
    by_contra hnot
    rcases hin with hcached | hcode
    · have := (hasDataCache_iff a).mp hcached
      omega
    · unfold Layout.useOf at hcode
      rw [show a.toNat / 64 = 0x2600 by omega] at hcode
      exact hphase hcode

namespace Simulator
variable {N n : Nat} {L : Layout N n} {S : Space L} {s t s' : Simulator N n} {m m' : Machine N}
  {f : WordAddr → Word} {i : Fin N} {addr : Word} {x : WordAddr}

/-- The serial port has sent the output, and its divisor latch is off. -/
def Sent (devices : List (Word × UART)) (output : List Byte) : Prop :=
  ∃ u : UART, devices = [(uartBase, u)] ∧ u.lcr &&& 0x80 = 0 ∧ u.output = output

/-- The low byte goes out. -/
theorem sent_transmit {u : UART} (hlcr : u.lcr &&& 0x80 = 0) {data v : Word}
    (hdata : data &&& 0xFF = v &&& 0xFF) :
    Sent [(uartBase, u.write 0 data)] (u.output ++ [v.setWidth 8]) := by
  have hbyte : (v &&& 0xFF).setWidth 8 = v.setWidth 8 := by
    refine BitVec.eq_of_getLsbD_eq fun j hj => ?_
    have hmask : (0xFF : Word).getLsbD j = true := by
      interval_cases j <;> rfl
    simp only [BitVec.getLsbD_setWidth, BitVec.getLsbD_and, hmask, Bool.and_true]
  have hwrite : u.write 0 data = { u with
      dr := v &&& 0xFF
      output := u.output ++ [v.setWidth 8]
      lsr := u.lsr ||| 0x60 } := by
    rw [UART.write_low hdata, ← hbyte]
    unfold UART.write
    simp only [if_neg (show ¬(0 : Word) = 3 by decide), hlcr, and_self, if_true]
  exact ⟨_, rfl, by rw [hwrite]; exact hlcr, by rw [hwrite]⟩

/-- The simulator is in a state of the machine, whose memory is the one the cores see
through their MMUs. -/
structure Represents (S : Space L) (s : Simulator N n) (m : Machine N) : Prop where
  size : n % 4 = 0 ∧ n ≤ 0x02000000
  words : ∃ f, S.Words s.hierarchy s.memory f m.memory
  harts : ∀ i, (s.cores i).isaState = m.harts i
  zero : ∀ i, (m.harts i).regs 0 = 0
  masked : ∀ i, Masked (s.cores i)
  awake : ∀ i, (s.cores i).isWaitingForInterrupt = false
  translates : S.Translates s
  sent : Sent s.devices m.output

namespace Represents

theorem ram (h : Represents S s m) : s.PlainRam := by
  obtain ⟨u, hd, _, _⟩ := h.sent
  refine ⟨h.size.1, h.size.2, ?_⟩
  intro dev hdev
  rw [hd] at hdev
  obtain rfl := List.mem_singleton.mp hdev
  show 0x02000000 ≤ uartBase.toNat
  decide

theorem regs (h : Represents S s m) (i : Fin N) : (s.cores i).regs = (m.harts i).regs :=
  congrArg State.regs (h.harts i)

theorem pc (h : Represents S s m) (i : Fin N) : (s.cores i).pc = (m.harts i).pc :=
  congrArg State.pc (h.harts i)

theorem regs_zero (h : Represents S s m) (i : Fin N) : (s.cores i).regs 0 = 0 := by
  rw [h.regs]
  exact h.zero i

/-- The step of a core, with what it has made of the words and the output. -/
theorem of_stepsTo {instr : Instr} (h : Represents S s m)
    (hs : s.StepsTo i (m.result i instr) t s') (htranslates : S.Translates t)
    (hwords : ∃ f, S.Words t.hierarchy t.memory f (m.effect i instr).memory)
    (hsent : Sent t.devices (m.effect i instr).output) :
    Represents S s' (m.exec i instr) := by
  have hother : ∀ j, j ≠ i → s'.cores j = s.cores j := by
    intro j hj
    rw [hs.rest]
    exact Function.update_of_ne hj ..
  have hcases : ∀ {P : Fin N → Prop}, P i → (∀ j, j ≠ i → P j) → ∀ j, P j := by
    intro P hi hothers j
    by_cases hj : j = i
    · exact hj ▸ hi
    · exact hothers j hj
  refine ⟨h.size, ?_, ?_, ?_, ?_, ?_, ?_, ?_⟩
  · rw [hs.rest]
    exact hwords
  · refine hcases ?_ fun j hj => ?_
    · rw [hs.core.isaState, Machine.exec_self]
    · rw [hother j hj, Machine.exec_other hj]
      exact h.harts j
  · refine hcases ?_ fun j hj => ?_
    · rw [Machine.exec_self, Machine.result_zero]
      exact h.zero i
    · rw [Machine.exec_other hj]
      exact h.zero j
  · refine hcases ?_ fun j hj => ?_
    · exact (h.masked i).of_mstatus (hs.core.mip 0x300 (by decide))
    · rw [hother j hj]
      exact h.masked j
  · refine hcases ?_ fun j hj => ?_
    · rw [hs.core.waits]
      exact h.awake i
    · rw [hother j hj]
      exact h.awake j
  · rw [hs.rest]
    exact htranslates.of_eq rfl rfl
  · rw [hs.rest]
    exact hsent

/-! ## The step -/

/-- What a core fetches from an address of the code is the word of the machine. -/
theorem fetch_eq (h : Represents S s m) (i : Fin N) (hmay : L.MayFetch addr) :
    ∃ mmus, s.fetch i addr = (m.memory.word addr.toNat,
        { s with mmus := mmus, hierarchy := (s.hierarchy.fetch i (S.phys addr)).2 }) ∧
      S.Translates
        { s with mmus := mmus, hierarchy := (s.hierarchy.fetch i (S.phys addr)).2 } := by
  obtain ⟨f, hw⟩ := h.words
  obtain ⟨mmus, htrans, ht⟩ := h.translates.cacheTranslate i hmay.used false true nofun nofun
  refine ⟨mmus, ?_, ht.of_eq rfl rfl⟩
  unfold Simulator.fetch
  rw [htrans, ← hw.fetched hmay i]

/-- A core at an instruction of the machine comes to the switch with it. -/
theorem switches (h : Represents S s m) (hrun : s.Running i) (hmay : L.MayFetch (m.harts i).pc)
    {instr : Instr} (hfetched : m.fetched i = some instr) :
    ∃ t, s.Switches i instr.encode t ∧ S.Translates t ∧ t.devices = s.devices ∧
      ∃ f, S.Words t.hierarchy t.memory f m.memory := by
  obtain ⟨f, hw⟩ := h.words
  let s₁ := s.setCore i ((s.cores i).updateMipCsr (s.pendingLines i))
  have hpc : (s₁.cores i).pc = (m.harts i).pc := by
    rw [setCore_cores_self, ← h.pc i]
    rfl
  obtain ⟨mmus, htrans, ht⟩ := (h.translates.of_eq rfl rfl : S.Translates s₁).cacheTranslate i
    hmay.used false true nofun nofun
  refine ⟨{ s₁ with mmus := mmus, hierarchy := (s.hierarchy.fetch i (S.phys (m.harts i).pc)).2 },
    ⟨hrun, h.masked i, ?_⟩, ht.of_eq rfl rfl, rfl, f, hw.fetch i _⟩
  show s₁.fetch i (s₁.cores i).pc = _
  unfold Simulator.fetch
  rw [hpc, htrans]
  refine Prod.ext ((hw.fetched hmay i).trans ?_) rfl
  exact (Instr.encode_of_decode hfetched).symm

/-- A step that an instruction of a disciplined program makes. -/
theorem stepsTo (h : Represents S s m) (hrun : s.Running i) (hmay : L.MayFetch (m.harts i).pc)
    {instr : Instr} (hfetched : m.fetched i = some instr)
    (hallows : L.Allows i (m.harts i) instr) :
    ∃ t s', s.StepsTo i (m.result i instr) t s' ∧ S.Translates t ∧
      (∃ f, S.Words t.hierarchy t.memory f (m.effect i instr).memory) ∧
      Sent t.devices (m.effect i instr).output := by
  obtain ⟨t₀, hsw, ht₀, hdevices, f, hw⟩ := h.switches hrun hmay hfetched
  have hx0 := h.regs_zero i
  have hregs := h.regs i
  have hregs₀ : (t₀.cores i).regs = (m.harts i).regs := hsw.regs.trans hregs
  have hram : t₀.PlainRam := ⟨h.ram.words, h.ram.size, hdevices ▸ h.ram.devices⟩
  have hsent : Sent t₀.devices m.output := hdevices ▸ h.sent
  cases instr with
  | compute instr =>
    obtain ⟨s', hs'⟩ := stepsTo_compute hsw hx0 rfl
    rw [h.harts i] at hs'
    exact ⟨_, s', hs', ht₀, ⟨f, hw⟩, hsent⟩
  | mulDiv instr =>
    obtain ⟨s', hs'⟩ := stepsTo_mulDiv hsw hx0 rfl (hregs ▸ hallows)
    rw [h.harts i] at hs'
    exact ⟨_, s', hs', ht₀, ⟨f, hw⟩, hsent⟩
  | load instr =>
    have hload : L.MayLoad i (instr.address (m.harts i).regs) instr.op.size := hallows
    have he := execute_load t₀ i instr (by rw [hregs₀]; exact Layout.lt_of_used hload.used)
    obtain ⟨t, heq, hcores, hdev, hw', ht⟩ := hw.load ht₀ hram instr.rd hload
    rw [hregs₀] at he
    obtain ⟨s', hs'⟩ := stepsTo_finish hsw hx0 hcores (he.trans (congrArg Except.ok heq))
    rw [h.harts i, h.pc i] at hs'
    exact ⟨t, s', hs', ht, ⟨f, hw'⟩, hdev ▸ hsent⟩
  | store instr =>
    rcases hallows with hstore | htransmit
    · have hne : instr.address (m.harts i).regs ≠ transmitAddr := by
        intro he
        have hlt := Layout.lt_of_used hstore.used
        rw [he, show transmitAddr.toNat = 0x10000000 from rfl] at hlt
        have := h.size.2
        omega
      have he := execute_store t₀ i instr (by rw [hregs₀]; exact Layout.lt_of_used hstore.used)
      obtain ⟨t, f', heq, hcores, hdev, hw', ht⟩ :=
        hw.store ht₀ hram ((m.harts i).regs instr.rs2) hstore
      simp only [hregs₀] at he
      obtain ⟨s', hs'⟩ := stepsTo_next hsw hx0 hcores (he.trans (congrArg Except.ok heq))
      rw [h.harts i, h.pc i] at hs'
      simp only [Machine.effect, if_neg hne]
      exact ⟨t, s', hs', ht, ⟨f', hw'⟩, hdev ▸ hsent⟩
    · obtain ⟨u, hd, hlcr, hout⟩ := hsent
      obtain ⟨s', data, hdata, hs'⟩ := stepsTo_transmit hsw hx0 h.size.2 hd rfl
        ((congrArg instr.address hregs).trans htransmit)
      rw [h.harts i, h.pc i] at hs'
      simp only [Machine.effect, if_pos htransmit]
      have hsent := sent_transmit hlcr hdata
      rw [hout, hregs] at hsent
      exact ⟨_, s', hs', ht₀.of_eq rfl rfl, ⟨f, hw⟩, hsent⟩
  | fence fields =>
    obtain ⟨s', hs'⟩ := stepsTo_fence hsw hx0 rfl
    rw [h.harts i, h.pc i] at hs'
    exact ⟨_, s', hs', ht₀, ⟨f, hw⟩, hsent⟩
  | hartId rd =>
    obtain ⟨s', hs'⟩ := stepsTo_hartId hsw hx0 rfl
    rw [h.harts i, h.pc i] at hs'
    exact ⟨_, s', hs', ht₀, ⟨f, hw⟩, hsent⟩

/-- A step of the core is the step of the hart. -/
theorem step (h : Represents S s m) (hrun : s.Running i) (hf : L.Follows m i) :
    ∃ s' m', s.step i = .ok s' ∧ m.step i = some m' ∧ Represents S s' m' := by
  obtain ⟨instr, hfetched, hallows⟩ := hf.allowed
  obtain ⟨t, s', hs', htranslates, hwords, hsent⟩ := h.stepsTo hrun hf.fetch hfetched hallows
  exact ⟨s', m.exec i instr, hs'.step, Machine.step_eq_some.mpr ⟨instr, hfetched, rfl⟩,
    h.of_stepsTo hs' htranslates hwords hsent⟩

/-- Without translation a core loads the words of the machine. -/
theorem ramWord {hn : n ≤ 0x02000000} (h : Represents (.plain L hn) s m)
    (hmay : L.MayLoad i addr 4) : s.ramWord i addr = m.memory.word addr.toNat := by
  obtain ⟨f, hw⟩ := h.words
  have hword := hw.word h.ram hmay
  rwa [Space.plain_phys] at hword

end Represents

/-! ## Runs -/

/-- The cores in this order, each a step at a time. -/
def steps (s : Simulator N n) (order : List (Fin N)) : Except Abort (Simulator N n) :=
  order.foldlM step s

theorem Running.step (hrun : ∀ j, s.Running j) (h : Represents S s' m')
    (hstep : s.step i = .ok s') (j : Fin N) : s'.Running j := by
  have hframe := step_frame hstep
  refine ⟨?_, ?_, h.awake j⟩
  · rw [hframe.monitor]
    exact (hrun j).released
  · by_cases hj : j = i
    · subst hj
      exact (hframe.booted (hrun j).booted).1
    · rw [hframe.others j hj]
      exact (hrun j).booted

theorem Represents.steps (h : Represents S s m) (hrun : ∀ i, s.Running i)
    (hd : L.Disciplined m) (order : List (Fin N)) :
    ∃ s' m', s.steps order = .ok s' ∧ m.run order = some m' ∧ Represents S s' m' := by
  induction order generalizing s m with
  | nil => exact ⟨s, m, rfl, rfl, h⟩
  | cons i order ih =>
    obtain ⟨s₁, m₁, hs₁, hm₁, h₁⟩ := h.step (hrun i) (hd.follows i)
    obtain ⟨s', m', hs', hm', h'⟩ := ih h₁ (Running.step hrun h₁ hs₁) (hd.step hm₁)
    refine ⟨s', m', ?_, ?_, h'⟩
    · unfold Simulator.steps
      rw [List.foldlM_cons, hs₁]
      exact hs'
    · rw [Machine.run_cons, hm₁]
      exact hm'

/-! ## From the start -/

/-- The state of the machine with the memory and registers of the simulator. -/
def machine (s : Simulator N n) : Machine N where
  harts i := (s.cores i).isaState
  memory := s.memory.bytes
  output := ((s.getDevice uartBase).map (·.output)).getD []

/-- Empty caches over a DDR that has what memory has, where the caches hold words;
no translation, no interrupts, and the serial port as it is built. -/
structure LaidOut (L : Layout N n) (ddr : DDRMemory) (s : Simulator N n) : Prop where
  size : n % 4 = 0 ∧ n ≤ 0x02000000
  empty : s.hierarchy = Hierarchy.init N ddr
  contents : ∀ a : Word, L.useOf a ≠ .unused → hasDataCache a = true ∨ L.useOf a = .code →
    ddr.bytes a.toNat = s.memory.bytes a.toNat
  zero : ∀ i, (s.cores i).regs 0 = 0
  masked : ∀ i, Masked (s.cores i)
  awake : ∀ i, (s.cores i).isWaitingForInterrupt = false
  untranslated : ∀ i, s.Untranslated i
  devices : s.devices = [(uartBase, {})]

theorem LaidOut.represents {ddr : DDRMemory} (h : LaidOut L ddr s) :
    Represents (.plain L h.size.2) s s.machine := by
  refine ⟨h.size, ⟨Hierarchy.ddrWords ddr, ?_, ?_, ?_⟩, fun i => rfl, h.zero, h.masked, h.awake,
    Space.plain_translates h.untranslated, {}, h.devices, by decide, ?_⟩
  · rw [h.empty]
    exact Hierarchy.init_owned L.owner ddr
  · intro x hx hin
    rw [Space.plain_place]
    have hn := L.inside _ hx
    have hsize := h.size.2
    have hddr : ddrSize = 0x40000000 := rfl
    have hread : Hierarchy.ddrWords ddr x = Bytes.word ddr.bytes (4 * x.toNat) := by
      show ddr.readWord (byteAddr x) = _
      rw [ByteMemory.readWord, byteAddr_toNat, if_pos (by omega), load32_eq_word]
    rw [hread]
    refine (Bytes.word_eq_iff ..).mpr fun k hk => ?_
    obtain ⟨hto, huse, hword⟩ := L.byte_of_word (x := x) hk
    have hbyte := h.contents (BitVec.ofNat 32 (4 * x.toNat + k)) (by rw [huse]; exact hx)
      (by rw [huse, ← hasDataCache_wordOf, hword]; exact hin)
    rwa [hto] at hbyte
  · intro x _ _
    rw [Space.plain_place]
    rfl
  · unfold machine getDevice
    simp [h.devices]

theorem Represents.output (h : Represents S s m) : s.machine.output = m.output := by
  obtain ⟨u, hu, _, hout⟩ := h.sent
  unfold machine getDevice
  simp [hu, hout]

/-- A program loaded at 0, if nothing of the code is where the monitor writes. -/
theorem loaded_laidOut (program : List Word) {regs : Fin N → Isa.Reg → Word}
    (hsize : n % 4 = 0 ∧ n ≤ 0x02000000) (hlen : 4 * program.length ≤ n)
    (hphase : L.use 0x2600 ≠ .code) (h0 : ∀ i, regs i 0 = 0) :
    (loaded N n program regs).LaidOut L (ByteMemory.writeBlock ⟨fun _ => 0⟩ 0 program) where
  size := hsize
  empty := rfl
  contents a hused hin := by
    have hzero : ((MultiCoreMonitor.init N).writeStateToMemory
        (⟨fun _ => 0⟩ : ByteMemory n)).bytes a.toNat = 0 :=
      MultiCoreMonitor.writeStateToMemory_outside _ _ (L.leavesAlone hphase hused hin)
    have hlt := L.inside _ hused
    have h2 : n ≤ 0x02000000 := hsize.2
    exact writeBlock_congr program (x := 0) (by simp; omega) (by simp [ddrSize]; omega)
      (by simpa using hlen) hzero.symm
  zero := h0
  masked i := masked_of_init rfl
  awake i := rfl
  untranslated i := rfl
  devices := rfl

/-- For a disciplined program the simulator is the machine: every order of steps ends
without an abort, with the registers, the program counters, the output and the loadable
words that the specification has after the same steps. -/
theorem sequentially_consistent {ddr : DDRMemory} (hs : s.LaidOut L ddr)
    (hrun : ∀ i, s.Running i) (hd : L.Disciplined s.machine) (order : List (Fin N)) :
    ∃ s' m', s.steps order = .ok s' ∧ s.machine.run order = some m' ∧
      (∀ i, (s'.cores i).isaState = m'.harts i) ∧ s'.machine.output = m'.output ∧
      ∀ i addr, L.MayLoad i addr 4 → s'.ramWord i addr = m'.memory.word addr.toNat := by
  obtain ⟨s', m', hs', hm', h⟩ := hs.represents.steps hrun hd order
  exact ⟨s', m', hs', hm', h.harts, h.output, fun i addr hmay => h.ramWord hmay⟩

/-! ## Two cores with a block each -/

/-- A block of code at 0, and one of data for each core at 0x50000. -/
def twoBlocksUse (b : Nat) : Use 2 :=
  if b = 0 then .code
  else if b = 0x1400 then .data ⟨0, Nat.zero_lt_two⟩
  else if b = 0x1401 then .data ⟨1, Nat.one_lt_two⟩
  else .unused

theorem twoBlocksUse_used {b : Nat} (h : twoBlocksUse b ≠ .unused) :
    b = 0 ∨ b = 0x1400 ∨ b = 0x1401 := by
  unfold twoBlocksUse at h
  grind

theorem twoBlocksUse_inside (b : Nat) (h : twoBlocksUse b ≠ .unused) :
    64 * b + 64 ≤ 0x100000 := by
  have := twoBlocksUse_used h
  omega

theorem twoBlocksUse_shared (addr : Word) (h : twoBlocksUse (addr.toNat / 64) = .shared) :
    hasDataCache addr = false := by
  unfold twoBlocksUse at h
  split_ifs at h

theorem twoBlocksUse_states (b : Nat) (h : twoBlocksUse b ≠ .unused) :
    64 * b + 64 ≤ 0x90000 ∨ 0x90000 + 4 * 2 ≤ 64 * b := by
  have := twoBlocksUse_used h
  omega

theorem twoBlocksUse_window : twoBlocksUse 0x2080 = .unused := rfl

def twoBlocks : Layout 2 0x100000 :=
  ⟨twoBlocksUse, twoBlocksUse_inside, twoBlocksUse_shared, twoBlocksUse_window,
    twoBlocksUse_states⟩

/-- Store `x6` to the own block, load it again into `x7` and stay. -/
def ownBlocks : Simulator 2 0x100000 :=
  loaded 2 0x100000 [Store.encode ⟨.sw, 6, 5, 0⟩, Load.encode ⟨.lw, 7, 5, 0⟩,
    Rv32i.encode (.jal 0 0)] fun i r =>
      if r = 5 then 0x50000 + BitVec.ofNat 32 (64 * i.val)
      else if r = 6 then BitVec.ofNat 32 (i.val + 1) else 0

/-- Between the steps of its cores. -/
structure InOwnBlocks (m : Machine 2) : Prop where
  store : m.memory.word 0 = Store.encode ⟨.sw, 6, 5, 0⟩
  load : m.memory.word 4 = Load.encode ⟨.lw, 7, 5, 0⟩
  stay : m.memory.word 8 = Rv32i.encode (.jal 0 0)
  block : ∀ i, (m.harts i).regs 5 = 0x50000 + BitVec.ofNat 32 (64 * i.val)
  pc : ∀ i, (m.harts i).pc = 0 ∨ (m.harts i).pc = 4 ∨ (m.harts i).pc = 8

/-- Core `i` has stepped, and left the code and its `x5` alone. -/
theorem InOwnBlocks.exec {m : Machine 2} {i : Fin 2} {instr : Instr} (h : InOwnBlocks m)
    (hmem : ∀ k < 3, (m.effect i instr).memory.word (4 * k) = m.memory.word (4 * k))
    (hblock : (m.result i instr).regs 5 = (m.harts i).regs 5)
    (hpc : (m.result i instr).pc = 4 ∨ (m.result i instr).pc = 8) :
    InOwnBlocks (m.exec i instr) := by
  refine ⟨(hmem 0 (by decide)).trans h.store, (hmem 1 (by decide)).trans h.load,
    (hmem 2 (by decide)).trans h.stay, fun j => ?_, fun j => ?_⟩
  · by_cases hj : j = i
    · subst hj
      rw [Machine.exec_self, hblock]
      exact h.block j
    · rw [Machine.exec_other hj]
      exact h.block j
  · by_cases hj : j = i
    · subst hj
      rw [Machine.exec_self]
      exact .inr hpc
    · rw [Machine.exec_other hj]
      exact h.pc j

theorem InOwnBlocks.disciplined {m : Machine 2} (h : InOwnBlocks m) : twoBlocks.Disciplined m := by
  refine Layout.disciplined_of_invariant h ?_
  intro m i h
  have hblocks : ∀ i : Fin 2, twoBlocks.useOf (0x50000 + BitVec.ofNat 32 (64 * i.val)) = .data i ∧
      (0x50000 + BitVec.ofNat 32 (64 * i.val)).toNat % 4 = 0 ∧
      (0x50000 + BitVec.ofNat 32 (64 * i.val) : Word) ≠ transmitAddr ∧
      12 ≤ (0x50000 + BitVec.ofNat 32 (64 * i.val)).toNat := by
    decide
  have haddr : (m.harts i).regs 5 + (0 : BitVec 12).signExtend 32 =
      0x50000 + BitVec.ofNat 32 (64 * i.val) := by
    rw [h.block i]
    exact BitVec.add_zero _
  obtain ⟨huse, haligned, hram, hfar⟩ := hblocks i
  generalize 0x50000 + BitVec.ofNat 32 (64 * i.val) = base at haddr huse haligned hram hfar
  rcases h.pc i with hpc | hpc | hpc
  · refine ⟨hpc ▸ ⟨by decide, by decide⟩, .store ⟨.sw, 6, 5, 0⟩, ?_, ?_, ?_⟩
    · unfold Machine.fetched
      rw [hpc, show (0 : BitVec 32).toNat = 0 from rfl, h.store]
      exact Instr.decode_encode (.store ⟨.sw, 6, 5, 0⟩)
    · refine .inl ?_
      unfold Store.address
      rw [haddr]
      exact ⟨haligned, .inl huse⟩
    · refine h.exec (fun k hk => ?_) rfl (.inl ?_)
      · have hstore : Store.address ⟨.sw, 6, 5, 0⟩ (m.harts i).regs = base := haddr
        simp only [Machine.effect, hstore, if_neg hram]
        exact apply_word_other .sw m.memory _ haligned (by omega)
      · show (m.harts i).pc + 4 = 4
        rw [hpc]
        rfl
  · refine ⟨hpc ▸ ⟨by decide, by decide⟩, .load ⟨.lw, 7, 5, 0⟩, ?_, ?_, ?_⟩
    · unfold Machine.fetched
      rw [hpc, show (4 : BitVec 32).toNat = 4 from rfl, h.load]
      exact Instr.decode_encode (.load ⟨.lw, 7, 5, 0⟩)
    · show twoBlocks.MayLoad i ((m.harts i).regs 5 + (0 : BitVec 12).signExtend 32) 4
      rw [haddr]
      exact ⟨haligned, .inr (.inl huse)⟩
    · refine h.exec (fun k _ => rfl) ?_ (.inr ?_)
      · simp [Machine.result, State.goto, State.write]
      · show (m.harts i).pc + 4 = 8
        rw [hpc]
        rfl
  · refine ⟨hpc ▸ ⟨by decide, by decide⟩, .compute (.jal 0 0), ?_, ?_, ?_⟩
    · unfold Machine.fetched
      rw [hpc, show (8 : BitVec 32).toNat = 8 from rfl, h.stay]
      exact Instr.decode_encode (.compute (.jal 0 0))
    · have htarget : (Rv32i.jal 0 0).target (m.harts i) = some 8 := by
        show some ((m.harts i).pc + _) = some 8
        rw [hpc]
        rfl
      show (Rv32i.jal 0 0).targetMisaligned (m.harts i) = false
      unfold Rv32i.targetMisaligned
      rw [htarget]
      rfl
    · refine h.exec (fun k _ => rfl) rfl (.inr ?_)
      show (m.harts i).pc + _ = 8
      rw [hpc]
      rfl

theorem ownBlocks_disciplined : twoBlocks.Disciplined ownBlocks.machine :=
  InOwnBlocks.disciplined
    ⟨by decide +kernel, by decide +kernel, by decide +kernel, fun i => rfl, fun i => .inl rfl⟩

theorem sequentially_consistent_ownBlocks : ∃ s' m',
    ownBlocks.steps [0, 1, 1, 0] = .ok s' ∧ ownBlocks.machine.run [0, 1, 1, 0] = some m' ∧
      (∀ i, (s'.cores i).isaState = m'.harts i) ∧ s'.machine.output = m'.output ∧
      ∀ i addr, twoBlocks.MayLoad i addr 4 → s'.ramWord i addr = m'.memory.word addr.toNat :=
  sequentially_consistent
    (loaded_laidOut (L := twoBlocks) _ (by decide) (by decide) (by decide) (by decide))
    (fun i => loaded_running ..) ownBlocks_disciplined [0, 1, 1, 0]

end Simulator
end RiscvEmulator.System
