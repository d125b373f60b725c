import RiscvEmulator.System.Step

/-! # Interrupt delivery

The three sources of machine interrupts have the bits 3, 7 and 11 of `mie` and
`mideleg`, and external interrupts go first. The core looks at bits 11, 9 and 8
instead and asks for external interrupts last. -/
namespace RiscvEmulator.System
open Memory Cores

inductive Source where
  | software | timer | external
deriving DecidableEq, Repr

namespace Source

def pending (p : PendingLines) : Source → Bool
  | software => p.software
  | timer => p.timer
  | external => p.external

/-- The cause of the interrupt, and its bit in `mie` and `mideleg`. -/
def code : Source → Nat
  | software => 3
  | timer => 7
  | external => 11

/-- The bit the core has for it in `mip`, `mie` and `mideleg`. -/
def bit : Source → Nat
  | software => 11
  | timer => 9
  | external => 8

/-- The bit of `sie` for it, once delegated. -/
def sieBit : Source → Nat
  | software => 1
  | timer => 5
  | external => 9

def interrupt : Source → ExceptionType
  | software => .machineSoftwareInterrupt
  | timer => .machineTimerInterrupt
  | external => .machineExternalInterrupt

end Source

/-! ## What is due -/

section
variable (c : Core) (p : PendingLines)

def mie (k : Nat) : Bool := (c.csrRegisters 0x304).getLsbD k
def mideleg (k : Nat) : Bool := (c.csrRegisters 0x30A).getLsbD k
def sie (k : Nat) : Bool := (c.csrRegisters 0x104).getLsbD k
def mstatusMie : Bool := (c.csrRegisters 0x300).getLsbD 3
def mstatusSie : Bool := (c.csrRegisters 0x300).getLsbD 1

/-- Pending, enabled and not delegated, by bit `k`. -/
def dueAt (k : Nat) (src : Source) : Bool := src.pending p && mie c k && !mideleg c k

/-- The interrupt to be taken, in the order external, software, timer. -/
def due : Option Source := [.external, .software, .timer].find? fun src => dueAt c p src.code src

end

/-- From `c` the core has entered the handler of an interrupt. -/
structure Entered (c : Core) (src : Source) (c' : Core) : Prop where
  cause : c'.csrRegisters 0x342 = 0x80000000 ||| BitVec.ofNat 32 src.code
  epc : c'.csrRegisters 0x341 = c.pc
  disabled : mstatusMie c' = false
  target : c'.pc = Core.trapTarget (c.csrRegisters 0x305) (BitVec.ofNat 32 src.code)

/-- With interrupts enabled, the one that is due is taken; if none is pending and
enabled, the core has done no more than look at the lines. -/
structure Delivers (c : Core) (p : PendingLines) (c' : Core) : Prop where
  taken : mstatusMie c = true → ∀ src, due c p = some src → Entered c src c'
  none : (∀ src : Source, (src.pending p && mie c src.code) = false) →
    ∃ mip, c' = c.setCsr 0x344 mip

/-! ## What the core takes -/

section
variable (c : Core) (p : PendingLines)

/-- The machine interrupt the core selects. -/
def selected : Option Source :=
  [.software, .timer, .external].find? fun src => dueAt c p src.bit src

/-- The delegated interrupt it selects. -/
def delegated : Option Source :=
  [.software, .timer, .external].find? fun src =>
    src.pending p && mideleg c src.bit && sie c src.sieBit

/-- What `check_pending_interrupts` finds. Of the delegated interrupts it is only
the timer's whose bits meet. -/
def noticed : Bool :=
  p.software && mie c 11 || p.timer && mie c 9 || p.external && mie c 8 ||
    mstatusSie c && (p.timer && mideleg c 9 && sie c 9)

/-- The core sets the bits of the lines in `mip`. -/
theorem updateMipCsr_mip (k : Nat) (hk : k < 32) :
    ((c.updateMipCsr p).csrRegisters 0x344).getLsbD k =
      (p.software && decide (k = 11) || p.timer && decide (k = 9) ||
        p.external && decide (k = 8)) := by
  have h11 : (0x800 : Word) = BitVec.twoPow 32 11 := rfl
  have h9 : (0x200 : Word) = BitVec.twoPow 32 9 := rfl
  have h8 : (0x100 : Word) = BitVec.twoPow 32 8 := rfl
  unfold Core.updateMipCsr Core.setCsr
  simp only [Function.update_self, h11, h9, h8, BitVec.getLsbD_or]
  cases p.software <;> cases p.timer <;> cases p.external <;>
    simp [hk]

theorem updateMipCsr_other {a : BitVec 12} (ha : a ≠ 0x344) :
    (c.updateMipCsr p).csrRegisters a = c.csrRegisters a :=
  Function.update_of_ne ha ..

theorem sstatus_sie : ((c.sstatus >>> 1) &&& 0x1 != 0) = mstatusSie c := by
  rw [testBit_shift]
  unfold Core.sstatus mstatusSie
  simp

theorem checkPendingInterrupts_eq : (c.checkPendingInterrupts p).1 = noticed c p := by
  have hmachine : (0xB00 : Word) = BitVec.twoPow 32 11 ||| BitVec.twoPow 32 9 |||
      BitVec.twoPow 32 8 := rfl
  have hdelegated : (0x222 : Word) = BitVec.twoPow 32 1 ||| BitVec.twoPow 32 5 |||
      BitVec.twoPow 32 9 := rfl
  have hsie : (((c.updateMipCsr p).sstatus >>> 1) &&& 0x1 != 0) = mstatusSie c := sstatus_sie _
  unfold Core.checkPendingInterrupts noticed mie mideleg sie
  simp only [hsie, hmachine, hdelegated, mask_or, testBit_mask, BitVec.getLsbD_and,
    updateMipCsr_mip, updateMipCsr_other, Nat.reduceLT, ne_eq, BitVec.reduceEq, not_false_eq_true]
  simp

/-- The bits the dispatch tests for machine interrupts. -/
theorem machineBit_eq (src : Source) :
    ((if mstatusMie c then (c.updateMipCsr p).csrRegisters 0x344 &&&
        (c.updateMipCsr p).csrRegisters 0x304 &&& ~~~(c.updateMipCsr p).csrRegisters 0x30A
      else 0) &&& BitVec.twoPow 32 src.bit != 0) = (mstatusMie c && dueAt c p src.bit src) := by
  have hk : src.bit < 32 := by cases src <;> decide
  rw [testBit_mask _ _ hk]
  cases mstatusMie c with
  | false => simp
  | true =>
    rw [if_pos rfl, BitVec.getLsbD_and, BitVec.getLsbD_and, BitVec.getLsbD_not,
      updateMipCsr_mip c p _ hk, updateMipCsr_other c p (by decide),
      updateMipCsr_other c p (by decide)]
    unfold dueAt mie mideleg
    cases src <;> simp [Source.bit, Source.pending]

/-- The bits it tests for delegated interrupts. -/
theorem supervisorBit_eq (src : Source) :
    let delegated := (c.updateMipCsr p).csrRegisters 0x344 &&& (c.updateMipCsr p).csrRegisters 0x30A
    let delegatedForSie : Word := (if delegated &&& 0x800 != 0 then 0x2 else 0) |||
      (if delegated &&& 0x200 != 0 then 0x20 else 0) |||
      (if delegated &&& 0x100 != 0 then 0x200 else 0)
    ((if mstatusSie c then delegatedForSie &&& (c.updateMipCsr p).csrRegisters 0x104
      else 0) &&& BitVec.twoPow 32 src.sieBit != 0) =
        (mstatusSie c && (src.pending p && mideleg c src.bit && sie c src.sieBit)) := by
  intro delegated delegatedForSie
  have hk : src.sieBit < 32 := by cases src <;> decide
  have hbit : ∀ k, k < 32 → (delegated &&& BitVec.twoPow 32 k != 0) =
      (((p.software && decide (k = 11)) || (p.timer && decide (k = 9)) ||
        (p.external && decide (k = 8))) && mideleg c k) := by
    intro k hk
    rw [testBit_mask _ _ hk, BitVec.getLsbD_and, updateMipCsr_mip c p _ hk,
      updateMipCsr_other c p (by decide)]
    rfl
  have h11 : (delegated &&& 0x800 != 0) = (p.software && mideleg c 11) :=
    (hbit 11 (by decide)).trans (by simp)
  have h9 : (delegated &&& 0x200 != 0) = (p.timer && mideleg c 9) :=
    (hbit 9 (by decide)).trans (by simp)
  have h8 : (delegated &&& 0x100 != 0) = (p.external && mideleg c 8) :=
    (hbit 8 (by decide)).trans (by simp)
  have hfor : delegatedForSie.getLsbD src.sieBit = (src.pending p && mideleg c src.bit) := by
    simp only [delegatedForSie, h11, h9, h8]
    cases src <;> unfold Source.pending Source.bit Source.sieBit <;>
      cases p.software && mideleg c 11 <;> cases p.timer && mideleg c 9 <;>
        cases p.external && mideleg c 8 <;> rfl
  rw [testBit_mask _ _ hk]
  cases mstatusSie c with
  | false => simp
  | true =>
    rw [if_pos rfl, BitVec.getLsbD_and, hfor, updateMipCsr_other c p (by decide)]
    rfl

/-- What the dispatch selects, once the lines are in `mip`. -/
theorem selectInterrupt_eq : (c.updateMipCsr p).selectInterrupt =
    match if mstatusMie c then selected c p else none with
    | some src => some (.machine src.interrupt)
    | none => if mstatusSie c then
        (delegated c p).map fun src => .supervisor (BitVec.ofNat 32 src.sieBit) else none := by
  have hsie : (((c.updateMipCsr p).sstatus >>> 1) &&& 0x1 != 0) = mstatusSie c := sstatus_sie _
  have hmie : (((c.updateMipCsr p).csrRegisters 0x300 >>> 3) &&& 0x1 != 0) = mstatusMie c :=
    testBit_shift _ _
  have hm1 := machineBit_eq c p .software
  have hm2 := machineBit_eq c p .timer
  have hm3 := machineBit_eq c p .external
  have hs1 := supervisorBit_eq c p .software
  have hs2 := supervisorBit_eq c p .timer
  have hs3 := supervisorBit_eq c p .external
  change (_ &&& 0x800 != 0) = _ at hm1
  change (_ &&& 0x200 != 0) = _ at hm2
  change (_ &&& 0x100 != 0) = _ at hm3
  change (_ &&& 0x2 != 0) = _ at hs1
  change (_ &&& 0x20 != 0) = _ at hs2
  change (_ &&& 0x200 != 0) = _ at hs3
  unfold Core.selectInterrupt
  simp only [hsie, hmie, hm1, hm2, hm3, hs1, hs2, hs3]
  unfold selected delegated
  simp only [List.find?_cons, List.find?_nil]
  cases mstatusMie c <;> cases dueAt c p Source.software.bit .software <;>
    cases dueAt c p Source.timer.bit .timer <;> cases dueAt c p Source.external.bit .external <;>
      cases mstatusSie c <;> cases Source.software.pending p && mideleg c Source.software.bit &&
        sie c Source.software.sieBit <;>
      cases Source.timer.pending p && mideleg c Source.timer.bit && sie c Source.timer.sieBit <;>
      cases Source.external.pending p && mideleg c Source.external.bit &&
        sie c Source.external.sieBit <;> rfl

theorem interruptTaken_eq : c.interruptTaken p =
    if noticed c p then
      match if mstatusMie c then selected c p else none with
      | some src => some (.machine src.interrupt)
      | none => if mstatusSie c then
          (delegated c p).map fun src => .supervisor (BitVec.ofNat 32 src.sieBit) else none
    else none := by
  unfold Core.interruptTaken
  rw [checkPendingInterrupts_eq, selectInterrupt_eq]

/-! ## Entering a handler -/

theorem takeInterrupt_entered (src : Source) : Entered c src (c.takeInterrupt src.interrupt) := by
  have hmie : mstatusMie (c.takeInterrupt src.interrupt) = false := by
    simp [mstatusMie, Core.takeInterrupt, Core.writeCsr, Core.setCsr, Core.setPc]
  cases src with
  | software | timer | external => exact ⟨rfl, rfl, hmie, rfl⟩

theorem takeSupervisorInterrupt_mstatus (cause : Word) :
    mstatusMie (c.takeSupervisorInterrupt cause) = mstatusMie c ∧
      mstatusSie (c.takeSupervisorInterrupt cause) = false := by
  unfold mstatusMie mstatusSie Core.takeSupervisorInterrupt
  simp [Core.writeCsr, Core.setCsr, Core.setPc]

/-- What is selected is due at its own bit, and nothing asked for before it is. -/
theorem selected_eq_some (src : Source) : selected c p = some src ↔
    dueAt c p src.bit src = true ∧
      ∀ other : Source, src.bit < other.bit → dueAt c p other.bit other = false := by
  have hall : ∀ P : Source → Prop, (∀ s, P s) ↔ P .software ∧ P .timer ∧ P .external :=
    fun P => ⟨fun h => ⟨h _, h _, h _⟩, fun h s => by cases s; exacts [h.1, h.2.1, h.2.2]⟩
  unfold selected
  rw [hall]
  simp only [List.find?_cons, List.find?_nil]
  cases src <;> cases h1 : dueAt c p Source.software.bit .software <;>
    cases h2 : dueAt c p Source.timer.bit .timer <;>
      cases h3 : dueAt c p Source.external.bit .external <;> simp [Source.bit]

/-- The core looks at all the sources. -/
theorem find?_sources_eq_none (f : Source → Bool) :
    [Source.software, .timer, .external].find? f = none ↔ ∀ src, f src = false := by
  rw [List.find?_eq_none]
  constructor
  · intro h src
    exact Bool.eq_false_iff.mpr (h src (by cases src <;> simp))
  · intro h src _
    rw [h src]
    exact Bool.false_ne_true

theorem selected_eq_none : selected c p = none ↔ ∀ src : Source, dueAt c p src.bit src = false :=
  find?_sources_eq_none _

theorem delegated_eq_none : delegated c p = none ↔
    ∀ src : Source, (src.pending p && mideleg c src.bit && sie c src.sieBit) = false :=
  find?_sources_eq_none _

/-- A machine interrupt that is due at the core's bit is noticed. -/
theorem noticed_of_due {src : Source} (h : dueAt c p src.bit src = true) : noticed c p = true := by
  unfold dueAt at h
  rw [Bool.and_eq_true] at h
  unfold noticed
  cases src <;> simp only [Source.pending, Source.bit] at h <;> simp [h.1]

/-- With interrupts enabled a machine interrupt is taken if it is selected. -/
theorem interruptTaken_eq_machine (hmie : mstatusMie c = true) (src : Source) :
    c.interruptTaken p = some (.machine src.interrupt) ↔ selected c p = some src := by
  have hinj : ∀ src' : Source, src'.interrupt = src.interrupt ↔ src' = src := by
    intro src'
    cases src' <;> cases src <;> simp [Source.interrupt]
  rw [interruptTaken_eq, hmie, if_pos rfl]
  cases hsel : selected c p with
  | some src' =>
    rw [noticed_of_due c p ((selected_eq_some c p src').mp hsel).1]
    simp [hinj]
  | none =>
    refine iff_of_false (fun h => ?_) nofun
    split at h
    · simp only at h
      split at h
      · obtain ⟨_, _, hsup⟩ := Option.map_eq_some_iff.mp h
        cases hsup
      · cases h
    · cases h

theorem interruptTaken_eq_none : c.interruptTaken p = none ↔
    (mstatusMie c = true → selected c p = none) ∧
      (noticed c p = true → mstatusSie c = true → delegated c p = none) := by
  rw [interruptTaken_eq]
  cases hsel : selected c p with
  | some src =>
    rw [noticed_of_due c p ((selected_eq_some c p src).mp hsel).1]
    cases mstatusMie c <;> cases mstatusSie c <;> simp
  | none => cases noticed c p <;> cases mstatusMie c <;> cases mstatusSie c <;> simp

end

/-! ## Delivery -/

section
variable {c : Core} {p : PendingLines}

theorem handleInterrupt_taken {interrupt : Interrupt} (h : c.interruptTaken p = some interrupt) :
    c.handleInterrupt p = (c.updateMipCsr p).enter interrupt := by
  rw [Core.handleInterrupt_eq, h]
  rfl

/-- A supervisor interrupt is taken only if SIE is set. -/
theorem supervisor_sie {cause : Word} (h : c.interruptTaken p = some (.supervisor cause)) :
    mstatusSie c = true := by
  rw [interruptTaken_eq] at h
  split at h
  · split at h
    · cases h
    · split at h
      · assumption
      · cases h
  · cases h

/-- A machine interrupt is one of the three, and taken only if MIE is set. -/
theorem machine_mie {e : ExceptionType} (h : c.interruptTaken p = some (.machine e)) :
    mstatusMie c = true ∧ ∃ src : Source, e = src.interrupt := by
  rw [interruptTaken_eq] at h
  split at h
  · split at h
    · next src hsrc =>
      split at hsrc
      · next hmie => exact ⟨hmie, src, (Interrupt.machine.inj (Option.some.inj h)).symm⟩
      · cases hsrc
    · split at h
      · obtain ⟨_, _, hsup⟩ := Option.map_eq_some_iff.mp h
        cases hsup
      · cases h
  · cases h

theorem entered_mip {src : Source} {c' : Core} (h : Entered (c.updateMipCsr p) src c') :
    Entered c src c' := ⟨h.cause, h.epc, h.disabled, h.target⟩

/-- With interrupts enabled, a handler is entered exactly for the interrupt that is
taken. -/
theorem entered_iff (hmie : mstatusMie c = true) (src : Source) :
    Entered c src (c.handleInterrupt p) ↔ c.interruptTaken p = some (.machine src.interrupt) := by
  constructor
  · intro h
    have hkept : ∀ c' : Core, mstatusMie c' = mstatusMie c → c' ≠ c.handleInterrupt p := by
      rintro c' hc rfl
      rw [h.disabled, hmie] at hc
      cases hc
    cases htaken : c.interruptTaken p with
    | none => exact absurd (Core.handleInterrupt_none htaken).symm (hkept _ rfl)
    | some interrupt =>
      cases interrupt with
      | machine e =>
        obtain ⟨_, src', rfl⟩ := machine_mie htaken
        have hcause := h.cause
        rw [handleInterrupt_taken htaken] at hcause
        have hcause' := (takeInterrupt_entered (c.updateMipCsr p) src').cause
        have hcode := hcause'.symm.trans hcause
        cases src <;> cases src' <;> first | rfl | exact absurd hcode (by decide)
      | supervisor cause =>
        exact absurd (handleInterrupt_taken htaken).symm
          (hkept _ (takeSupervisorInterrupt_mstatus _ cause).1)
  · intro h
    rw [handleInterrupt_taken h]
    exact entered_mip (takeInterrupt_entered (c.updateMipCsr p) src)

/-- If only `mip` has changed, no interrupt is taken, and the other way round. -/
theorem undisturbed_iff :
    (∃ mip, c.handleInterrupt p = c.setCsr 0x344 mip) ↔ c.interruptTaken p = none := by
  constructor
  · rintro ⟨mip, h⟩
    have hstatus : (c.handleInterrupt p).csrRegisters 0x300 = c.csrRegisters 0x300 := by
      rw [h]
      rfl
    have hmie : mstatusMie (c.handleInterrupt p) = mstatusMie c := congrArg (·.getLsbD 3) hstatus
    have hsie : mstatusSie (c.handleInterrupt p) = mstatusSie c := congrArg (·.getLsbD 1) hstatus
    cases htaken : c.interruptTaken p with
    | none => rfl
    | some interrupt =>
      rw [handleInterrupt_taken htaken] at hmie hsie
      cases interrupt with
      | machine e =>
        obtain ⟨hon, src, rfl⟩ := machine_mie htaken
        have hoff := (takeInterrupt_entered (c.updateMipCsr p) src).disabled
        rw [hon] at hmie
        exact absurd (hoff.symm.trans hmie) Bool.false_ne_true
      | supervisor cause =>
        have hoff := (takeSupervisorInterrupt_mstatus (c.updateMipCsr p) cause).2
        rw [supervisor_sie htaken] at hsie
        exact absurd (hoff.symm.trans hsie) Bool.false_ne_true
  · intro h
    exact ⟨_, Core.handleInterrupt_none h⟩

end

/-- The bits the core uses agree with those of the specification: what is due is
due by the core's bit too, with nothing asked for before it; and where nothing is
pending and enabled, nothing is by the core's bits, and no delegated interrupt
that is noticed. -/
structure BitsAgree (c : Core) (p : PendingLines) : Prop where
  due : mstatusMie c = true → ∀ src, due c p = some src → dueAt c p src.bit src = true ∧
    ∀ other : Source, src.bit < other.bit → dueAt c p other.bit other = false
  none : (∀ src : Source, (src.pending p && mie c src.code) = false) →
    (mstatusMie c = true → ∀ src : Source, dueAt c p src.bit src = false) ∧
      (noticed c p = true → mstatusSie c = true →
        ∀ src : Source, (src.pending p && mideleg c src.bit && sie c src.sieBit) = false)

/-- The interrupt handling with which every step of a core begins delivers
interrupts as specified exactly if the bits agree. -/
theorem interrupt_delivery_iff {N n : Nat} (s : Simulator N n) (i : Fin N) :
    Delivers (s.cores i) (s.pendingLines i) ((s.handleInterrupt i).cores i) ↔
      BitsAgree (s.cores i) (s.pendingLines i) := by
  have hcore : (s.handleInterrupt i).cores i =
      (s.cores i).handleInterrupt (s.pendingLines i) := Function.update_self ..
  rw [hcore]
  generalize s.cores i = c
  generalize s.pendingLines i = p
  constructor
  · intro h
    constructor
    · intro hmie src hdue
      rw [← selected_eq_some, ← interruptTaken_eq_machine c p hmie, ← entered_iff hmie]
      exact h.taken hmie src hdue
    · intro hnone
      rw [← selected_eq_none, ← delegated_eq_none, ← interruptTaken_eq_none, ← undisturbed_iff]
      exact h.none hnone
  · intro h
    constructor
    · intro hmie src hdue
      rw [entered_iff hmie, interruptTaken_eq_machine c p hmie, selected_eq_some]
      exact h.due hmie src hdue
    · intro hnone
      rw [undisturbed_iff, interruptTaken_eq_none, selected_eq_none, delegated_eq_none]
      exact h.none hnone

/-- A core with interrupts enabled and MTIE set, whose timer has run out. -/
def timerDue : Simulator 1 0 :=
  let s : Simulator 1 0 := .init 1 0 ⟨fun _ => 0⟩
  let s := (s.writeCsr (Fin.last 0) 0x300 0x8).writeCsr (Fin.last 0) 0x304 0x80
  { s with clint := s.clint.write 0x02004000 0 4 }

/-- Its interrupt is not taken. -/
theorem timer_not_taken :
    ¬Delivers (timerDue.cores 0) (timerDue.pendingLines 0)
      ((timerDue.handleInterrupt 0).cores 0) := by
  intro h
  have hentered := h.taken (by decide) .timer (by decide)
  exact absurd hentered.cause (by decide)

end RiscvEmulator.System
