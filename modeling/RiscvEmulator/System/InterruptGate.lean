import RiscvEmulator.System.InterruptDelivery

/-! # The gate before the dispatch

`check_pending_interrupts` decides whether the dispatch runs and whether a waiting core
goes on. The dispatch moves the bits of delegated interrupts to the places of `sie`
before it compares them; the gate compares them where they are in `mip`. -/
namespace RiscvEmulator.System
open Memory Cores

/-- What the dispatch would take, the gate lets through, and a waiting core wakes for
it. -/
structure GateAgrees {N n : Nat} (s : Simulator N n) (i : Fin N) : Prop where
  gate : ((s.cores i).updateMipCsr (s.pendingLines i)).selectInterrupt ≠ none →
    ((s.cores i).checkPendingInterrupts (s.pendingLines i)).1 = true
  wakes : (s.cores i).isWaitingForInterrupt = true →
    ((s.cores i).updateMipCsr (s.pendingLines i)).selectInterrupt ≠ none →
    (s.leaveWait i).1 = true

/-- Where a delegated interrupt is pending and enabled in `sie`, some line is up whose
bit is set in `mie`, or it is the timer with bit 9 of `sie` set too. -/
def GateSees (c : Core) (p : PendingLines) : Prop :=
  mstatusSie c = true →
    ∀ src : Source, src.pending p = true → mideleg c src.bit = true → sie c src.sieBit = true →
      (∃ other : Source, other.pending p = true ∧ mie c other.bit = true) ∨
        p.timer = true ∧ mideleg c 9 = true ∧ sie c 9 = true

variable (c : Core) (p : PendingLines)

/-- What the gate finds, by source. -/
theorem noticed_iff : noticed c p = true ↔
    (∃ src : Source, src.pending p = true ∧ mie c src.bit = true) ∨
      mstatusSie c = true ∧ p.timer = true ∧ mideleg c 9 = true ∧ sie c 9 = true := by
  have hex : ∀ P : Source → Prop, (∃ src, P src) ↔ P .software ∨ P .timer ∨ P .external := by
    intro P
    constructor
    · intro h
      obtain ⟨src, hsrc⟩ := h
      cases src with
      | software => exact .inl hsrc
      | timer => exact .inr (.inl hsrc)
      | external => exact .inr (.inr hsrc)
    · rintro (h | h | h)
      · exact ⟨_, h⟩
      · exact ⟨_, h⟩
      · exact ⟨_, h⟩
  rw [hex]
  simp only [noticed, Source.pending, Source.bit, Bool.or_eq_true, Bool.and_eq_true, or_assoc,
    and_assoc]

/-- The dispatch takes nothing if no machine interrupt is selected with MIE set, and no
delegated one with SIE set. -/
theorem selectInterrupt_eq_none : (c.updateMipCsr p).selectInterrupt = none ↔
    (mstatusMie c = true → selected c p = none) ∧
      (mstatusSie c = true → delegated c p = none) := by
  rw [selectInterrupt_eq]
  cases hsel : selected c p with
  | none => cases mstatusMie c <;> cases mstatusSie c <;> simp
  | some src =>
    cases mstatusMie c with
    | true => simp
    | false => cases mstatusSie c <;> simp

theorem gate_iff : ((c.updateMipCsr p).selectInterrupt ≠ none →
    (c.checkPendingInterrupts p).1 = true) ↔ GateSees c p := by
  rw [checkPendingInterrupts_eq, ne_eq, selectInterrupt_eq_none]
  constructor
  · intro hgate hsie src hpending hdeleg henabled
    -- the dispatch takes this one, or a machine interrupt
    have htakes : ¬((mstatusMie c = true → selected c p = none) ∧
        (mstatusSie c = true → delegated c p = none)) := by
      intro hnone
      have hdelegated := (delegated_eq_none c p).mp (hnone.2 hsie) src
      rw [hpending, hdeleg, henabled] at hdelegated
      cases hdelegated
    exact ((noticed_iff c p).mp (hgate htakes)).imp_right fun h => h.2
  · intro hsees htakes
    cases hsel : selected c p with
    | some src => exact noticed_of_due c p ((selected_eq_some c p src).mp hsel).1
    | none =>
      have hsup : ¬(mstatusSie c = true → delegated c p = none) :=
        fun h => htakes ⟨fun _ => hsel, h⟩
      rw [Classical.not_imp, delegated_eq_none, not_forall] at hsup
      obtain ⟨hsie, src, hsrc⟩ := hsup
      rw [Bool.not_eq_false, Bool.and_eq_true, Bool.and_eq_true] at hsrc
      rw [noticed_iff]
      exact (hsees hsie src hsrc.1.1 hsrc.1.2 hsrc.2).imp_right fun h => ⟨hsie, h⟩

/-- A waiting core goes on exactly if the gate lets it. -/
theorem leaveWait_fst {N n : Nat} (s : Simulator N n) (i : Fin N)
    (hwait : (s.cores i).isWaitingForInterrupt = true) :
    (s.leaveWait i).1 = ((s.cores i).checkPendingInterrupts (s.pendingLines i)).1 := by
  unfold Simulator.leaveWait
  rw [if_pos hwait]
  rcases (s.cores i).checkPendingInterrupts (s.pendingLines i) with ⟨pending, c⟩
  cases pending <;> rfl

/-- The gate lets through what the dispatch would take exactly if it sees the delegated
interrupts. -/
theorem gate_agrees_iff {N n : Nat} (s : Simulator N n) (i : Fin N) :
    GateAgrees s i ↔ GateSees (s.cores i) (s.pendingLines i) := by
  rw [← gate_iff]
  constructor
  · exact GateAgrees.gate
  · intro hgate
    refine ⟨hgate, fun hwait hselect => ?_⟩
    rw [leaveWait_fst s i hwait]
    exact hgate hselect

/-- A core with interrupts enabled in supervisor mode and the software interrupt
delegated and enabled there, whose software interrupt is pending. -/
def softwareDelegated : Simulator 1 0 :=
  let s : Simulator 1 0 := .init 1 0 ⟨fun _ => 0⟩
  let s := (s.writeCsr (Fin.last 0) 0x300 0x2).writeCsr (Fin.last 0) 0x304 0
  let s := (s.writeCsr (Fin.last 0) 0x30A 0x800).writeCsr (Fin.last 0) 0x104 0x2
  { s with clint := s.clint.write 0x02000000 1 4 }

/-- The gate is shut on it. -/
theorem gate_shut : ¬GateAgrees softwareDelegated 0 := by
  intro h
  exact absurd (h.gate (by decide)) (by decide)

end RiscvEmulator.System
