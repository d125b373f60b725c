import RiscvEmulator.Memory.Coherence
import RiscvEmulator.System.AtomicStep

/-! # Runs of atomics on one word

Several cores execute atomic operations on one cached word in any order. The
operations on the L2 do not look at the data caches, and the minima and maxima
of a core are seen by no other core. The run is that of one memory word as long
as no other core has a copy of the word and the operations on the L2 find there
what the core's own cache shows. -/
namespace RiscvEmulator.System
open Memory Cores Isa Lib.LineCache

/-- An executed operation, with what it has left in `rd`. -/
structure AmoEvent where
  op : AmoOp
  rd : Isa.Reg
  operand : Word
  result : Word
deriving DecidableEq, Repr

/-- The operations whose primitive computes what they name. -/
def RightlyDecoded (op : AmoOp) : Prop := op ≠ .xor ∧ op ≠ .and

instance (op : AmoOp) : Decidable (RightlyDecoded op) := inferInstanceAs (Decidable (_ ∧ _))

/-- The operations one after another on a memory word: what is returned is the
word each finds, and `w` is what the last one leaves. -/
def OnOneWord (v : Word) : List AmoEvent → Word → Prop
  | [], w => w = v
  | e :: es, w => (e.rd ≠ 0 → e.result = v) ∧ OnOneWord (e.op.eval v e.operand) es w

namespace Simulator
variable {N n : Nat} {s s₁ s' t : Simulator N n} {i : Fin N} {x : WordAddr}

/-- Nobody else has a copy, and an operation on the L2 finds there what the own
cache shows. -/
structure FindsWord (s : Simulator N n) (i : Fin N) (op : AmoOp) (v : Word) (x : WordAddr) :
    Prop where
  alone : s.hierarchy.shared.NoOtherCopy i x
  synced : primitive op v ≠ none →
    s.hierarchy.shared.memory x = (s.hierarchy.shared.seenBy i).view x

/-- Runs in which the cores execute operations on `x`, each finding the word, and
between them steps without data access. -/
inductive AmoRun (x : WordAddr) : Simulator N n → List AmoEvent → Simulator N n → Prop
  | nil (s : Simulator N n) : AmoRun x s [] s
  | quiet {s s' t : Simulator N n} {i : Fin N} {es : List AmoEvent} :
    s.QuietStep i s' → AmoRun x s' es t → AmoRun x s es t
  | amo {s s₁ s' t : Simulator N n} {i : Fin N} {instr : RvA} {es : List AmoEvent} :
    s.Fetches i s₁ instr.encode → RightlyDecoded instr.op →
    (s.cores i).regs instr.rs1 = byteAddr x →
    s.FindsWord i instr.op ((s.cores i).regs instr.rs2) x →
    s.step i = .ok s' → AmoRun x s' es t →
    AmoRun x s
      (⟨instr.op, instr.rd, (s.cores i).regs instr.rs2, (s'.cores i).regs instr.rd⟩ :: es) t

/-- The primitives compute what they should. -/
theorem primitive_apply {op : AmoOp} {v : Word} {a : Atomic} (hop : RightlyDecoded op)
    (hp : primitive op v = some a) (old : Word) : a.apply old = op.eval old v := by
  cases op with
  | add | swap | or =>
    obtain rfl := Option.some.inj hp
    rfl
  | xor => exact absurd rfl hop.1
  | and => exact absurd rfl hop.2
  | min | max | minu | maxu => cases hp

/-- One operation of one core. -/
theorem amoHierarchy_current {h : Hierarchy N} {op : AmoOp} {v w : Word} (hg : h.Good)
    (hop : RightlyDecoded op) (hx : x.toNat < 0x10000000)
    (hw : h.shared.Current l1Geometry.line x w) (ho : h.shared.NoOtherCopy i x)
    (hsync : primitive op v ≠ none → h.shared.memory x = (h.shared.seenBy i).view x) :
    let r := amoHierarchy h i op (byteAddr x) v
    r.1 = w ∧ r.2.Good ∧ r.2.shared.Current l1Geometry.line x (op.eval w v) := by
  intro r
  have hmay : h.shared.MayRead l1Geometry.line i x := .inr (ho.noOtherDirty h.shared_granular)
  have hview := hw.view (h.shared_granular i) hmay
  cases hp : primitive op v with
  | some a =>
    obtain ⟨hr, hg', hs⟩ := amoHierarchy_primitive hg i hp x hx
    have hm : h.shared.memory x = w := (hsync (by rw [hp]; exact nofun)).trans hview
    rw [hm, primitive_apply hop hp] at hs
    exact ⟨hr.trans hm, hg', hs ▸ ho.through⟩
  | none =>
    obtain ⟨hr, hg', u, hu, hs⟩ := amoHierarchy_select hg i hp x hx
    rw [hview] at hs
    refine ⟨hr.trans hview, hg', ?_⟩
    have ho' : (h.shared.set i u).NoOtherCopy i x := Shared.set_noOtherCopy ho
    rw [hs]
    split
    · have hstore : ((h.shared.set i u).set i (((h.shared.set i u).seenBy i).storeBoth x
          (op.eval w v))).Current l1Geometry.line x (op.eval w v) := ho'.storeBoth
      rwa [Shared.seenBy_set, Shared.set_set] at hstore
    · have hstore : ((h.shared.set i u).set i (((h.shared.set i u).seenBy i).store l1Geometry.line
          x (op.eval w v))).Current l1Geometry.line x (op.eval w v) := ho'.store
      rwa [Shared.seenBy_set, Shared.set_set] at hstore

/-- The word, as all copies and the L2 agree on it. -/
def HoldsWord (s : Simulator N n) (x : WordAddr) (v : Word) : Prop :=
  s.hierarchy.shared.Current l1Geometry.line x v

theorem HoldsWord.ramWord {v : Word} (h : s.HoldsWord x v) (hg : s.hierarchy.Good)
    (hc : hasDataCache (byteAddr x) = true) (hr : s.hierarchy.shared.MayRead l1Geometry.line i x) :
    s.ramWord i (byteAddr x) = v := by
  rw [ramWord_cached hc hg]
  exact h.view (s.hierarchy.shared_granular i) hr

theorem HoldsWord.sameData {v : Word} (h : s.HoldsWord x v) (hd : SameData s t) :
    t.HoldsWord x v := by
  unfold HoldsWord
  rw [hd.shared]
  exact h

/-- One operation that finds the word. -/
theorem step_amo_word {instr : RvA} {v : Word} (hs : s.Sound) (hf : s.Fetches i s₁ instr.encode)
    (hop : RightlyDecoded instr.op) (ha : (s.cores i).regs instr.rs1 = byteAddr x)
    (hram : (byteAddr x).toNat < n) (hc : hasDataCache (byteAddr x) = true)
    (hfind : s.FindsWord i instr.op ((s.cores i).regs instr.rs2) x) (hv : s.HoldsWord x v)
    (hstep : s.step i = .ok s') :
    (s'.cores i).regs = ((s.cores i).isaState.write instr.rd v).regs ∧ s'.Sound ∧
      s'.HoldsWord x (instr.op.eval v ((s.cores i).regs instr.rs2)) := by
  obtain ⟨hg, hdata⟩ := hf.sameData hs.good (hs.untranslated i)
  obtain ⟨s'', hs'', hret⟩ := hf.step_amo (hs.untranslated i) (hs.zero i) (ha ▸ hram)
  obtain rfl : s'' = s' := Except.ok.inj (hs''.symm.trans hstep)
  rw [ha] at hret
  have hcur := amoHierarchy_current (i := i) hg hop (hasDataCache_word hc)
    (hv.sameData hdata) (hdata.shared ▸ hfind.alone) (hdata.shared ▸ hfind.synced)
  obtain ⟨hr, hg', hcur⟩ := hcur
  refine ⟨hr ▸ hret.regs, ?_, ?_⟩
  · refine hs.retired (t := (s₁.fetchPc i).2.setHierarchy _) hg' hdata.mmus
      (fun j hj => hf.others hj) hret ?_
    rw [State.write_zero]
    exact hs.zero i
  · unfold HoldsWord
    rw [hret.hierarchy]
    exact hcur

/-- A run of atomics is the run of one memory word. -/
theorem amoRun_onOneWord {es : List AmoEvent} {v : Word} (hrun : AmoRun x s es t) (hs : s.Sound)
    (hram : (byteAddr x).toNat < n) (hc : hasDataCache (byteAddr x) = true)
    (hv : s.HoldsWord x v) : ∃ w, OnOneWord v es w ∧ t.Sound ∧ t.HoldsWord x w := by
  induction hrun generalizing v with
  | nil s => exact ⟨v, rfl, hs, hv⟩
  | quiet hq _ ih =>
    obtain ⟨hs', hd⟩ := hs.quietStep hq
    exact ih hs' (hv.sameData hd)
  | amo hf hop ha hfind hstep _ ih =>
    obtain ⟨hregs, hs', hv'⟩ := step_amo_word hs hf hop ha hram hc hfind hv hstep
    obtain ⟨w, hw, ht⟩ := ih hs' hv'
    refine ⟨w, ⟨fun hrd => ?_, hw⟩, ht⟩
    rw [hregs]
    exact State.write_self _ v hrd

/-- Two cores about to execute `instr` on the word at 0x50000 with operand 5. -/
def bothAbout (instr : RvA) : Simulator 2 0x100000 :=
  loaded 2 0x100000 [instr.encode] fun _ r => if r = 5 then 0x50000 else if r = 6 then 5 else 0

def amoAdd : RvA := ⟨.add, ⟨false, false⟩, 7, 5, 6⟩

/-- The state core 0 leaves to core 1. -/
def afterFirstAdd : Simulator 2 0x100000 :=
  (bothAbout amoAdd).stepped core0

theorem afterFirstAdd_eq : (bothAbout amoAdd).step 0 = .ok afterFirstAdd :=
  step_stepped (by decide +kernel)

theorem amoRun_onOneWord_adds : ∃ (es : List AmoEvent) (t : Simulator 2 0x100000) (w : Word),
    OnOneWord 0 es w ∧ t.Sound ∧ t.HoldsWord (wordOf 0x50000) w ∧ es.map (·.result) = [0, 5] := by
  have hs : (bothAbout amoAdd).Sound := loaded_sound 2 0x100000 _ fun _ => rfl
  have hv : (bothAbout amoAdd).HoldsWord (wordOf 0x50000) 0 := by
    have h :=
      Hierarchy.init_coherent (N := 2) (ByteMemory.writeBlock ⟨fun _ => 0⟩ 0 [amoAdd.encode])
      (wordOf 0x50000)
    have hzero : Hierarchy.ddrWords (ByteMemory.writeBlock ⟨fun _ => 0⟩ 0 [amoAdd.encode])
      (wordOf 0x50000) = 0 := by decide +kernel
    rw [hzero] at h
    exact h
  have hf₀ : (bothAbout amoAdd).Fetches 0 ((bothAbout amoAdd).handleInterrupt 0) amoAdd.encode :=
    ⟨(loaded_running ..).prepare_eq, by decide +kernel⟩
  have hrun₁ : afterFirstAdd.Running 1 := by decide +kernel
  have hf₁ : afterFirstAdd.Fetches 1 (afterFirstAdd.handleInterrupt 1) amoAdd.encode :=
    ⟨hrun₁.prepare_eq, by decide +kernel⟩
  have hfind₀ : (bothAbout amoAdd).FindsWord 0 .add 5 (wordOf 0x50000) :=
    ⟨by simp only [Shared.NoOtherCopy]; decide +kernel, fun _ => by decide +kernel⟩
  have hfind₁ : afterFirstAdd.FindsWord 1 .add 5 (wordOf 0x50000) :=
    ⟨by simp only [Shared.NoOtherCopy]; decide +kernel, fun _ => by decide +kernel⟩
  have hlast : afterFirstAdd.step 1 = .ok (afterFirstAdd.stepped 1) :=
    step_stepped (by decide +kernel)
  obtain ⟨w, hw, ht, hword⟩ := amoRun_onOneWord
    (.amo hf₀ (by decide) rfl hfind₀ afterFirstAdd_eq
      (.amo hf₁ (by decide) (by decide +kernel) hfind₁ hlast (.nil _)))
    hs (by decide) (by decide) hv
  exact ⟨_, _, w, hw, ht, hword, by decide +kernel⟩

def amoMax : RvA := ⟨.max, ⟨false, false⟩, 7, 5, 6⟩

/-- Core 0 and then core 1 execute AMOMAX with 5 on a word that is 0: the second
one returns 0, where one memory word would give it 5. -/
theorem amomax_hides_update :
    ([0, 1].foldlM step (bothAbout amoMax)).toOption.map
      (fun s => ((s.cores 0).regs 7, (s.cores 1).regs 7)) = some (0, 0) ∧
    ∀ w, ¬OnOneWord 0 [⟨.max, 7, 5, 0⟩, ⟨.max, 7, 5, 0⟩] w := by
  refine ⟨by decide +kernel, ?_⟩
  intro w h
  exact absurd (h.2.1 (by decide)) (by decide)

end Simulator
end RiscvEmulator.System
