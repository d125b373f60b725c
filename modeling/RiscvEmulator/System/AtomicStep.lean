import RiscvEmulator.Isa.RvA
import RiscvEmulator.System.DataStep

/-! # Steps of the atomics

AMOADD, AMOSWAP and the logical operations act on the L2 and drop the core's own
copy; the minima and maxima read and write through the core's data cache. All of
them use the caches for every address of RAM, also where loads and stores do
not. -/
namespace RiscvEmulator.System
open Memory Cores Isa Lib.LineCache

/-! ## What an atomic does to the hierarchy -/

/-- The primitive of the data cache behind an operation: AMOXOR and AMOAND have
each other's. The minima and maxima have none. -/
def primitive : AmoOp → Word → Option Atomic
  | .add, v => some (.add v)
  | .swap, v => some (.swap v)
  | .xor, v => some (.fetchAndAnd v)
  | .or, v => some (.fetchAndOr v)
  | .and, v => some (.fetchAndXor v)
  | _, _ => none

def amoHierarchy {N : Nat} (h : Hierarchy N) (i : Fin N) (op : AmoOp) (addr v : Word) :
    Word × Hierarchy N :=
  match primitive op v with
  | some a => h.atomic i addr a
  | none =>
    let (old, h) := h.readWord i addr
    (old, h.writeWord i addr (op.eval old v))

/-- The word an operation starts from: that of the L2, or that of the data cache. -/
def amoSource {N : Nat} (h : Hierarchy N) (i : Fin N) (op : AmoOp) (addr v : Word) : Word :=
  match primitive op v with
  | some _ => (MemoryInterface.readWord h.l2Cache addr).1
  | none => (h.readWord i addr).1

theorem amoHierarchy_source {N : Nat} (h : Hierarchy N) (i : Fin N) (op : AmoOp)
    (addr v : Word) : (amoHierarchy h i op addr v).1 = amoSource h i op addr v := by
  cases op <;> rfl

section
variable {N : Nat} {h : Hierarchy N} {op : AmoOp} {v : Word}

/-- An operation on the L2. -/
theorem amoHierarchy_primitive (hg : h.Good) (i : Fin N) {a : Atomic} (hp : primitive op v = some a)
    (x : WordAddr) (hx : x.toNat < 0x10000000) :
    let r := amoHierarchy h i op (byteAddr x) v
    r.1 = h.shared.memory x ∧ r.2.Good ∧ r.2.shared = h.shared.set i
      ((h.shared.seenBy i).through l1Geometry.line x (a.apply (h.shared.memory x))) := by
  unfold amoHierarchy
  rw [hp]
  exact h.atomic_spec hg i x a hx

/-- An operation through the data cache. -/
theorem amoHierarchy_select (hg : h.Good) (i : Fin N) (hp : primitive op v = none)
    (x : WordAddr) (hx : x.toNat < 0x10000000) :
    let r := amoHierarchy h i op (byteAddr x) v
    let w := op.eval ((h.shared.seenBy i).view x) v
    r.1 = (h.shared.seenBy i).view x ∧ r.2.Good ∧
      ∃ t, Touch l1Geometry.line x (h.shared.seenBy i) t ∧ r.2.shared = h.shared.set i
        (if isWriteThrough (byteAddr x) then t.storeBoth x w else t.store l1Geometry.line x w) := by
  intro r w
  obtain ⟨hold, hg₁, t, ht, hs⟩ := h.readWord_spec hg i x
  obtain ⟨hg₂, u, hu, hs₂⟩ := Hierarchy.writeWord_spec hg₁ i x w hx
  rw [hs, Shared.seenBy_set] at hu
  rw [ht.again hu, hs, Shared.set_set] at hs₂
  have hr : r = ((h.readWord i (byteAddr x)).1,
      (h.readWord i (byteAddr x)).2.writeWord i (byteAddr x) w) := by
    simp only [r, amoHierarchy, hp, hold]
    rfl
  rw [hr]
  exact ⟨hold, hg₂, t, ht, hs₂⟩

end

namespace Simulator
variable {N n : Nat} {s s₁ t : Simulator N n} {i : Fin N} {instr : Word}

/-- When the minima and maxima keep the old word. -/
def keepsOld : AmoOp → Word → Word → Bool
  | .min, old, v => old.slt v
  | .max, old, v => v.slt old
  | .minu, old, v => old < v
  | .maxu, old, v => v < old
  | _, _, _ => false

/-- They keep it exactly if it is the result. -/
theorem keepsOld_value {op : AmoOp} {old v : Word} (hp : primitive op v = none) :
    (if keepsOld op old v then old else v) = op.eval old v := by
  have hs : old.toInt = v.toInt → old = v := BitVec.eq_of_toInt_eq
  have hu : old.toNat = v.toNat → old = v := BitVec.eq_of_toNat_eq
  cases op with
  | add | swap | xor | or | and => cases hp
  | min | max =>
    simp only [keepsOld, AmoOp.eval, BitVec.slt_eq_decide, decide_eq_true_eq]
    split <;> split <;> first | rfl | omega | exact (hs (by omega)).symm
  | minu | maxu =>
    simp only [keepsOld, AmoOp.eval, BitVec.lt_def, decide_eq_true_eq]
    split <;> split <;> first | rfl | omega | exact (hu (by omega)).symm

/-- The dispatch of the switch. -/
theorem amoRam_funct5 (t : Simulator N n) (i : Fin N) (op : AmoOp) (rd : Cores.Reg)
    (addr v : Word) : t.amoRam i rd op.funct5 addr v =
      match primitive op v with
      | some a => t.amoCache i rd addr a
      | none => t.amoSelect i rd addr v (keepsOld op) := by
  cases op <;> rfl

theorem Untranslated.amoRam_eq (hu : t.Untranslated i) (op : AmoOp) (rd : Cores.Reg)
    (addr v : Word) : t.amoRam i rd op.funct5 addr v =
      (t.setHierarchy (amoHierarchy t.hierarchy i op addr v).2).finish i rd
        (amoHierarchy t.hierarchy i op addr v).1 := by
  rw [amoRam_funct5]
  unfold amoHierarchy
  cases hp : primitive op v with
  | some a =>
    simp only [amoCache, hu.dataAtomic_eq]
    rfl
  | none =>
    have hu' : (t.setHierarchy (t.hierarchy.readWord i addr).2).Untranslated i := hu
    have hw := hu'.dataWriteWord_eq addr
      (op.eval (t.hierarchy.readWord i addr).1 v)
    simp only [amoSelect, hu.dataReadWord_eq, keepsOld_value hp]
    exact congrArg (fun t : Simulator N n => t.finish i rd _) hw

/-- The switch on an atomic instruction. -/
theorem execute_atomic (t : Simulator N n) (i : Fin N) (funct5 : BitVec 5) (ord : OrderBits)
    (rs2 rs1 rd : Isa.Reg) : t.execute i (atomicType funct5 ord rs2 rs1 rd) =
      .ok (match t.translate i ((t.cores i).regs rs1) false false with
        | (.error ex, t) => t.fault i ex
        | (.ok physAddr, v) =>
          if physAddr.toNat < n then
            v.amoRam i rd funct5 ((t.cores i).regs rs1) ((t.cores i).regs rs2)
          else v.finish i rd 0) := by
  obtain ⟨hop, hrd, h3, h1, h2, h5⟩ := atomicType_fields funct5 ord rs2 rs1 rd
  unfold execute
  simp only [opcode, hop]
  unfold amo rdOf funct3Of rs1Of rs2Of funct7Of
  simp only [hrd, h3, h1, h2, h5]
  rfl

/-- The switch on an atomic instruction whose address is in RAM. -/
theorem Untranslated.execute_atomicType (hu : t.Untranslated i) (funct5 : BitVec 5)
    (ord : OrderBits) (rs2 rs1 rd : Isa.Reg) (hram : ((t.cores i).regs rs1).toNat < n) :
    t.execute i (atomicType funct5 ord rs2 rs1 rd) =
      .ok (t.amoRam i rd funct5 ((t.cores i).regs rs1) ((t.cores i).regs rs2)) := by
  rw [execute_atomic, hu.translate_eq]
  exact congrArg Except.ok (if_pos hram)

/-- A step that fetches an atomic instruction on RAM, by what the switch does. -/
theorem Fetches.step_atomicType {funct5 : BitVec 5} {ord : OrderBits} {rs2 rs1 rd : Isa.Reg}
    {hier : Hierarchy N} {v : Word} (h : s.Fetches i s₁ (atomicType funct5 ord rs2 rs1 rd))
    (hu : s.Untranslated i) (hx0 : (s.cores i).regs 0 = 0)
    (hram : ((s.cores i).regs rs1).toNat < n)
    (hamo : (s₁.fetchPc i).2.amoRam i rd funct5 ((s.cores i).regs rs1) ((s.cores i).regs rs2) =
      ((s₁.fetchPc i).2.setHierarchy hier).finish i rd v) :
    ∃ s', s.step i = .ok s' ∧ Retired ((s₁.fetchPc i).2.setHierarchy hier) i
      ((s.cores i).isaState.write rd v).regs s' := by
  have ht := h.untranslated hu
  have hregs := h.regs
  have hstep := h.step_eq
  generalize (s₁.fetchPc i).2 = t at ht hregs hstep hamo ⊢
  have hexec := ht.execute_atomicType funct5 ord rs2 rs1 rd (by rw [hregs]; exact hram)
  rw [hregs, hamo] at hexec
  have hret := retire_finish (t.setHierarchy hier) i rd v (by rw [← hx0, ← hregs]; rfl)
  have hwrite : (((t.setHierarchy hier).cores i).isaState.write rd v).regs =
      ((s.cores i).isaState.write rd v).regs := by
    simp only [State.write, Core.isaState, ← hregs]
    rfl
  rw [hwrite] at hret
  refine ⟨_, ?_, hret⟩
  rw [hstep, hexec]
  rfl

/-- An atomic operation on RAM is performed on the hierarchy the fetch leaves. -/
theorem Fetches.step_amo {instr : RvA} (h : s.Fetches i s₁ instr.encode) (hu : s.Untranslated i)
    (hx0 : (s.cores i).regs 0 = 0) (hram : ((s.cores i).regs instr.rs1).toNat < n) :
    let r := amoHierarchy (s₁.fetchPc i).2.hierarchy i instr.op ((s.cores i).regs instr.rs1)
      ((s.cores i).regs instr.rs2)
    ∃ s', s.step i = .ok s' ∧ Retired ((s₁.fetchPc i).2.setHierarchy r.2) i
      ((s.cores i).isaState.write instr.rd r.1).regs s' :=
  h.step_atomicType hu hx0 hram ((h.untranslated hu).amoRam_eq ..)

/-! ## The A extension -/

/-- The step leaves the old word in `rd` and the defined one in memory, as loads
of the core find them. -/
def MeetsAmo (s : Simulator N n) (i : Fin N) (instr : RvA) : Prop :=
  let addr := (s.cores i).regs instr.rs1
  let old := s.ramWord i addr
  ∃ s', s.step i = .ok s' ∧ (s'.cores i).regs = ((s.cores i).isaState.write instr.rd old).regs ∧
    s'.ramWord i addr = instr.op.eval old ((s.cores i).regs instr.rs2)

/-- When an operation is right that starts from `source` where the word a load
finds is `old`. A word that is not cached is left alone. -/
def AmoRight (instr : RvA) (cached : Bool) (old source v : Word) : Prop :=
  (instr.rd = 0 ∨ source = old) ∧
    if cached then
      match instr.op with
      | .add => source = old
      | .xor => source &&& v = old ^^^ v
      | .and => source ^^^ v = old &&& v
      | .or => source ||| v = old ||| v
      | .swap | .min | .max | .minu | .maxu => True
    else instr.op.eval old v = old

theorem write_regs_inj {st : Isa.State} {rd : Isa.Reg} {v w : Word} :
    (st.write rd v).regs = (st.write rd w).regs ↔ rd = 0 ∨ v = w := by
  simp only [State.write]
  by_cases hrd : rd = 0
  · rw [if_pos hrd, if_pos hrd]
    exact iff_of_true rfl (.inl hrd)
  · rw [if_neg hrd, if_neg hrd, or_iff_right hrd]
    exact (Function.update_injective _ _).eq_iff

/-- What a load of the core finds in a cached word after an operation on it. -/
theorem amoHierarchy_view {h : Hierarchy N} (hg : h.Good) (i : Fin N) (op : AmoOp) (x : WordAddr)
    (v : Word) (hx : x.toNat < 0x10000000) :
    let r := amoHierarchy h i op (byteAddr x) v
    r.2.Good ∧ (r.2.shared.seenBy i).view x =
      match primitive op v with
      | some a => a.apply (amoSource h i op (byteAddr x) v)
      | none => op.eval (amoSource h i op (byteAddr x) v) v := by
  intro r
  cases hp : primitive op v with
  | some a =>
    obtain ⟨hr, hg', hs⟩ := amoHierarchy_primitive hg i hp x hx
    refine ⟨hg', ?_⟩
    rw [hs, Shared.seenBy_set, through_view_apply, if_pos rfl, ← hr, amoHierarchy_source]
  | none =>
    obtain ⟨hr, hg', t, _, hs⟩ := amoHierarchy_select hg i hp x hx
    refine ⟨hg', ?_⟩
    rw [hs, Shared.seenBy_set, ← amoHierarchy_source, hr]
    split
    · rw [storeBoth_view, Function.update_self]
    · rw [store_view, Function.update_self]

theorem amoRight_cached_iff {h : Hierarchy N} (hg : h.Good) (i : Fin N) (op : AmoOp)
    (x : WordAddr) (v : Word) (hx : x.toNat < 0x10000000) :
    let r := amoHierarchy h i op (byteAddr x) v
    let old := (h.shared.seenBy i).view x
    let source := amoSource h i op (byteAddr x) v
    (r.2.shared.seenBy i).view x = op.eval old v ↔
      match op with
      | .add => source = old
      | .xor => source &&& v = old ^^^ v
      | .and => source ^^^ v = old &&& v
      | .or => source ||| v = old ||| v
      | .swap | .min | .max | .minu | .maxu => True := by
  intro r old source
  have hsource : primitive op v = none → source = old := by
    intro hp
    obtain ⟨hr, _⟩ := amoHierarchy_select hg i hp x hx
    exact (amoHierarchy_source h i op (byteAddr x) v).symm.trans hr
  rw [(amoHierarchy_view hg i op x v hx).2]
  cases op with
  | add => exact BitVec.add_left_inj v
  | swap => exact iff_of_true rfl trivial
  | xor | and | or => rfl
  | min | max | minu | maxu =>
    exact iff_of_true (congrArg (AmoOp.eval _ · v) (hsource rfl)) trivial

/-- An atomic operation is right exactly where the word it starts from is the one
a load finds, as far as `rd` and the result depend on it, and AMOXOR and AMOAND
give by chance what they should. -/
theorem step_amo_iff {instr : RvA} (h : s.Fetches i s₁ instr.encode) (hg : s.hierarchy.Good)
    (hu : s.Untranslated i) (hx0 : (s.cores i).regs 0 = 0)
    (ha : Aligned ((s.cores i).regs instr.rs1))
    (hram : ((s.cores i).regs instr.rs1).toNat < n) :
    s.MeetsAmo i instr ↔ AmoRight instr (hasDataCache ((s.cores i).regs instr.rs1))
      (s.ramWord i ((s.cores i).regs instr.rs1))
      (amoSource (s₁.fetchPc i).2.hierarchy i instr.op ((s.cores i).regs instr.rs1)
        ((s.cores i).regs instr.rs2)) ((s.cores i).regs instr.rs2) := by
  obtain ⟨s', hs', hret⟩ := h.step_amo hu hx0 hram
  obtain ⟨hgt, hdata⟩ := h.sameData hg hu
  have hmeets : s.MeetsAmo i instr ↔ (s'.cores i).regs = ((s.cores i).isaState.write instr.rd
        (s.ramWord i ((s.cores i).regs instr.rs1))).regs ∧
      s'.ramWord i ((s.cores i).regs instr.rs1) = instr.op.eval
        (s.ramWord i ((s.cores i).regs instr.rs1)) ((s.cores i).regs instr.rs2) := by
    unfold MeetsAmo
    rw [hs']
    exact ⟨fun ⟨_, hs, h⟩ => by cases hs; exact h, fun h => ⟨s', rfl, h⟩⟩
  rw [hmeets, hret.regs, write_regs_inj, amoHierarchy_source]
  unfold AmoRight
  refine and_congr_right fun _ => ?_
  generalize (s.cores i).regs instr.rs2 = v at hret ⊢
  generalize (s.cores i).regs instr.rs1 = addr at ha hram hret ⊢
  cases hc : hasDataCache addr with
  | true =>
    rw [← byteAddr_wordOf ha] at hc hret ⊢
    have hx := hasDataCache_word hc
    have hright := amoRight_cached_iff hgt i instr.op (wordOf addr) v hx
    have hg' := (amoHierarchy_view hgt i instr.op (wordOf addr) v hx).1
    rw [ramWord_cached hc (hret.hierarchy ▸ hg'), ramWord_cached hc hg, hret.hierarchy]
    rw [hdata.shared] at hright
    exact hright
  | false =>
    rw [ramWord_uncached hc, ramWord_uncached hc, hret.data.readWord]
    show (s₁.fetchPc i).2.readWord addr = _ ↔ _
    rw [hdata.readWord]
    exact eq_comm

/-- One core about to execute `instr` with an address in `x5` and an operand in
`x6`, memory full of zeros. -/
def aboutAtomic (instr : RvA) (addr v : Word) : Simulator 1 0x100000 :=
  loaded 1 0x100000 [instr.encode] fun _ r => if r = 5 then addr else if r = 6 then v else 0

theorem step_amo_add :
    (aboutAtomic ⟨.add, ⟨false, false⟩, 7, 5, 6⟩ 0x50000 3).MeetsAmo 0
      ⟨.add, ⟨false, false⟩, 7, 5, 6⟩ := by
  have hf : (aboutAtomic ⟨.add, ⟨false, false⟩, 7, 5, 6⟩ 0x50000 3).Fetches 0
      ((aboutAtomic ⟨.add, ⟨false, false⟩, 7, 5, 6⟩ 0x50000 3).handleInterrupt 0)
      (RvA.encode ⟨.add, ⟨false, false⟩, 7, 5, 6⟩) :=
    ⟨(loaded_running ..).prepare_eq, by decide +kernel⟩
  exact (step_amo_iff hf (loaded_good ..) (loaded_untranslated ..) rfl (by decide)
    (by decide)).mpr ⟨by decide +kernel, by decide +kernel⟩

/-- AMOXOR of 0 and 1 leaves 0 and AMOAND leaves 1. -/
theorem amoxor_performs_and :
    ¬(aboutAtomic ⟨.xor, ⟨false, false⟩, 7, 5, 6⟩ 0x50000 1).MeetsAmo 0
      ⟨.xor, ⟨false, false⟩, 7, 5, 6⟩ := by
  have hcode : ((aboutAtomic ⟨.xor, ⟨false, false⟩, 7, 5, 6⟩ 0x50000 1).step 0).toOption.map
      (·.ramWord 0 0x50000) = some 0 := by decide +kernel
  rintro ⟨s', hs', _, hword⟩
  have hspec : s'.ramWord 0 0x50000 = 1 := hword.trans (by decide +kernel)
  rw [hs'] at hcode
  have heq : s'.ramWord 0 0x50000 = 0 := Option.some.inj hcode
  rw [hspec] at heq
  exact absurd heq (by decide)

end Simulator
end RiscvEmulator.System
