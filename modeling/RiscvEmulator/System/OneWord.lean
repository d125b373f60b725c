import RiscvEmulator.Lib.OneCell
import RiscvEmulator.System.AtomicStep
import RiscvEmulator.System.MappedAccess
import RiscvEmulator.System.Reservation

/-! # Plain and atomic accesses of one word

LW and SW go where the PMA table says, LR.W, SC.W, the minima and maxima always
through the data cache, and the other atomics to the L2. They act on one word as
long as what each of them reads is what the last store has left, wherever that
was. -/
namespace RiscvEmulator.System
open Memory Cores Isa Lib.LineCache Lib.OneCell

inductive WordOp where
  | lw | sw | lr | sc
  | amo (op : AmoOp)
deriving DecidableEq, Repr

/-- An instruction on a word. LW and SW have an immediate, the others ordering
bits. -/
structure WordInstr where
  op : WordOp
  rd : Isa.Reg
  rs1 : Isa.Reg
  rs2 : Isa.Reg
  imm : BitVec 12 := 0
  ord : OrderBits := ⟨false, false⟩
deriving DecidableEq, Repr

namespace WordInstr

def encode (instr : WordInstr) : Word :=
  match instr.op with
  | .lw => Load.encode ⟨.lw, instr.rd, instr.rs1, instr.imm⟩
  | .sw => Store.encode ⟨.sw, instr.rs2, instr.rs1, instr.imm⟩
  | .lr => loadReserved instr.ord instr.rs1 instr.rd
  | .sc => storeConditional instr.ord instr.rs2 instr.rs1 instr.rd
  | .amo op => RvA.encode ⟨op, instr.ord, instr.rd, instr.rs1, instr.rs2⟩

def address (instr : WordInstr) (regs : Isa.Reg → Word) : Word :=
  match instr.op with
  | .lw | .sw => regs instr.rs1 + instr.imm.signExtend 32
  | .lr | .sc | .amo _ => regs instr.rs1

theorem encode_opcode (instr : WordInstr) : opcode instr.encode ≠ 0x73 := by
  have hamo : ∀ funct5 ord rs2 rs1 rd, opcode (atomicType funct5 ord rs2 rs1 rd) = 0x2F :=
    fun funct5 ord rs2 rs1 rd => (atomicType_fields funct5 ord rs2 rs1 rd).1
  have hload : ∀ l : Load, opcode l.encode = 0x03 := by
    intro l
    exact (iType_fields l.rs1 l.op.funct3 l.rd 0x03 l.imm).1
  have hstore : ∀ st : Store, opcode st.encode = 0x23 := by
    intro st
    exact (sType_fields st.rs2 st.rs1 st.op.funct3 0x23 st.imm).1
  unfold encode
  split
  · rw [hload]
    decide
  · rw [hstore]
    decide
  all_goals
    first
    | rw [loadReserved, hamo]
      decide
    | rw [storeConditional, hamo]
      decide
    | rw [RvA.encode, hamo]
      decide

end WordInstr

/-- An executed instruction, with its operand and what it has left in `rd`. -/
structure WordEvent where
  op : WordOp
  rd : Isa.Reg
  operand : Word
  result : Word
deriving DecidableEq, Repr

/-- One memory word. SC.W succeeds, as nothing else stores in between. -/
def wordCell : Cell WordEvent Word where
  fits e m := e.rd ≠ 0 →
    match e.op with
    | .lw | .lr | .amo _ => e.result = m
    | .sc => e.result = 0
    | .sw => True
  next e m :=
    match e.op with
    | .lw | .lr => m
    | .sw | .sc => e.operand
    | .amo op => op.eval m e.operand

namespace Simulator
variable {N n : Nat} {s s₁ s' t : Simulator N n} {i : Fin N} {x : WordAddr} {p q : Place}

/-! ## Places of the atomics -/

/-- Where an operation finds the word and leaves it. -/
def amoPlace (op : AmoOp) (v : Word) : Place := if (primitive op v).isSome then .l2 else .dataCache

/-- What it makes of the word there. -/
def amoResult (op : AmoOp) (old v : Word) : Word :=
  match primitive op v with
  | some a => a.apply old
  | none => op.eval old v

theorem amo_wordAt (hg : t.hierarchy.Good) (i : Fin N) (op : AmoOp) (v : Word)
    (hx : x.toNat < 0x10000000) :
    let r := amoHierarchy t.hierarchy i op (byteAddr x) v
    r.1 = t.wordAt i x (amoPlace op v) ∧ r.2.Good ∧
      (t.setHierarchy r.2).wordAt i x (amoPlace op v) =
        amoResult op (t.wordAt i x (amoPlace op v)) v := by
  intro r
  unfold amoPlace amoResult
  cases hp : primitive op v with
  | some a =>
    obtain ⟨hr, hg', hs⟩ := amoHierarchy_primitive hg i hp x hx
    refine ⟨hr, hg', ?_⟩
    show r.2.shared.memory x = a.apply (t.hierarchy.shared.memory x)
    rw [hs, Shared.set_memory, through_memory, Function.update_self]
  | none =>
    obtain ⟨hr, hg', _⟩ := amoHierarchy_select hg i hp x hx
    have hview := (amoHierarchy_view hg i op x v hx).2
    rw [hp, ← amoHierarchy_source, hr] at hview
    exact ⟨hr, hg', hview⟩

/-! ## The step -/

/-- Where an instruction leaves the word. -/
def storePlace (x : WordAddr) (e : WordEvent) (p : Place) : Place :=
  match e.op with
  | .lw | .lr => p
  | .sw => plainPlace (byteAddr x)
  | .sc => .dataCache
  | .amo op => amoPlace op e.operand

/-- Core `i` executes an instruction on the word `x`. -/
inductive WordAccess (i : Fin N) (x : WordAddr) :
    Simulator N n → WordEvent → Simulator N n → Prop
  | execute {s s₁ s' : Simulator N n} {instr : WordInstr} :
    s.Fetches i s₁ instr.encode → instr.address (s.cores i).regs = byteAddr x →
    s.step i = .ok s' →
    WordAccess i x s ⟨instr.op, instr.rd, (s.cores i).regs instr.rs2,
      (s'.cores i).regs instr.rd⟩ s'

/-- What the instruction reads, as far as `rd` and the result depend on it, is what
there is at `p`. -/
def FindsLast (s : Simulator N n) (i : Fin N) (x : WordAddr) (p : Place) (e : WordEvent) : Prop :=
  match e.op with
  | .lw => e.rd = 0 ∨ s.wordAt i x (plainPlace (byteAddr x)) = s.wordAt i x p
  | .lr => e.rd = 0 ∨ s.wordAt i x .dataCache = s.wordAt i x p
  | .sw | .sc => True
  | .amo op => (e.rd = 0 ∨ s.wordAt i x (amoPlace op e.operand) = s.wordAt i x p) ∧
    amoResult op (s.wordAt i x (amoPlace op e.operand)) e.operand =
      op.eval (s.wordAt i x p) e.operand

/-- The invariant of a run on `x`: no translation, caches in order, and `x` in RAM. -/
structure OnWord (s : Simulator N n) (i : Fin N) (x : WordAddr) : Prop where
  inOrder : s.InOrder i
  untranslated : s.Untranslated i
  ram : s.RamWord x

theorem ramWord_lt (hx : s.RamWord x) : (byteAddr x).toNat < n := by
  have hin := hx.inside
  rw [byteAddr_toNat]
  omega

/-- An atomic instruction, by what it does to the hierarchy. -/
theorem Fetches.step_wordAtomic {funct5 : BitVec 5} {ord : OrderBits} {rs2 rs1 rd : Isa.Reg}
    {hier : Hierarchy N} {v : Word} (h : s.Fetches i s₁ (atomicType funct5 ord rs2 rs1 rd))
    (hs : s.OnWord i x) (haddr : (s.cores i).regs rs1 = byteAddr x)
    (hamo : (s₁.fetchPc i).2.amoRam i rd funct5 (byteAddr x) ((s.cores i).regs rs2) =
      ((s₁.fetchPc i).2.setHierarchy hier).finish i rd v)
    (hg : hier.Good) (hstep : s.step i = .ok s') :
    s'.InOrder i ∧ s'.RamWord x ∧ (rd ≠ 0 → (s'.cores i).regs rd = v) ∧
      s'.wordAt i x = ((s₁.fetchPc i).2.setHierarchy hier).wordAt i x := by
  rw [← haddr] at hamo
  obtain ⟨s'', hs'', hret⟩ := h.step_atomicType hs.untranslated hs.inOrder.zero
    (haddr ▸ ramWord_lt hs.ram) hamo
  obtain rfl : s'' = s' := Except.ok.inj (hs''.symm.trans hstep)
  have hreached : Reached (s₁.fetchPc i).2 ((s₁.fetchPc i).2.setHierarchy hier) := ⟨hg, rfl, rfl⟩
  obtain ⟨hs', hdev, hw⟩ := hreached.step (x := x) hret
    (by rw [State.write_zero]; exact hs.inOrder.zero)
  have hram := hs.ram.devices (h.sameWords hs.inOrder).2.devices
  refine ⟨hs', hram.devices hdev, ?_, hw⟩
  intro hrd
  rw [hret.regs, State.write_self _ _ hrd]

theorem Untranslated.amoRam_lr (hu : t.Untranslated i) (rd : Cores.Reg) (addr v : Word) :
    t.amoRam i rd 0x02 addr v =
      (t.setHierarchy (t.hierarchy.readWord i addr).2).finish i rd
        (t.hierarchy.readWord i addr).1 := by
  show (t.dataReadWord i addr).2.finish i rd (t.dataReadWord i addr).1 = _
  rw [hu.dataReadWord_eq]
  rfl

/-- What an instruction on a word leaves, from the value the word has at `p`. -/
def ActsOn (s : Simulator N n) (i : Fin N) (x : WordAddr) (p : Place) (e : WordEvent)
    (s' : Simulator N n) : Prop :=
  s'.InOrder i ∧ s'.RamWord x ∧ wordCell.fits e (s.wordAt i x p) ∧
    s'.wordAt i x (storePlace x e p) = wordCell.next e (s.wordAt i x p)

section
variable {ord : OrderBits} {rs2 rs1 rd : Isa.Reg}

theorem Fetches.step_wordLr (h : s.Fetches i s₁ (loadReserved ord rs1 rd)) (hs : s.OnWord i x)
    (haddr : (s.cores i).regs rs1 = byteAddr x) (v : Word)
    (hfind : rd = 0 ∨ s.wordAt i x .dataCache = s.wordAt i x p) (hstep : s.step i = .ok s') :
    s.ActsOn i x p ⟨.lr, rd, v, (s'.cores i).regs rd⟩ s' := by
  obtain ⟨ht, hsame⟩ := h.sameWords hs.inOrder
  obtain ⟨hv, hg, hw⟩ := readWord_wordAt ht.good i x
  obtain ⟨hs', hram, hrd', hw'⟩ := h.step_wordAtomic hs haddr
    ((h.untranslated hs.untranslated).amoRam_lr ..) hg hstep
  rw [hw, hsame.wordAt i x] at hw'
  rw [hsame.wordAt i x] at hv
  refine ⟨hs', hram, ?_, congrFun hw' p⟩
  intro hrd
  exact (hrd' hrd).trans (hv.trans (hfind.resolve_left hrd))

theorem Fetches.step_wordSc (h : s.Fetches i s₁ (storeConditional ord rs2 rs1 rd))
    (hs : s.OnWord i x) (hx : x.toNat < 0x10000000) (haddr : (s.cores i).regs rs1 = byteAddr x)
    (hstep : s.step i = .ok s') :
    s.ActsOn i x p ⟨.sc, rd, (s.cores i).regs rs2, (s'.cores i).regs rd⟩ s' := by
  obtain ⟨ht, _⟩ := h.sameWords hs.inOrder
  obtain ⟨hg, hw⟩ := writeWord_wordAt ht.good i x ((s.cores i).regs rs2) hx
  obtain ⟨hs', hram, hrd', hw'⟩ := h.step_wordAtomic hs haddr
    ((h.untranslated hs.untranslated).amoRam_sc ..) hg hstep
  exact ⟨hs', hram, hrd', (congrFun hw' .dataCache).trans hw⟩

theorem Fetches.step_wordAmo {op : AmoOp} (h : s.Fetches i s₁ (RvA.encode ⟨op, ord, rd, rs1, rs2⟩))
    (hs : s.OnWord i x) (hx : x.toNat < 0x10000000) (haddr : (s.cores i).regs rs1 = byteAddr x)
    (hfind : s.FindsLast i x p ⟨.amo op, rd, (s.cores i).regs rs2, (s'.cores i).regs rd⟩)
    (hstep : s.step i = .ok s') :
    s.ActsOn i x p ⟨.amo op, rd, (s.cores i).regs rs2, (s'.cores i).regs rd⟩ s' := by
  obtain ⟨ht, hsame⟩ := h.sameWords hs.inOrder
  obtain ⟨hv, hg, hw⟩ := amo_wordAt ht.good i op ((s.cores i).regs rs2) hx
  obtain ⟨hs', hram, hrd', hw'⟩ := Fetches.step_wordAtomic h hs haddr
    ((h.untranslated hs.untranslated).amoRam_eq ..) hg hstep
  obtain ⟨hold, hnew⟩ := hfind
  rw [hsame.wordAt i x] at hv hw
  refine ⟨hs', hram, ?_, (congrFun hw' _).trans (hw.trans hnew)⟩
  intro hrd
  exact (hrd' hrd).trans (hv.trans (hold.resolve_left hrd))

end

/-- One instruction on the word. -/
theorem WordAccess.actsOn {e : WordEvent} (h : WordAccess i x s e s') (hs : s.OnWord i x)
    (hx : x.toNat < 0x10000000) (hfind : s.FindsLast i x p e) :
    s.ActsOn i x p e s' ∧ s'.Untranslated i := by
  obtain ⟨hf, haddr, hstep⟩ := h
  rename_i instr
  have hkeep := hf.step_keepsSatp hstep fun hw => instr.encode_opcode hw.1
  refine ⟨?_, (hkeep.bases i).trans hs.untranslated⟩
  have hlt := ramWord_lt hs.ram
  have hm := (hf.untranslated hs.untranslated).mapped (byteAddr x)
  obtain ⟨op, rd, rs1, rs2, imm, ord⟩ := instr
  cases op with
  | lw =>
    have hload : s.Fetches i _ (Load.encode ⟨.lw, rd, rs1, imm⟩) := hf
    obtain ⟨hs', hram, hw, hregs⟩ := hload.step_mappedLoad hs.inOrder hs.ram haddr hlt
      (aligned_byteAddr x) hm (wordOf_byteAddr x) hstep
    refine ⟨hs', hram, ?_, congrFun hw p⟩
    intro hrd
    have hvalue := congrFun hregs rd
    rw [State.write_self _ _ hrd] at hvalue
    exact hvalue.trans (hfind.resolve_left hrd)
  | sw =>
    have hstore : s.Fetches i _ (Store.encode ⟨.sw, rs2, rs1, imm⟩) := hf
    obtain ⟨hs', hram, hw⟩ := hstore.step_mappedStore hs.inOrder hs.ram hx haddr hlt
      (aligned_byteAddr x) hm (wordOf_byteAddr x) (fun _ => rfl) hstep
    exact ⟨hs', hram, fun _ => trivial, hw⟩
  | lr => exact hf.step_wordLr hs haddr _ hfind hstep
  | sc => exact hf.step_wordSc hs hx haddr hstep
  | amo op => exact hf.step_wordAmo hs hx haddr hfind hstep

/-- A run of instructions on a word, with steps without data access between them,
is one of a single memory word. -/
theorem wordRun_onOneWord {es : List WordEvent}
    (hrun : Tracked (fun s s' => QuietStep s i s')
      (fun p s e s' => WordAccess i x s e s' ∧ s.FindsLast i x p e) (storePlace x) p s es q t)
    (hs : s.OnWord i x) (hx : x.toNat < 0x10000000) :
    wordCell.Admits (s.wordAt i x p) es (t.wordAt i x q) := by
  have hquiet : ∀ s s' : Simulator N n, s.OnWord i x → s.QuietStep i s' →
      s'.OnWord i x ∧ s'.wordAt i x = s.wordAt i x := by
    intro s s' hs hq
    obtain ⟨hs', hsame⟩ := hs.inOrder.quietStep hq
    exact ⟨⟨hs', (hq.keepsSatp.bases i).trans hs.untranslated, hs.ram.devices hsame.devices⟩,
      hsame.wordAt i x⟩
  refine (hrun.admits hquiet (fun p s e s' hs ⟨ha, hfind⟩ => ?_) hs).1
  obtain ⟨⟨hs', hram, hfits, hnext⟩, hu⟩ := ha.actsOn hs hx hfind
  exact ⟨⟨hs', hu, hram⟩, hfits, hnext⟩

instance (s : Simulator N n) (i : Fin N) (x : WordAddr) (p : Place) (e : WordEvent) :
    Decidable (s.FindsLast i x p e) := by
  unfold FindsLast
  split <;> infer_instance

theorem WordAccess.stepped (instr : WordInstr) {v r : Word}
    (h : s.Running i ∧ ((s.handleInterrupt i).fetchPc i).1 = instr.encode ∧
      instr.address (s.cores i).regs = byteAddr x ∧ (s.step i).toOption.isSome = true ∧
      (s.cores i).regs instr.rs2 = v ∧ ((s.stepped i).cores i).regs instr.rd = r) :
    WordAccess i x s ⟨instr.op, instr.rd, v, r⟩ (s.stepped i) := by
  obtain ⟨hr, hf, haddr, hstep, rfl, rfl⟩ := h
  exact .execute ⟨hr.prepare_eq, hf⟩ haddr (step_stepped hstep)

def storeWord : WordInstr := { op := .sw, rd := 0, rs1 := 5, rs2 := 6 }
def amoWord (op : AmoOp) : WordInstr := { op := .amo op, rd := 7, rs1 := 5, rs2 := 6 }

/-- One core about to store 5 at an address, and then to execute an atomic with 5
there. -/
def aboutWord (addr : Word) (op : AmoOp) : Simulator 1 0x100000 :=
  loaded 1 0x100000 [storeWord.encode, (amoWord op).encode] fun _ r =>
    if r = 5 then addr else if r = 6 then 5 else 0

theorem aboutWord_onWord {addr : Word} {op : AmoOp} (hx : 4 * x.toNat < 0x100000) :
    (aboutWord addr op).OnWord 0 x :=
  ⟨⟨loaded_good .., rfl⟩, loaded_untranslated ..,
    (loaded_plainRam 1 _ _ (by decide) (by decide)).ramWord hx⟩

/-- AMOMAX finds what SW has stored into a cached word. -/
theorem wordRun_onOneWord_cached :
    wordCell.Admits ((aboutWord 0x50000 .max).wordAt 0 (wordOf 0x50000) .memory)
      [⟨.sw, 0, 5, 0⟩, ⟨.amo .max, 7, 5, 5⟩]
      ((((aboutWord 0x50000 .max).stepped 0).stepped 0).wordAt 0 (wordOf 0x50000) .dataCache) := by
  have hstore : WordAccess 0 (wordOf 0x50000) (aboutWord 0x50000 .max) ⟨.sw, 0, 5, 0⟩
      ((aboutWord 0x50000 .max).stepped 0) :=
    .stepped storeWord (by decide +kernel)
  have hamo : WordAccess 0 (wordOf 0x50000) ((aboutWord 0x50000 .max).stepped 0)
      ⟨.amo .max, 7, 5, 5⟩ (((aboutWord 0x50000 .max).stepped 0).stepped 0) :=
    .stepped (amoWord .max) (by decide +kernel)
  exact wordRun_onOneWord (.access ⟨hstore, by decide +kernel⟩
    (.access ⟨hamo, by decide +kernel⟩ (.nil _ _))) (aboutWord_onWord (by decide)) (by decide)

/-- AMOADD does not find what SW has stored into a word that is not cached. -/
theorem amo_misses_store : ∃ (s t : Simulator 1 0x100000) (es : List WordEvent),
    s.OnWord 0 (wordOf 0x4F000) ∧
      Tracked (fun s s' => QuietStep s 0 s') (fun _ => WordAccess 0 (wordOf 0x4F000))
        (storePlace (wordOf 0x4F000)) .memory s es .l2 t ∧
      ∀ m w, ¬wordCell.Admits m es w := by
  have hstore : WordAccess 0 (wordOf 0x4F000) (aboutWord 0x4F000 .add) ⟨.sw, 0, 5, 0⟩
      ((aboutWord 0x4F000 .add).stepped 0) :=
    .stepped storeWord (by decide +kernel)
  have hamo : WordAccess 0 (wordOf 0x4F000) ((aboutWord 0x4F000 .add).stepped 0)
      ⟨.amo .add, 7, 5, 0⟩ (((aboutWord 0x4F000 .add).stepped 0).stepped 0) :=
    .stepped (amoWord .add) (by decide +kernel)
  refine ⟨_, _, _, aboutWord_onWord (by decide), .access hstore (.access hamo (.nil _ _)),
    fun m w h => ?_⟩
  -- the word is 5, and AMOADD has returned 0
  have hfive : (0 : Word) = 5 := h.2.1 (by decide)
  exact absurd hfive (by decide)

end Simulator
end RiscvEmulator.System
