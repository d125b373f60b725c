import RiscvEmulator.System.MmioAgreement

/-! # The timer through 32-bit accesses

`mtime` and the compare registers have 64 bits, and the cores have LW and SW. The
CLINT does not look at which half a word is: SW to either half of a compare
register sets all of it, and `mtime` answers to accesses of eight bytes only. -/
namespace RiscvEmulator.System
open Memory Cores Interrupt Device Isa

namespace Simulator
variable {N n : Nat} {s s₁ s₂ s₃ s₄ : Simulator N n} {i j k : Fin N} {addr v w : Word}

/-! ## Words of the CLINT -/

/-- Core `j` executes an SW of `v` to `addr`. -/
def StoresWord (s : Simulator N n) (j : Fin N) (addr v : Word) (s' : Simulator N n) : Prop :=
  ∃ instr : Store, instr.op = .sw ∧ instr.address (s.cores j).regs = addr ∧
    (s.cores j).regs instr.rs2 = v ∧ s.Unmoved j true addr ∧
    (s.execute j instr.encode).map (retire j) = .ok s'

/-- Core `j` executes an LW of `addr` into a register, which then holds `v`. -/
def LoadsWord (s : Simulator N n) (j : Fin N) (addr v : Word) (s' : Simulator N n) : Prop :=
  ∃ instr : Load, instr.op = .lw ∧ instr.address (s.cores j).regs = addr ∧ instr.rd ≠ 0 ∧
    s.Unmoved j false addr ∧ (s.execute j instr.encode).map (retire j) = .ok s' ∧
    (s'.cores j).regs instr.rd = v

section
variable {u : UART} (hd : s.devices = [(uartBase, u)]) (hc : inClint addr = true)
include hd hc

theorem StoresWord.clint (h : s.StoresWord j addr v s₁) :
    s₁.clint = s.clintStore addr v ∧ s₁.devices = s.devices := by
  obtain ⟨instr, hop, haddr, rfl, hmoved, hexec⟩ := h
  have hw : inWindow addr = true := Bool.or_eq_true_iff.mpr (.inr hc)
  obtain ⟨mmus, hs⟩ := execute_store_window s j haddr hw
  rw [hmoved.storeOutcome_clint hd hc, hop] at hs
  rw [hs] at hexec
  obtain rfl := Except.ok.inj hexec
  exact ⟨rfl, rfl⟩

theorem LoadsWord.value (h : s.LoadsWord j addr v s₁) :
    v = s.clintWord addr ∧ s₁.clint = s.clint ∧ s₁.devices = s.devices := by
  obtain ⟨instr, hop, haddr, hrd, hmoved, hexec, rfl⟩ := h
  have hw : inWindow addr = true := Bool.or_eq_true_iff.mpr (.inr hc)
  obtain ⟨mmus, hs⟩ := execute_load_window s j haddr hw
  rw [hmoved.loadOutcome_clint hd hc, hop, if_pos rfl] at hs
  rw [hs] at hexec
  obtain rfl := Except.ok.inj hexec
  have hret := retire_retired (s.setMmus mmus) j
    ((s.cores j).writeback instr.rd (some (s.clintWord addr)))
  refine ⟨?_, hret.data.clint, hret.data.devices⟩
  have hregs := congrFun hret.regs instr.rd
  rw [Function.update_of_ne hrd] at hregs
  exact hregs.trans (Function.update_self ..)

end

/-- No access to the CLINT faults if its address is left as it is. -/
theorem storesWord_exists (hc : inClint addr = true) {instr : Store} (hop : instr.op = .sw)
    (haddr : instr.address (s.cores j).regs = addr) (hmoved : s.Unmoved j true addr) :
    ∃ s', s.StoresWord j addr ((s.cores j).regs instr.rs2) s' ∧
      ∀ r, r ≠ 0 → (s'.cores j).regs r = (s.cores j).regs r := by
  have hw : inWindow addr = true := Bool.or_eq_true_iff.mpr (.inr hc)
  obtain ⟨mmus, hs⟩ := execute_store_window s j haddr hw
  have hout := hmoved.storeOutcome instr.op ((s.cores j).regs instr.rs2)
  have hcores := storeOutcome_onlyIo hout
  rw [hout] at hs
  generalize (if addr.toNat < n then storeDirect instr.op s addr ((s.cores j).regs instr.rs2)
    else s.routedStore instr.op addr ((s.cores j).regs instr.rs2)) = t at hs hcores
  refine ⟨retire j ((t.setMmus mmus).next j), ⟨instr, hop, haddr, rfl, hmoved, ?_⟩, ?_⟩
  · rw [hs]
    rfl
  · intro r hr
    obtain ⟨devices, clint, memory, rfl⟩ := hcores
    have hregs := congrFun (retire_retired
      (setMmus { s with devices := devices, clint := clint, memory := memory } mmus) j
      ((s.cores j).writeback 0 none)).regs r
    rw [Function.update_of_ne hr] at hregs
    exact hregs

theorem loadsWord_exists (hc : inClint addr = true) {instr : Load} (hop : instr.op = .lw)
    (hrd : instr.rd ≠ 0) (haddr : instr.address (s.cores j).regs = addr)
    (hmoved : s.Unmoved j false addr) :
    ∃ s' v, s.LoadsWord j addr v s' ∧
      ∀ r, r ≠ 0 → r ≠ instr.rd → (s'.cores j).regs r = (s.cores j).regs r := by
  have hw : inWindow addr = true := Bool.or_eq_true_iff.mpr (.inr hc)
  obtain ⟨mmus, hs⟩ := execute_load_window s j haddr hw
  rw [hmoved.loadOutcome] at hs
  generalize (if addr.toNat < n then loadDirect instr.op s addr
    else s.routedLoad j instr.op addr) = v at hs
  refine ⟨retire j ((s.setMmus mmus).finish j instr.rd v), _,
    ⟨instr, hop, haddr, hrd, hmoved, ?_, rfl⟩, ?_⟩
  · rw [hs]
    rfl
  · intro r hr hne
    have hregs := congrFun (retire_retired (s.setMmus mmus) j
      ((s.cores j).writeback instr.rd (some v))).regs r
    rw [Function.update_of_ne hr] at hregs
    exact hregs.trans (Function.update_of_ne hne ..)

/-! ## The words of a compare register -/

def compareLow (i : Nat) : Word := BitVec.ofNat 32 (0x02004000 + 8 * i)

def compareHigh (i : Nat) : Word := BitVec.ofNat 32 (0x02004004 + 8 * i)

/-- What stands there. The array of software interrupts, of four bytes a core, comes
first, and reaches into that of the compare registers from 4097 cores on. -/
def lowRegister (i : Fin N) : CLINT.Register N :=
  if h : 4 * N ≤ 0x4000 + 8 * i.val then .mtimecmp i else .msip ⟨0x1000 + 2 * i.val, by omega⟩

def highRegister (i : Fin N) : CLINT.Register N :=
  if h : 4 * N ≤ 0x4004 + 8 * i.val then .mtimecmp i else .msip ⟨0x1001 + 2 * i.val, by omega⟩

theorem compareLow_toNat {i : Nat} (hi : i < 6144) : (compareLow i).toNat = 0x02004000 + 8 * i := by
  unfold compareLow
  rw [BitVec.toNat_ofNat]
  omega

theorem compareHigh_toNat {i : Nat} (hi : i < 6144) :
    (compareHigh i).toNat = 0x02004004 + 8 * i := by
  unfold compareHigh
  rw [BitVec.toNat_ofNat]
  omega

section
variable (hi : i.val < 6144)
include hi

theorem compare_inClint :
    inClint (compareLow i.val) = true ∧ inClint (compareHigh i.val) = true := by
  have hl := compareLow_toNat hi
  have hh := compareHigh_toNat hi
  exact ⟨inClint_iff.mpr (by omega), inClint_iff.mpr (by omega)⟩

theorem register_compareLow :
    CLINT.register N ((clintAddr (compareLow i.val)).setWidth 64) 4 = some (lowRegister i) := by
  have ha := compareLow_toNat hi
  rw [clintAddr_low (by omega)]
  unfold lowRegister
  split
  · next h => exact CLINT.register_mtimecmp i (by omega) (by omega) (by omega)
  · next h =>
    have hlow : 0x02000000 + 4 * (0x1000 + 2 * i.val) ≤ (compareLow i.val).toNat := by omega
    have hhigh : (compareLow i.val).toNat < 0x02000004 + 4 * (0x1000 + 2 * i.val) := by omega
    exact CLINT.register_msip ⟨0x1000 + 2 * i.val, by omega⟩ hlow hhigh

theorem register_compareHigh :
    CLINT.register N ((clintAddr (compareHigh i.val)).setWidth 64) 4 =
      some (highRegister i) := by
  have ha := compareHigh_toNat hi
  rw [clintAddr_low (by omega)]
  unfold highRegister
  split
  · next h => exact CLINT.register_mtimecmp i (by omega) (by omega) (by omega)
  · next h =>
    have hlow : 0x02000000 + 4 * (0x1001 + 2 * i.val) ≤ (compareHigh i.val).toNat := by omega
    have hhigh : (compareHigh i.val).toNat < 0x02000004 + 4 * (0x1001 + 2 * i.val) := by omega
    exact CLINT.register_msip ⟨0x1001 + 2 * i.val, by omega⟩ hlow hhigh

theorem clintStore_compareLow (s : Simulator N n) (v : Word) :
    s.clintStore (compareLow i.val) v = s.clint.set (v.setWidth 64) (lowRegister i) := by
  unfold clintStore
  rw [CLINT.write_eq, register_compareLow hi]
  rfl

theorem clintStore_compareHigh (s : Simulator N n) (v : Word) :
    s.clintStore (compareHigh i.val) v = s.clint.set (v.setWidth 64) (highRegister i) := by
  unfold clintStore
  rw [CLINT.write_eq, register_compareHigh hi]
  rfl

theorem clintWord_compareLow (s : Simulator N n) :
    s.clintWord (compareLow i.val) = (s.clint.value (lowRegister i)).setWidth 32 := by
  unfold clintWord
  rw [CLINT.read_eq, register_compareLow hi]
  rfl

theorem clintWord_compareHigh (s : Simulator N n) :
    s.clintWord (compareHigh i.val) = (s.clint.value (highRegister i)).setWidth 32 := by
  unfold clintWord
  rw [CLINT.read_eq, register_compareHigh hi]
  rfl

end

/-! ## Both words -/

/-- The words are stored one after the other, the low one last or first. -/
def StoresCompare (s : Simulator N n) (i : Fin N) (lowLast : Bool) (low high : Word)
    (s' : Simulator N n) : Prop :=
  ∃ j k s₁,
    s.StoresWord j (if lowLast then compareHigh i.val else compareLow i.val)
      (if lowLast then high else low) s₁ ∧
    s₁.StoresWord k (if lowLast then compareLow i.val else compareHigh i.val)
      (if lowLast then low else high) s'

/-- The two words from `addr` and `addr'` are loaded. -/
def LoadsWords (s : Simulator N n) (addr addr' low high : Word) : Prop :=
  ∃ j k s₁ s₂, s.LoadsWord j addr low s₁ ∧ s₁.LoadsWord k addr' high s₂

/-- The CLINT after both words. -/
def withCompare (c : CLINT N) (i : Fin N) (lowLast : Bool) (low high : Word) : CLINT N :=
  if lowLast then (c.set (high.setWidth 64) (highRegister i)).set (low.setWidth 64) (lowRegister i)
  else (c.set (low.setWidth 64) (lowRegister i)).set (high.setWidth 64) (highRegister i)

/-- What the compare register comes to hold. -/
def comparedWith (c : CLINT N) (i : Fin N) (lowLast : Bool) (low high : Word) : BitVec 64 :=
  if lowLast = true ∧ 4 * N ≤ 0x4000 + 8 * i.val then low.setWidth 64
  else if 4 * N ≤ 0x4004 + 8 * i.val then high.setWidth 64
  else c.mtimecmp i

/-- Whether both words read back. -/
def ReadsBackWords (N : Nat) (i : Nat) (low high : Word) : Prop :=
  if 4 * N ≤ 0x4000 + 8 * i then low = high
  else low.toNat ≤ 1 ∧ (4 * N ≤ 0x4004 + 8 * i ∨ high.toNat ≤ 1)

theorem StoresCompare.clint {u : UART} (hd : s.devices = [(uartBase, u)]) (hi : i.val < 6144)
    {lowLast : Bool} {low high : Word} (h : s.StoresCompare i lowLast low high s₁) :
    s₁.devices = s.devices ∧ s₁.clint = withCompare s.clint i lowLast low high := by
  obtain ⟨hcl, hch⟩ := compare_inClint hi
  obtain ⟨j, k, s', h1, h2⟩ := h
  cases lowLast with
  | true =>
    obtain ⟨hc1, hd1⟩ := StoresWord.clint hd hch h1
    obtain ⟨hc2, hd2⟩ := StoresWord.clint (hd1.trans hd) hcl h2
    refine ⟨hd2.trans hd1, ?_⟩
    rw [hc2]
    exact (clintStore_compareLow hi s' low).trans
      (congrArg (CLINT.set · _ _) (hc1.trans (clintStore_compareHigh hi s high)))
  | false =>
    obtain ⟨hc1, hd1⟩ := StoresWord.clint hd hcl h1
    obtain ⟨hc2, hd2⟩ := StoresWord.clint (hd1.trans hd) hch h2
    refine ⟨hd2.trans hd1, ?_⟩
    rw [hc2]
    exact (clintStore_compareHigh hi s' high).trans
      (congrArg (CLINT.set · _ _) (hc1.trans (clintStore_compareLow hi s low)))

/-- A software interrupt shows whether its word was 0. -/
theorem shown_msip_iff (k : Fin N) (w : Word) :
    (CLINT.shown (w.setWidth 64) (.msip k)).setWidth 32 = w ↔ w.toNat ≤ 1 := by
  have hzero : (w.setWidth 64 != 0) = (w != 0) := by
    have hw : (w.setWidth 64).toNat = w.toNat := by
      rw [BitVec.toNat_setWidth]
      have := w.isLt
      omega
    rw [Bool.eq_iff_iff, bne_iff_ne, bne_iff_ne, BitVec.toNat_ne, BitVec.toNat_ne, hw]
    rfl
  unfold CLINT.shown
  simp only [hzero]
  by_cases h0 : w = 0
  · subst h0
    decide
  · have hne : (w != 0) = true := bne_iff_ne.mpr h0
    rw [hne, if_pos rfl]
    constructor
    · intro h
      have h1 : w = 1 := h.symm
      rw [h1]
      decide
    · intro h
      have hpos : w.toNat ≠ 0 := fun he => h0 (BitVec.eq_of_toNat_eq he)
      have h1 : w.toNat = (1 : Word).toNat := by
        show w.toNat = 1
        omega
      exact (BitVec.eq_of_toNat_eq h1).symm

section
variable (c : CLINT N) (i : Fin N) (lowLast : Bool) (low high : Word)

/-- Each word sets the whole register, so the last one stays. -/
theorem withCompare_mtimecmp :
    (withCompare c i lowLast low high).mtimecmp i = comparedWith c i lowLast low high := by
  show (withCompare c i lowLast low high).value (.mtimecmp i) = _
  unfold withCompare comparedWith
  by_cases hl : 4 * N ≤ 0x4000 + 8 * i.val
  · have hh : 4 * N ≤ 0x4004 + 8 * i.val := by omega
    have hlow : lowRegister i = .mtimecmp i := dif_pos hl
    have hhigh : highRegister i = .mtimecmp i := dif_pos hh
    rw [hlow, hhigh]
    cases lowLast with
    | true => simp only [hl, if_true, and_self, CLINT.value_set_self, CLINT.shown]
    | false => simp [hh, CLINT.value_set_self, CLINT.shown]
  · have hlow : lowRegister i = .msip _ := dif_neg hl
    have hne : ∀ k, (.msip k : CLINT.Register N) ≠ .mtimecmp i := fun _ => nofun
    have hnot : ¬(lowLast = true ∧ 4 * N ≤ 0x4000 + 8 * i.val) := fun h => hl h.2
    rw [hlow, if_neg hnot]
    by_cases hh : 4 * N ≤ 0x4004 + 8 * i.val
    · have hhigh : highRegister i = .mtimecmp i := dif_pos hh
      rw [hhigh, if_pos hh]
      exact (CLINT.set_set_value (hne _) _ lowLast).2
    · have hhigh : highRegister i = .msip _ := dif_neg hh
      rw [hhigh, if_neg hh]
      cases lowLast with
      | true => exact (CLINT.value_set_other (hne _)).trans (CLINT.value_set_other (hne _))
      | false => exact (CLINT.value_set_other (hne _)).trans (CLINT.value_set_other (hne _))

theorem withCompare_mtime : (withCompare c i lowLast low high).mtime = c.mtime := by
  show (withCompare c i lowLast low high).value .mtime = c.value .mtime
  have hlow : lowRegister i ≠ .mtime := by
    unfold lowRegister
    split <;> nofun
  have hhigh : highRegister i ≠ .mtime := by
    unfold highRegister
    split <;> nofun
  unfold withCompare
  cases lowLast with
  | true => exact (CLINT.value_set_other hlow).trans (CLINT.value_set_other hhigh)
  | false => exact (CLINT.value_set_other hhigh).trans (CLINT.value_set_other hlow)

theorem withCompare_words_iff :
    (((withCompare c i lowLast low high).value (lowRegister i)).setWidth 32 = low ∧
      ((withCompare c i lowLast low high).value (highRegister i)).setWidth 32 = high) ↔
    ReadsBackWords N i.val low high := by
  have htrunc : ∀ w : Word, (w.setWidth 64).setWidth 32 = w := by
    intro w
    rw [BitVec.setWidth_setWidth_of_le _ (by omega)]
    exact BitVec.setWidth_eq w
  unfold ReadsBackWords
  by_cases hl : 4 * N ≤ 0x4000 + 8 * i.val
  · have hlow : lowRegister i = .mtimecmp i := dif_pos hl
    have hhigh : highRegister i = .mtimecmp i := dif_pos (by omega)
    rw [if_pos hl, hlow, hhigh]
    unfold withCompare
    rw [hlow, hhigh]
    cases lowLast with
    | true =>
      simp only [if_true, CLINT.value_set_self, CLINT.shown, htrunc, true_and]
    | false =>
      simp only [Bool.false_eq_true, if_false, CLINT.value_set_self, CLINT.shown, htrunc, and_true,
        eq_comm (a := high)]
  · have hlow : lowRegister i = .msip ⟨0x1000 + 2 * i.val, by omega⟩ := dif_neg hl
    have hne : lowRegister i ≠ highRegister i := by
      rw [hlow]
      unfold highRegister
      split
      · nofun
      · intro h
        have hval := congrArg Fin.val (CLINT.Register.msip.inj h)
        simp only at hval
        omega
    obtain ⟨hvl, hvh⟩ := CLINT.set_set_value (c := c) (v := low.setWidth 64) hne
      (high.setWidth 64) lowLast
    have hwl : (withCompare c i lowLast low high).value (lowRegister i) = _ := hvl
    have hwh : (withCompare c i lowLast low high).value (highRegister i) = _ := hvh
    rw [if_neg hl, hwl, hwh, hlow, shown_msip_iff]
    refine and_congr_right fun _ => ?_
    by_cases hh : 4 * N ≤ 0x4004 + 8 * i.val
    · have hhigh : highRegister i = .mtimecmp i := dif_pos hh
      rw [hhigh]
      exact iff_of_true (htrunc high) (.inl hh)
    · have hhigh : highRegister i = .msip ⟨0x1001 + 2 * i.val, by omega⟩ := dif_neg hh
      rw [hhigh, shown_msip_iff, or_iff_right hh]

end

/-! ## The timer -/

def timeLow : Word := 0x0200BFF8

def timeHigh : Word := 0x0200BFFC

/-- What words at the address of `mtime` show: the registers of cores whose numbers
are so high that they stand there, or 0. `k` is the place in the array of software
interrupts. -/
def timeShadow (c : CLINT N) (k : Nat) : BitVec 64 :=
  if h : k < N then c.value (.msip ⟨k, h⟩)
  else if h : 4095 < N then c.mtimecmp ⟨4095, h⟩
  else 0

theorem clintWord_time (s : Simulator N n) {k : Nat} (ha : addr.toNat = 0x02000000 + 4 * k)
    (hk : k = 12286 ∨ k = 12287) : s.clintWord addr = (timeShadow s.clint k).setWidth 32 := by
  unfold clintWord timeShadow
  rw [CLINT.read_eq, clintAddr_low (by omega)]
  split
  · next hmsip =>
    have hlow : 0x02000000 + 4 * k ≤ addr.toNat := by omega
    have hhigh : addr.toNat < 0x02000004 + 4 * k := by omega
    rw [CLINT.register_msip ⟨k, hmsip⟩ hlow hhigh]
    rfl
  · next hmsip =>
    split
    · next hcmp =>
      have hlow : 0x02004000 + 8 * 4095 ≤ addr.toNat := by omega
      have hhigh : addr.toNat < 0x02004008 + 8 * 4095 := by omega
      rw [CLINT.register_mtimecmp ⟨4095, hcmp⟩ hlow hhigh (by omega)]
      rfl
    · next hcmp =>
      have hnone : CLINT.register N (addr.setWidth 64) 4 = none := by
        cases hr : CLINT.register N (addr.setWidth 64) 4 with
        | none => rfl
        | some r =>
          have hat := CLINT.register_at hr
          rw [CLINT.offset_toNat (by omega)] at hat
          cases r with
          | msip j =>
            have hj : j.val = (addr.toNat - 0x02000000) / 4 := hat
            omega
          | mtimecmp j =>
            have hj : j.val = (addr.toNat - 0x02000000 - 0x4000) / 8 := hat.2
            omega
          | mtime => exact absurd hat.2 (by decide)
      rw [hnone]
      rfl

theorem LoadsWords.value {u : UART} (hd : s.devices = [(uartBase, u)]) {addr' low high : Word}
    (hc : inClint addr = true) (hc' : inClint addr' = true)
    (h : s.LoadsWords addr addr' low high) :
    low = s.clintWord addr ∧ high = s.clintWord addr' := by
  obtain ⟨j, k, s₁, s₂, h1, h2⟩ := h
  obtain ⟨hv1, hclint, hdev⟩ := LoadsWord.value hd hc h1
  obtain ⟨hv2, -, -⟩ := LoadsWord.value (hdev.trans hd) hc' h2
  refine ⟨hv1, hv2.trans ?_⟩
  unfold clintWord
  rw [hclint]

/-- Two limits are passed at the same times only if they are one. -/
theorem limits_agree_iff (a b m : BitVec 64) :
    (∀ delta, a ≤ m + delta ↔ b ≤ m + delta) ↔ a = b := by
  have hreach : ∀ x : BitVec 64, m + (x - m) = x := by
    intro x
    rw [BitVec.add_comm, BitVec.sub_add_cancel]
  constructor
  · intro h
    have ha := h (a - m)
    have hb := h (b - m)
    rw [hreach] at ha hb
    exact BitVec.le_antisymm (hb.mpr (BitVec.le_refl b)) (ha.mp (BitVec.le_refl a))
  · rintro rfl delta
    exact Iff.rfl

/-- The 64-bit registers through words: when the timer interrupt of core `i` follows
the two words stored, when they read back, and when the words of `mtime` show it. -/
theorem clint_words_iff {u : UART} (hd : s.devices = [(uartBase, u)]) (hi : i.val < 6144) :
    (∀ lowLast low high s₁, s.StoresCompare i lowLast low high s₁ →
      ((s₁.clint.hasTimerInterrupt i = true ↔ high ++ low ≤ s₁.clint.mtime) ↔
        (comparedWith s.clint i lowLast low high ≤ s.clint.mtime ↔
          high ++ low ≤ s.clint.mtime)) ∧
      ((∀ delta, (s₁.clint.updateTimer delta).hasTimerInterrupt i = true ↔
          high ++ low ≤ (s₁.clint.updateTimer delta).mtime) ↔
        comparedWith s.clint i lowLast low high = high ++ low) ∧
      ∀ low' high', s₁.LoadsWords (compareLow i.val) (compareHigh i.val) low' high' →
        (low' = low ∧ high' = high ↔ ReadsBackWords N i.val low high)) ∧
    ∀ low high, s.LoadsWords timeLow timeHigh low high →
      (high ++ low = s.clint.mtime ↔
        (timeShadow s.clint 12287).setWidth 32 ++ (timeShadow s.clint 12286).setWidth 32 =
          s.clint.mtime) := by
  obtain ⟨hcl, hch⟩ := compare_inClint hi
  refine ⟨?_, ?_⟩
  · intro lowLast low high s₁ hstores
    obtain ⟨hdev, hclint⟩ := hstores.clint hd hi
    have hcmp := withCompare_mtimecmp s.clint i lowLast low high
    have htime := withCompare_mtime s.clint i lowLast low high
    rw [← hclint] at hcmp htime
    have hpending : ∀ delta, (s₁.clint.updateTimer delta).hasTimerInterrupt i = true ↔
        comparedWith s.clint i lowLast low high ≤ s.clint.mtime + delta := by
      intro delta
      rw [← hcmp, ← htime]
      exact decide_eq_true_iff
    refine ⟨?_, ?_, ?_⟩
    · unfold CLINT.hasTimerInterrupt
      rw [hcmp, htime, decide_eq_true_iff]
    · have hlater : ∀ delta, (s₁.clint.updateTimer delta).mtime = s.clint.mtime + delta :=
        fun delta => congrArg (· + delta) htime
      simp only [hpending, hlater]
      exact limits_agree_iff ..
    · intro low' high' hloads
      obtain ⟨rfl, rfl⟩ := hloads.value (hdev.trans hd) hcl hch
      rw [clintWord_compareLow hi, clintWord_compareHigh hi, hclint]
      exact withCompare_words_iff s.clint i lowLast low high
  · intro low high hloads
    obtain ⟨rfl, rfl⟩ := hloads.value hd rfl rfl
    have hlow : timeLow.toNat = 0x02000000 + 4 * 12286 := rfl
    have hhigh : timeHigh.toNat = 0x02000000 + 4 * 12287 := rfl
    rw [s.clintWord_time hlow (.inl rfl), s.clintWord_time hhigh (.inr rfl)]

/-! ## A deadline of 9 at time 3 -/

/-- Core 0 with pointers to its compare register and to `mtime`, and the number 9. -/
def aboutTimer : Simulator 1 0x200000 :=
  { loaded 1 0x200000 [] fun _ r => if r = 3 then 0x02004000 else if r = 4 then 0x0200BFF8
      else if r = 5 then 9 else 0 with
    clint := { CLINT.init 1 with mtime := 3 } }

theorem unmoved_small (s : Simulator N 0x200000) (hc : inClint addr = true) (w : Bool) :
    s.Unmoved j w addr := by
  intro hlt
  have hb := inClint_iff.mp hc
  omega

/-- The pointers and the number are in place. -/
def HasPointers (s : Simulator 1 0x200000) : Prop :=
  (s.cores core0).regs 3 = 0x02004000 ∧ (s.cores core0).regs 4 = 0x0200BFF8 ∧
    (s.cores core0).regs 5 = 9 ∧ (s.cores core0).regs 6 = 0

theorem HasPointers.keep {s s' : Simulator 1 0x200000} (h : s.HasPointers)
    (hregs : ∀ r, r ≠ 0 → r ≠ 1 → (s'.cores core0).regs r = (s.cores core0).regs r) :
    s'.HasPointers := by
  obtain ⟨h3, h4, h5, h6⟩ := h
  exact ⟨(hregs 3 (by decide) (by decide)).trans h3, (hregs 4 (by decide) (by decide)).trans h4,
    (hregs 5 (by decide) (by decide)).trans h5, (hregs 6 (by decide) (by decide)).trans h6⟩

/-- SW of either word of the compare register. -/
theorem HasPointers.stores {s : Simulator 1 0x200000} (h : s.HasPointers) :
    (∃ s', s.StoresWord core0 (compareLow 0) 9 s' ∧ s'.HasPointers) ∧
      ∃ s', s.StoresWord core0 (compareHigh 0) 0 s' ∧ s'.HasPointers := by
  obtain ⟨h3, h4, h5, h6⟩ := h
  constructor
  · have haddr : (Store.mk .sw 5 3 0).address (s.cores core0).regs = compareLow 0 := by
      unfold Store.address
      rw [h3]
      rfl
    obtain ⟨s', hs', hregs⟩ := storesWord_exists rfl rfl haddr (s.unmoved_small rfl true)
    exact ⟨s', h5 ▸ hs', .keep ⟨h3, h4, h5, h6⟩ fun r h0 _ => hregs r h0⟩
  · have haddr : (Store.mk .sw 6 3 4).address (s.cores core0).regs = compareHigh 0 := by
      unfold Store.address
      rw [h3]
      rfl
    obtain ⟨s', hs', hregs⟩ := storesWord_exists rfl rfl haddr (s.unmoved_small rfl true)
    exact ⟨s', h6 ▸ hs', .keep ⟨h3, h4, h5, h6⟩ fun r h0 _ => hregs r h0⟩

/-- LW of a word that `x3` or `x4` points to, or of the next one. -/
theorem HasPointers.loads {s : Simulator 1 0x200000} (h : s.HasPointers) (rs1 : Isa.Reg)
    (offset : BitVec 12) (hc : inClint ((s.cores core0).regs rs1 + offset.signExtend 32) = true) :
    ∃ s' v, s.LoadsWord core0 ((s.cores core0).regs rs1 + offset.signExtend 32) v s' ∧
      s'.HasPointers := by
  have haddr : (Load.mk .lw 1 rs1 offset).address (s.cores core0).regs =
      (s.cores core0).regs rs1 + offset.signExtend 32 := rfl
  obtain ⟨s', v, hs', hregs⟩ := loadsWord_exists hc rfl (show (1 : Isa.Reg) ≠ 0 by decide) haddr
    (s.unmoved_small hc false)
  exact ⟨s', v, hs', h.keep hregs⟩

theorem HasPointers.loadsCompare {s : Simulator 1 0x200000} (h : s.HasPointers) :
    ∃ low high, s.LoadsWords (compareLow 0) (compareHigh 0) low high := by
  have hl : (s.cores core0).regs 3 + (0 : BitVec 12).signExtend 32 = compareLow 0 := by
    rw [h.1]
    rfl
  obtain ⟨s₁, low, h1, hp⟩ := h.loads 3 0 (hl ▸ rfl)
  have hh : (s₁.cores core0).regs 3 + (4 : BitVec 12).signExtend 32 = compareHigh 0 := by
    rw [hp.1]
    rfl
  obtain ⟨s₂, high, h2, -⟩ := hp.loads 3 4 (hh ▸ rfl)
  exact ⟨low, high, core0, core0, s₁, s₂, hl ▸ h1, hh ▸ h2⟩

theorem HasPointers.loadsTime {s : Simulator 1 0x200000} (h : s.HasPointers) :
    ∃ low high, s.LoadsWords timeLow timeHigh low high := by
  have hl : (s.cores core0).regs 4 + (0 : BitVec 12).signExtend 32 = timeLow := by
    rw [h.2.1]
    rfl
  obtain ⟨s₁, low, h1, hp⟩ := h.loads 4 0 (hl ▸ rfl)
  have hh : (s₁.cores core0).regs 4 + (4 : BitVec 12).signExtend 32 = timeHigh := by
    rw [hp.2.1]
    rfl
  obtain ⟨s₂, high, h2, -⟩ := hp.loads 4 4 (hh ▸ rfl)
  exact ⟨low, high, core0, core0, s₁, s₂, hl ▸ h1, hh ▸ h2⟩

theorem aboutTimer_pointers : aboutTimer.HasPointers := ⟨rfl, rfl, rfl, rfl⟩

/-- Both orders of the two stores go through. -/
theorem aboutTimer_stores (lowLast : Bool) :
    ∃ s₁, aboutTimer.StoresCompare core0 lowLast 9 0 s₁ ∧ s₁.HasPointers := by
  cases lowLast with
  | true =>
    obtain ⟨s₁, h1, hp1⟩ := aboutTimer_pointers.stores.2
    obtain ⟨s₂, h2, hp2⟩ := hp1.stores.1
    exact ⟨s₂, ⟨core0, core0, s₁, h1, h2⟩, hp2⟩
  | false =>
    obtain ⟨s₁, h1, hp1⟩ := aboutTimer_pointers.stores.1
    obtain ⟨s₂, h2, hp2⟩ := hp1.stores.2
    exact ⟨s₂, ⟨core0, core0, s₁, h1, h2⟩, hp2⟩

/-- With the low word last the interrupt comes on time, but neither the words of the
deadline nor those of the time read back. -/
theorem clint_words_low_last :
    (∃ s₁, aboutTimer.StoresCompare core0 true 9 0 s₁ ∧
      (∀ delta, (s₁.clint.updateTimer delta).hasTimerInterrupt core0 = true ↔
        (0 : Word) ++ (9 : Word) ≤ (s₁.clint.updateTimer delta).mtime) ∧
      ∃ low high, s₁.LoadsWords (compareLow 0) (compareHigh 0) low high ∧
        ¬(low = 9 ∧ high = 0)) ∧
      ∃ low high, aboutTimer.LoadsWords timeLow timeHigh low high ∧
        high ++ low ≠ aboutTimer.clint.mtime := by
  obtain ⟨hstores, htime⟩ :=
    clint_words_iff (s := aboutTimer) (i := core0) (u := {}) rfl (by decide)
  refine ⟨?_, ?_⟩
  · obtain ⟨s₁, hs₁, hp⟩ := aboutTimer_stores true
    obtain ⟨-, hlater, hread⟩ := hstores true 9 0 s₁ hs₁
    obtain ⟨low, high, hloads⟩ := hp.loadsCompare
    refine ⟨s₁, hs₁, hlater.mpr (by decide), low, high, hloads, ?_⟩
    rw [hread low high hloads]
    unfold ReadsBackWords
    decide
  · obtain ⟨low, high, hloads⟩ := aboutTimer_pointers.loadsTime
    refine ⟨low, high, hloads, ?_⟩
    rw [ne_eq, htime low high hloads]
    decide

/-- With the high word last the interrupt is pending at time 3, before the deadline. -/
theorem clint_words_high_last : ∃ s₁, aboutTimer.StoresCompare core0 false 9 0 s₁ ∧
    ¬(s₁.clint.hasTimerInterrupt core0 = true ↔ (0 : Word) ++ (9 : Word) ≤ s₁.clint.mtime) := by
  obtain ⟨s₁, hs₁, -⟩ := aboutTimer_stores false
  obtain ⟨-, hclint⟩ := hs₁.clint (u := {}) rfl (by decide)
  refine ⟨s₁, hs₁, ?_⟩
  rw [hclint]
  decide

end Simulator
end RiscvEmulator.System
