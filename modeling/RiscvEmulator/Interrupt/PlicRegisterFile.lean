import RiscvEmulator.Interrupt.PlicRegisters

/-! # The registers of the PLIC as a memory

The ranges of the decoder are laid out one after another for every number of sources
and targets that the header allows. Each register has an address of its own, which is
decoded to it, and a write to one changes no other. -/
namespace RiscvEmulator.Interrupt
open Memory Lib.Mutex

namespace PLIC

/-! ## Getters -/

def getPriority (p : PLIC) (sourceId : Nat) : Word :=
  if p.isValidSourceId sourceId then p.priorities sourceId else 0

def isEnabled (p : PLIC) (targetId sourceId : Nat) : Bool :=
  p.isValidTargetId targetId && p.isValidSourceId sourceId && p.getEnableBit targetId sourceId

def getThreshold (p : PLIC) (targetId : Nat) : Word :=
  if p.isValidTargetId targetId then p.thresholds targetId else 0

/-! ## The memory map -/

/-- The numbers of sources and targets that the header allows, with a source besides the
reserved one. -/
structure Sized (p : PLIC) : Prop where
  sources : 2 ≤ p.numSources ∧ p.numSources ≤ maxSources
  targets : 1 ≤ p.numTargets ∧ p.numTargets ≤ maxTargets

inductive Window where
  | priority | pending | enable | claimComplete | threshold
deriving DecidableEq

namespace Window

def first (p : PLIC) : Window → Nat
  | priority => priorityBase
  | pending => pendingBase
  | enable => enableBase
  | claimComplete => claimCompleteBase
  | threshold => claimCompleteBase + p.numTargets * 4

def bytes (p : PLIC) : Window → Nat
  | priority => p.numSources * 4
  | pending => p.bitmapWords * 4
  | enable => p.numTargets * (p.bitmapWords * 4)
  | claimComplete => p.numTargets * 4
  | threshold => p.numTargets * 4

/-- The window has the byte at an offset from the base of the controller. -/
def Has (p : PLIC) (w : Window) (offset : Nat) : Prop :=
  w.first p ≤ offset ∧ offset < w.first p + w.bytes p

def of : PlicRegister → Window
  | .priority _ => priority
  | .pending _ => pending
  | .enable _ _ => enable
  | .claimComplete _ => claimComplete
  | .threshold _ => threshold

end Window

/-- The address of a register, four bytes for each. -/
def address (p : PLIC) : PlicRegister → BitVec 64
  | .priority sourceId => plicBase + BitVec.ofNat 64 (priorityBase + sourceId * 4)
  | .pending wordIndex => plicBase + BitVec.ofNat 64 (pendingBase + wordIndex * 4)
  | .enable targetId wordIndex =>
    plicBase + BitVec.ofNat 64 (enableBase + (targetId * (p.bitmapWords * 4) + wordIndex * 4))
  | .claimComplete targetId => plicBase + BitVec.ofNat 64 (claimCompleteBase + targetId * 4)
  | .threshold targetId =>
    plicBase + BitVec.ofNat 64 (claimCompleteBase + p.numTargets * 4 + targetId * 4)

/-- The registers that a write changes: the priority of a source other than the reserved
one, an enable word or a threshold. -/
def Writable (p : PLIC) : PlicRegister → Prop
  | .priority sourceId => 1 ≤ sourceId ∧ sourceId < p.numSources
  | .enable targetId wordIndex => targetId < p.numTargets ∧ wordIndex < p.bitmapWords
  | .threshold targetId => targetId < p.numTargets
  | _ => False

/-- What such a register makes of a value: priorities and thresholds have three bits. -/
def stored (r : PlicRegister) (value : Word) : Word :=
  match r with
  | .enable _ _ => value
  | _ => value % 8

/-- The getters of a register return what belongs to a value. -/
def Shows (p : PLIC) (value : Word) : PlicRegister → Prop
  | .priority sourceId => p.getPriority sourceId = value
  | .enable targetId wordIndex => ∀ sourceId, p.isValidSourceId sourceId = true →
      sourceId / 32 = wordIndex → p.isEnabled targetId sourceId = value.getLsbD (sourceId % 32)
  | .threshold targetId => p.getThreshold targetId = value
  | _ => True

/-- Enter a value for a register. -/
def assign (p : PLIC) (r : PlicRegister) (value : Word) : PLIC :=
  match r with
  | .priority sourceId => { p with priorities := Function.update p.priorities sourceId value }
  | .enable targetId wordIndex =>
    { p with
      enable := Function.update p.enable targetId
        (Function.update (p.enable targetId) wordIndex value) }
  | .threshold targetId => { p with thresholds := Function.update p.thresholds targetId value }
  | _ => p

/-- Every register but `r` is in `q` as it is in `p`. -/
structure SameBut (p : PLIC) (r : PlicRegister) (q : PLIC) : Prop where
  sizes : q.numSources = p.numSources ∧ q.numTargets = p.numTargets
  priorities : ∀ sourceId, r ≠ .priority sourceId → q.priorities sourceId = p.priorities sourceId
  pending : q.pending = p.pending
  enable : ∀ targetId wordIndex, r ≠ .enable targetId wordIndex →
    q.enable targetId wordIndex = p.enable targetId wordIndex
  claimed : q.claimed = p.claimed
  thresholds : ∀ targetId, r ≠ .threshold targetId → q.thresholds targetId = p.thresholds targetId

variable {p : PLIC} {r : PlicRegister}

/-! ## The windows -/

/-- Every window ends before the next one begins. -/
theorem Sized.bounds (h : p.Sized) : p.numSources * 4 ≤ 0x1000 ∧ p.bitmapWords ≤ 32 ∧
    0 < p.bitmapWords ∧ p.numTargets * (p.bitmapWords * 4) ≤ 0x1F0000 := by
  have hsources : p.numSources ≤ 1024 := h.sources.2
  have htwo : 2 ≤ p.numSources := h.sources.1
  have htargets : p.numTargets ≤ 15872 := h.targets.2
  have hwords : p.bitmapWords ≤ 32 := by
    unfold bitmapWords
    omega
  refine ⟨by omega, hwords, by unfold bitmapWords; omega, ?_⟩
  calc p.numTargets * (p.bitmapWords * 4) ≤ 15872 * 128 :=
        Nat.mul_le_mul htargets (by omega)
    _ = 0x1F0000 := rfl

theorem windows_disjoint (h : p.Sized) {w w' : Window} (hne : w ≠ w') {offset : Nat}
    (hw : w.Has p offset) : ¬w'.Has p offset := by
  obtain ⟨hsources, hwords, _, henable⟩ := h.bounds
  intro hw'
  cases w <;> cases w' <;>
    simp only [Window.Has, Window.first, Window.bytes, priorityBase, pendingBase, enableBase,
      claimCompleteBase, ne_eq, not_true_eq_false] at hne hw hw' <;>
    omega

/-! ## Decoding -/

/-- An access is decoded to a register of the window its address lies in. -/
theorem window_iff (h : p.Sized) (addr : BitVec 64) (w : Window) :
    w.Has p (addr - plicBase).toNat ↔ (p.register addr).map Window.of = some w := by
  obtain ⟨hsources, hwords, _, henable⟩ := h.bounds
  unfold register Window.Has
  generalize (addr - plicBase).toNat = offset
  simp only
  repeat' split
  all_goals
    cases w <;>
      simp only [Option.map_some, Option.map_none, Window.of, Option.some.injEq, reduceCtorEq,
        iff_true, iff_false, Window.first, Window.bytes, priorityBase, pendingBase, enableBase,
        claimCompleteBase] at * <;>
      omega

theorem offset_address {n : Nat} (hn : n < 2 ^ 64) :
    (plicBase + BitVec.ofNat 64 n - plicBase).toNat = n := by
  rw [add_sub_cancel_left, BitVec.toNat_ofNat, Nat.mod_eq_of_lt hn]

/-- A word of a row of the enable bits is within the rows. -/
theorem enable_offset_lt {t n b k : Nat} (ht : t < n) (hk : k < b) : t * b + k < n * b := by
  calc t * b + k < t * b + b := by omega
    _ = (t + 1) * b := by rw [Nat.add_mul, Nat.one_mul]
    _ ≤ n * b := Nat.mul_le_mul_right b ht

theorem register_address (h : p.Sized) (hr : p.Writable r) :
    p.register (p.address r) = some r := by
  obtain ⟨hsources, hwords, hpos, henable⟩ := h.bounds
  have htargets : p.numTargets ≤ 15872 := h.targets.2
  unfold register
  cases r with
  | pending _ => exact hr.elim
  | claimComplete _ => exact hr.elim
  | priority s =>
    have hs : s < p.numSources := hr.2
    have hoffset := offset_address (show priorityBase + s * 4 < 2 ^ 64 by
      unfold priorityBase
      omega)
    simp only [address, hoffset]
    rw [if_pos (by omega), Nat.add_sub_cancel_left, Nat.mul_div_cancel _ (by omega)]
  | enable t w =>
    have hrow := enable_offset_lt hr.1 (show w * 4 < p.bitmapWords * 4 by have := hr.2; omega)
    have hoffset := offset_address (show
      enableBase + (t * (p.bitmapWords * 4) + w * 4) < 2 ^ 64 by
        unfold enableBase
        omega)
    simp only [address, hoffset]
    rw [if_neg (by unfold priorityBase enableBase; omega),
      if_neg (by unfold pendingBase enableBase; omega), if_pos (by omega), Nat.add_sub_cancel_left]
    have hw : w * 4 < p.bitmapWords * 4 := by have := hr.2; omega
    rw [Nat.mul_add_mod_self_right, Nat.mod_eq_of_lt hw, Nat.mul_div_cancel _ (by omega),
      Nat.mul_comm t, Nat.mul_add_div (by omega), Nat.div_eq_of_lt hw, Nat.add_zero]
  | threshold t =>
    have ht : t < p.numTargets := hr
    have hoffset := offset_address (show
      claimCompleteBase + p.numTargets * 4 + t * 4 < 2 ^ 64 by
        unfold claimCompleteBase
        omega)
    simp only [address, hoffset]
    rw [if_neg (by unfold priorityBase claimCompleteBase; omega),
      if_neg (by unfold pendingBase claimCompleteBase; omega),
      if_neg (by unfold enableBase claimCompleteBase; omega), if_neg (by omega),
      if_pos (by omega)]
    congr 2
    omega

/-! ## Accesses -/

theorem and_seven (value : Word) : value &&& 0x7 = value % 8 :=
  BitVec.eq_of_toNat_eq (Nat.and_two_pow_sub_one_eq_mod value.toNat 3)

theorem Writable.valid_source {s : Nat} (hr : p.Writable (.priority s)) :
    p.isValidSourceId s = true := by
  have hpos : 0 < s := hr.1
  unfold isValidSourceId
  rw [decide_eq_true hpos, decide_eq_true hr.2]
  rfl

theorem Writable.valid_enable {t w : Nat} (hr : p.Writable (.enable t w)) :
    (p.isValidTargetId t && decide (w < p.bitmapWords)) = true := by
  unfold isValidTargetId
  rw [decide_eq_true hr.1, decide_eq_true hr.2]
  rfl

theorem Writable.valid_threshold {t : Nat} (hr : p.Writable (.threshold t)) :
    p.isValidTargetId t = true := decide_eq_true (p := t < p.numTargets) hr

theorem write_address (h : p.Sized) (hr : p.Writable r) (value : Word) (size : Int) :
    Returns (write (p.address r) value size) p () (p.assign r (stored r value)) := by
  refine withLock_returns ?_
  simp only [register_address h hr]
  cases r with
  | pending _ => exact hr.elim
  | claimComplete _ => exact hr.elim
  | priority s =>
    simp only [plain, setPriority, hr.valid_source, if_true, and_seven]
    rfl
  | enable t w =>
    simp only [plain, hr.valid_enable, if_true]
    rfl
  | threshold t =>
    simp only [plain, setThreshold, hr.valid_threshold, if_true, and_seven]
    rfl

theorem assign_sameBut (p : PLIC) (r : PlicRegister) (value : Word) :
    p.SameBut r (p.assign r value) := by
  cases r with
  | pending _ => exact ⟨⟨rfl, rfl⟩, fun _ _ => rfl, rfl, fun _ _ _ => rfl, rfl, fun _ _ => rfl⟩
  | claimComplete _ =>
    exact ⟨⟨rfl, rfl⟩, fun _ _ => rfl, rfl, fun _ _ _ => rfl, rfl, fun _ _ => rfl⟩
  | priority s =>
    refine ⟨⟨rfl, rfl⟩, fun s' hne => ?_, rfl, fun _ _ _ => rfl, rfl, fun _ _ => rfl⟩
    exact Function.update_of_ne (fun hs => hne (by rw [hs])) ..
  | threshold t =>
    refine ⟨⟨rfl, rfl⟩, fun _ _ => rfl, rfl, fun _ _ _ => rfl, rfl, fun t' hne => ?_⟩
    exact Function.update_of_ne (fun ht => hne (by rw [ht])) ..
  | enable t w =>
    refine ⟨⟨rfl, rfl⟩, fun _ _ => rfl, rfl, fun t' w' hne => ?_, rfl, fun _ _ => rfl⟩
    show Function.update p.enable t _ t' w' = _
    by_cases ht : t' = t
    · rw [ht, Function.update_self]
      exact Function.update_of_ne (fun hw => hne (by rw [ht, hw])) ..
    · rw [Function.update_of_ne ht]

/-- The map depends on the sizes only. -/
theorem SameBut.register {q : PLIC} (h : p.SameBut r q) (addr : BitVec 64) :
    q.register addr = p.register addr := by
  unfold PLIC.register bitmapWords
  rw [h.sizes.1, h.sizes.2]

theorem SameBut.writable {q : PLIC} (h : p.SameBut r q) : q.Writable r ↔ p.Writable r := by
  unfold Writable bitmapWords
  rw [h.sizes.1, h.sizes.2]

/-- The value is read back, and the getters return it. -/
theorem read_assign (h : p.Sized) (hr : p.Writable r) (value : Word) (size : Int) :
    Returns (read (p.address r) size) (p.assign r value) value (p.assign r value) ∧
      (p.assign r value).Shows value r := by
  have hsame := assign_sameBut p r value
  have hregister : (p.assign r value).register (p.address r) = some r := by
    rw [hsame.register, register_address h hr]
  have hq : (p.assign r value).Writable r := hsame.writable.mpr hr
  constructor
  · refine withLock_returns ?_
    simp only [hregister]
    cases r with
    | pending _ => exact hr.elim
    | claimComplete _ => exact hr.elim
    | priority s =>
      simp only [plain, hq.valid_source, if_true]
      simp only [assign, Function.update_self]
    | enable t w =>
      simp only [plain, hq.valid_enable, if_true]
      simp only [assign, Function.update_self]
    | threshold t =>
      simp only [plain, hq.valid_threshold, if_true]
      simp only [assign, Function.update_self]
  · cases r with
    | pending _ => exact hr.elim
    | claimComplete _ => exact hr.elim
    | priority s =>
      show (p.assign _ value).getPriority s = value
      unfold getPriority
      rw [if_pos hq.valid_source]
      exact Function.update_self ..
    | enable t w =>
      intro s hs hw
      have hbit : (p.assign (.enable t w) value).enable t w = value := by
        simp only [assign, Function.update_self]
      unfold isEnabled getEnableBit
      rw [hs, hw, hbit, show (p.assign (.enable t w) value).isValidTargetId t = true from
        decide_eq_true hq.1, decide_eq_true hq.2]
      rfl
    | threshold t =>
      show (p.assign _ value).getThreshold t = value
      unfold getThreshold
      rw [if_pos hq.valid_threshold]
      exact Function.update_self ..

/-- The windows are pairwise disjoint, and an address is decoded to a register of its
window. A write to the priority of a source, to an enable word or to a threshold is read
back, the getters show it, and every other register is as before. -/
structure RegisterFile (p : PLIC) : Prop where
  disjoint : ∀ w w' : Window, w ≠ w' → ∀ offset, w.Has p offset → ¬w'.Has p offset
  decoded : ∀ addr (w : Window),
    w.Has p (addr - plicBase).toNat ↔ (p.register addr).map Window.of = some w
  write : ∀ r, p.Writable r → ∀ (value : Word) (size size' : Int),
    ∃ q, Returns (write (p.address r) value size) p () q ∧
      Returns (read (p.address r) size') q (stored r value) q ∧
      q.Shows (stored r value) r ∧ p.SameBut r q

theorem register_file (p : PLIC) (h : p.Sized) : p.RegisterFile := by
  refine ⟨fun w w' hne offset => windows_disjoint h hne, window_iff h, ?_⟩
  intro r hr value size size'
  obtain ⟨hread, hshows⟩ := read_assign h hr (stored r value) size'
  exact ⟨_, write_address h hr value size, hread, hshows, assign_sameBut _ _ _⟩

/-- The largest controller. -/
theorem register_file_largest : (init 1024 15872).Sized ∧ (init 1024 15872).RegisterFile :=
  have h : (init 1024 15872).Sized := ⟨by decide, by decide⟩
  ⟨h, register_file _ h⟩

end PLIC
end RiscvEmulator.Interrupt
