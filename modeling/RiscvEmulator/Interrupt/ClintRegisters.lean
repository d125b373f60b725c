import RiscvEmulator.Interrupt.Clint

/-! # The registers behind the addresses of the CLINT

A read or a write is one of the register that its address decodes to, if there is
one. The halves of a 64-bit register are not told apart: each word of it stands
for the whole. -/
namespace RiscvEmulator.Interrupt
open Memory

namespace CLINT
variable {N : Nat} {c : CLINT N} {r r' : Register N} {v : BitVec 64}

/-- What a read of the register gives. -/
def value (c : CLINT N) : Register N → BitVec 64
  | .msip coreId => if c.msip coreId then 1 else 0
  | .mtimecmp coreId => c.mtimecmp coreId
  | .mtime => c.mtime

/-- What a write to the register does. -/
def set (c : CLINT N) (v : BitVec 64) : Register N → CLINT N
  | .msip coreId => { c with msip := Function.update c.msip coreId (v != 0) }
  | .mtimecmp coreId => { c with mtimecmp := Function.update c.mtimecmp coreId v }
  | .mtime => { c with mtime := v }

/-- Writing `v` would leave the register as it is. -/
def Holds (c : CLINT N) (v : BitVec 64) : Register N → Prop
  | .msip coreId => c.msip coreId = (v != 0)
  | .mtimecmp coreId => c.mtimecmp coreId = v
  | .mtime => c.mtime = v

theorem read_eq (c : CLINT N) (addr : BitVec 64) (size : Nat) :
    c.read addr size = ((register N addr size).map c.value).getD 0 := by
  unfold read
  cases register N addr size with
  | none => rfl
  | some r => cases r <;> rfl

theorem write_eq (c : CLINT N) (addr v : BitVec 64) (size : Nat) :
    c.write addr v size = ((register N addr size).map (c.set v)).getD c := by
  unfold write
  cases register N addr size with
  | none => rfl
  | some r => cases r <;> rfl

theorem set_eq_self_iff : c.set v r = c ↔ c.Holds v r := by
  cases r with
  | msip k =>
    constructor
    · intro h
      have hk := congrFun (congrArg CLINT.msip h) k
      exact hk.symm.trans (Function.update_self ..)
    · intro h
      show { c with msip := Function.update c.msip k (v != 0) } = c
      rw [← show c.msip k = (v != 0) from h, Function.update_eq_self]
  | mtimecmp k =>
    constructor
    · intro h
      have hk := congrFun (congrArg CLINT.mtimecmp h) k
      exact hk.symm.trans (Function.update_self ..)
    · intro h
      show { c with mtimecmp := Function.update c.mtimecmp k v } = c
      rw [← show c.mtimecmp k = v from h, Function.update_eq_self]
  | mtime =>
    constructor
    · intro h
      exact (congrArg CLINT.mtime h).symm
    · intro h
      show { c with mtime := v } = c
      rw [← show c.mtime = v from h]

/-- What the register shows once `v` has been written to it. -/
def shown (v : BitVec 64) : Register N → BitVec 64
  | .msip _ => if v != 0 then 1 else 0
  | .mtimecmp _ => v
  | .mtime => v

theorem value_set_self (c : CLINT N) (v : BitVec 64) (r : Register N) :
    (c.set v r).value r = shown v r := by
  cases r with
  | msip k =>
    have hk : (c.set v (.msip k)).msip k = (v != 0) := Function.update_self ..
    exact congrArg (fun b : Bool => if b then (1 : BitVec 64) else 0) hk
  | mtimecmp k => exact Function.update_self ..
  | mtime => rfl

/-- A write leaves alone what another register shows. -/
theorem value_set_other (h : r ≠ r') : (c.set v r).value r' = c.value r' := by
  cases r with
  | msip k =>
    cases r' with
    | msip k' =>
      have hk : k' ≠ k := fun he => h (congrArg Register.msip he.symm)
      have hsame : (c.set v (.msip k)).msip k' = c.msip k' := Function.update_of_ne hk ..
      exact congrArg (fun b : Bool => if b then (1 : BitVec 64) else 0) hsame
    | mtimecmp k' => rfl
    | mtime => rfl
  | mtimecmp k =>
    cases r' with
    | msip k' => rfl
    | mtimecmp k' =>
      have hk : k' ≠ k := fun he => h (congrArg Register.mtimecmp he.symm)
      exact Function.update_of_ne hk ..
    | mtime => rfl
  | mtime =>
    cases r' with
    | msip k' => rfl
    | mtimecmp k' => rfl
    | mtime => exact absurd rfl h

/-- A register holds a word if it shows what it would show once it is written. -/
theorem holds_iff_value : c.Holds v r ↔ c.value r = shown v r := by
  cases r with
  | msip k =>
    show c.msip k = (v != 0) ↔ (if c.msip k then (1 : BitVec 64) else 0) = if v != 0 then 1 else 0
    cases c.msip k <;> cases (v != 0) <;> decide
  | mtimecmp k => exact Iff.rfl
  | mtime => exact Iff.rfl

theorem set_holds_other (h : r ≠ r') (w : BitVec 64) : (c.set v r).Holds w r' ↔ c.Holds w r' := by
  rw [holds_iff_value, holds_iff_value, value_set_other h]

theorem set_holds (c : CLINT N) (v : BitVec 64) (r : Register N) : (c.set v r).Holds v r :=
  holds_iff_value.mpr (value_set_self c v r)

/-- Writes of one word to two registers come out the same only if neither changes
anything. -/
theorem set_eq_set_iff (h : r ≠ r') : c.set v r = c.set v r' ↔ c.Holds v r ∧ c.Holds v r' := by
  constructor
  · intro heq
    have hr' : (c.set v r).Holds v r' := heq ▸ set_holds c v r'
    have hr : (c.set v r').Holds v r := heq ▸ set_holds c v r
    exact ⟨(set_holds_other (Ne.symm h) v).mp hr, (set_holds_other h v).mp hr'⟩
  · rintro ⟨hr, hr'⟩
    rw [set_eq_self_iff.mpr hr, set_eq_self_iff.mpr hr']

/-- Two words written to two registers, in either order. -/
theorem set_set_value (h : r ≠ r') (w : BitVec 64) (last : Bool) :
    let c' := if last then (c.set w r').set v r else (c.set v r).set w r'
    c'.value r = shown v r ∧ c'.value r' = shown w r' := by
  cases last with
  | true => exact ⟨value_set_self .., (value_set_other h).trans (value_set_self ..)⟩
  | false =>
    exact ⟨(value_set_other (Ne.symm h)).trans (value_set_self ..), value_set_self ..⟩

/-- A write to the address changes nothing: there is no register, or it holds the
value. -/
def Keeps (c : CLINT N) (addr v : BitVec 64) (size : Nat) : Prop :=
  ∀ r, register N addr size = some r → c.Holds v r

theorem write_eq_self_iff (c : CLINT N) (addr v : BitVec 64) (size : Nat) :
    c.write addr v size = c ↔ c.Keeps addr v size := by
  rw [write_eq]
  unfold Keeps
  cases register N addr size with
  | none => simp
  | some r => simp [set_eq_self_iff]

theorem write_eq_write_iff {addr addr' : BitVec 64} {size : Nat}
    (h : ∀ r, register N addr size = some r → register N addr' size ≠ some r) :
    c.write addr v size = c.write addr' v size ↔
      c.Keeps addr v size ∧ c.Keeps addr' v size := by
  rw [write_eq, write_eq]
  unfold Keeps
  cases hr : register N addr size with
  | none =>
    cases hr' : register N addr' size with
    | none => simp
    | some r' => simp [eq_comm (a := c), set_eq_self_iff]
  | some r =>
    cases hr' : register N addr' size with
    | none => simp [set_eq_self_iff]
    | some r' =>
      have hne : r ≠ r' := fun he => h r hr (by rw [hr', he])
      simpa using set_eq_set_iff hne

/-! ## The decoder -/

theorem core_some {k : Nat} (h : k < N) : core N k = some ⟨k, h⟩ := dif_pos h

theorem offset_toNat {a : Word} (h : 0x02000000 ≤ a.toNat) :
    (a.setWidth 64 - clintBase).toNat = a.toNat - 0x02000000 := by
  have ha : a.toNat < 2 ^ 32 := a.isLt
  have hw : (a.setWidth 64).toNat = a.toNat := by
    rw [BitVec.toNat_setWidth]
    exact Nat.mod_eq_of_lt (by omega)
  have hb : clintBase.toNat = 0x02000000 := rfl
  rw [BitVec.toNat_sub_of_le (by rw [BitVec.le_def, hb, hw]; exact h), hw, hb]

/-- Where a register stands. -/
def Register.At (o size : Nat) : Register N → Prop
  | .msip coreId => coreId.val = o / 4
  | .mtimecmp coreId => mtimecmpBase ≤ o ∧ coreId.val = (o - mtimecmpBase) / 8
  | .mtime => o = mtimeOffset ∧ 8 ≤ size

theorem core_val {k : Nat} {i : Fin N} (h : core N k = some i) : i.val = k := by
  unfold core at h
  split at h
  · exact congrArg Fin.val (Option.some.inj h).symm
  · cases h

theorem register_at {addr : BitVec 64} {size : Nat} (h : register N addr size = some r) :
    r.At (addr - clintBase).toNat size := by
  unfold register at h
  simp only at h
  split at h
  · obtain ⟨k, hk, rfl⟩ := Option.map_eq_some_iff.mp h
    exact core_val hk
  · split at h
    · next hoff =>
      obtain ⟨k, hk, rfl⟩ := Option.map_eq_some_iff.mp h
      exact ⟨hoff.1, core_val hk⟩
    · split at h
      · next hoff =>
        cases h
        exact hoff
      · cases h

/-- A register has at most two words. -/
theorem register_near {addr addr' : BitVec 64} {size : Nat} (h : register N addr size = some r)
    (h' : register N addr' size = some r) :
    (addr - clintBase).toNat < (addr' - clintBase).toNat + 8 := by
  have hat := register_at h
  have hat' := register_at h'
  generalize (addr - clintBase).toNat = o at hat ⊢
  generalize (addr' - clintBase).toNat = o' at hat' ⊢
  cases r with
  | msip k =>
    have heq : o / 4 = o' / 4 := hat.symm.trans hat'
    omega
  | mtimecmp k =>
    have heq : (o - mtimecmpBase) / 8 = (o' - mtimecmpBase) / 8 := hat.2.symm.trans hat'.2
    have hle := hat.1
    have hle' := hat'.1
    omega
  | mtime =>
    have heq : o = o' := hat.1.trans hat'.1.symm
    omega

theorem register_msip {a : Word} {size : Nat} (k : Fin N) (hlow : 0x02000000 + 4 * k.val ≤ a.toNat)
    (hhigh : a.toNat < 0x02000004 + 4 * k.val) :
    register N (a.setWidth 64) size = some (.msip k) := by
  have hk := k.isLt
  have hdiv : (a.toNat - 0x02000000 - 0) / 4 = k.val := by omega
  unfold register
  simp only [offset_toNat (a := a) (by omega), msipBase]
  rw [if_pos (by omega), hdiv, core_some hk]
  rfl

/-- The compare register of a core, if the array of software interrupts ends before. -/
theorem register_mtimecmp {a : Word} {size : Nat} (k : Fin N)
    (hlow : 0x02004000 + 8 * k.val ≤ a.toNat) (hhigh : a.toNat < 0x02004008 + 8 * k.val)
    (hmsip : 0x02000000 + 4 * N ≤ a.toNat) :
    register N (a.setWidth 64) size = some (.mtimecmp k) := by
  have hk := k.isLt
  have hdiv : (a.toNat - 0x02000000 - 0x4000) / 8 = k.val := by omega
  unfold register
  simp only [offset_toNat (a := a) (by omega), msipBase, mtimecmpBase]
  rw [if_neg (by omega), if_pos (by omega), hdiv, core_some hk]
  rfl

end CLINT
end RiscvEmulator.Interrupt
