import RiscvEmulator.Cores.MulDiv
import RiscvEmulator.Isa.Machine
import RiscvEmulator.Memory.OwnedLines

/-! # Disciplined programs

What a program has to do without, since nothing keeps the data caches in step: a
block of 64 bytes is code for all cores, data of one core, or, if it is not cached,
memory that all cores use. A program is disciplined if the machine of the
specification, whatever the order of its steps, never leaves this, does not jump to
misaligned addresses and multiplies only what the switch gets right. -/
namespace RiscvEmulator.System
open Memory Cores Isa

/-- What a block of 64 bytes is for. -/
inductive Use (N : Nat) where
  | unused
  | code
  | data (owner : Fin N)
  | shared
deriving DecidableEq, Repr

/-- The use of each block of RAM. The write-through window has one block, and the
monitor writes its array of core states. -/
structure Layout (N n : Nat) where
  use : Nat → Use N
  inside : ∀ b, use b ≠ .unused → 64 * b + 64 ≤ n
  shared : ∀ addr : Word, use (addr.toNat / 64) = .shared → hasDataCache addr = false
  window : use 0x2080 = .unused
  states : ∀ b, use b ≠ .unused → 64 * b + 64 ≤ 0x90000 ∨ 0x90000 + 4 * N ≤ 64 * b

namespace Layout
variable {N n : Nat} (L : Layout N n)

/-- The core that alone uses a block. -/
def owner (b : Nat) : Option (Fin N) :=
  match L.use b with
  | .data i => some i
  | _ => none

/-- The use of an address. -/
def useOf (addr : Word) : Use N := L.use (addr.toNat / 64)

def MayFetch (addr : Word) : Prop := addr.toNat % 4 = 0 ∧ L.useOf addr = .code

def MayLoad (i : Fin N) (addr : Word) (size : Nat) : Prop :=
  addr.toNat % size = 0 ∧
    (L.useOf addr = .code ∨ L.useOf addr = .data i ∨ L.useOf addr = .shared)

def MayStore (i : Fin N) (addr : Word) (size : Nat) : Prop :=
  addr.toNat % size = 0 ∧ (L.useOf addr = .data i ∨ L.useOf addr = .shared)

/-- What core `i` may execute in a state of its hart. -/
def Allows (i : Fin N) (s : State) : Instr → Prop
  | .compute instr => instr.targetMisaligned s = false
  | .mulDiv instr => MulDivRight instr (s.regs instr.rs1) (s.regs instr.rs2)
  | .load instr => L.MayLoad i (instr.address s.regs) instr.op.size
  | .store instr =>
    L.MayStore i (instr.address s.regs) instr.op.size ∨ instr.address s.regs = transmitAddr
  | .fence _ | .hartId _ => True

/-- Hart `i` is at an instruction it may execute. -/
structure Follows (m : Machine N) (i : Fin N) : Prop where
  fetch : L.MayFetch (m.harts i).pc
  allowed : ∃ instr, m.fetched i = some instr ∧ L.Allows i (m.harts i) instr

/-- All harts are, in all runs. -/
def Disciplined (m : Machine N) : Prop :=
  ∀ order m', m.run order = some m' → ∀ i, L.Follows m' i

variable {L} {m m' : Machine N} {i : Fin N} {addr : Word} {b : Nat}

theorem Disciplined.follows (h : L.Disciplined m) (i : Fin N) : L.Follows m i := h [] m rfl i

theorem Disciplined.step (h : L.Disciplined m) (hstep : m.step i = some m') :
    L.Disciplined m' := by
  intro order m'' hrun
  refine h (i :: order) m'' ?_
  rw [Machine.run_cons, hstep]
  exact hrun

/-- The machine never gets stuck. -/
theorem Disciplined.run (h : L.Disciplined m) (order : List (Fin N)) :
    ∃ m', m.run order = some m' ∧ L.Disciplined m' := by
  induction order generalizing m with
  | nil => exact ⟨m, rfl, h⟩
  | cons i order ih =>
    obtain ⟨instr, hfetched, _⟩ := (h.follows i).allowed
    have hstep : m.step i = some (m.exec i instr) := Machine.step_eq_some.mpr ⟨instr, hfetched, rfl⟩
    obtain ⟨m', hrun, hm'⟩ := ih (h.step hstep)
    exact ⟨m', by rw [Machine.run_cons, hstep]; exact hrun, hm'⟩

/-- The way to show that a program is disciplined: an invariant from which every hart
is at an instruction it may execute, and which that instruction keeps. -/
theorem disciplined_of_invariant {P : Machine N → Prop} (hinit : P m)
    (hstep : ∀ m i, P m → L.MayFetch (m.harts i).pc ∧ ∃ instr, m.fetched i = some instr ∧
      L.Allows i (m.harts i) instr ∧ P (m.exec i instr)) : L.Disciplined m := by
  have hrun : ∀ (order : List (Fin N)) (m m' : Machine N), P m → m.run order = some m' → P m' := by
    intro order
    induction order with
    | nil =>
      intro m m' hm h
      obtain rfl := Option.some.inj h
      exact hm
    | cons i order ih =>
      intro m m' hm h
      obtain ⟨_, instr, hfetched, _, hnext⟩ := hstep m i hm
      rw [Machine.run_cons, Machine.step, hfetched] at h
      exact ih _ m' hnext h
  intro order m' h i
  obtain ⟨hfetch, instr, hfetched, hallows, _⟩ := hstep m' i (hrun order m m' hinit h)
  exact ⟨hfetch, instr, hfetched, hallows⟩

/-! ## Owners -/

theorem owner_data (h : L.use b = .data i) : L.owner b = some i := by
  unfold owner
  rw [h]

theorem owner_code (h : L.use b = .code) : L.owner b = none := by
  unfold owner
  rw [h]

theorem owner_shared (h : L.use b = .shared) : L.owner b = none := by
  unfold owner
  rw [h]

/-- The block of a word. -/
theorem useOf_wordOf (addr : Word) : L.useOf (byteAddr (wordOf addr)) = L.useOf addr := by
  unfold useOf
  rw [byteAddr_toNat, wordOf_toNat]
  congr 1
  omega

theorem useOf_byteAddr (x : WordAddr) : L.useOf (byteAddr x) = L.use (x.toNat / 16) := by
  unfold useOf
  rw [byteAddr_toNat]
  congr 1
  omega

theorem use_wordOf (addr : Word) : L.use ((wordOf addr).toNat / 16) = L.useOf addr := by
  rw [← useOf_byteAddr, useOf_wordOf]

theorem lt_of_used (h : L.useOf addr ≠ .unused) : addr.toNat < n := by
  have := L.inside _ h
  omega

theorem outside_window (h : L.useOf addr ≠ .unused) : ¬InWindowLine (wordOf addr) := by
  intro hw
  unfold InWindowLine at hw
  rw [wordOf_toNat] at hw
  have hb : addr.toNat / 64 = 0x2080 := by omega
  unfold useOf at h
  rw [hb] at h
  exact h L.window

theorem MayLoad.used {size : Nat} (h : L.MayLoad i addr size) : L.useOf addr ≠ .unused := by
  rcases h.2 with h | h | h <;> simp [h]

theorem MayStore.used {size : Nat} (h : L.MayStore i addr size) : L.useOf addr ≠ .unused := by
  rcases h.2 with h | h <;> simp [h]

theorem MayFetch.used (h : L.MayFetch addr) : L.useOf addr ≠ .unused := by
  rw [h.2]
  simp

theorem MayLoad.readable {size : Nat} (h : L.MayLoad i addr size) :
    (blockPartition L.owner).Readable i (wordOf addr) := by
  have hb := use_wordOf (L := L) addr
  rcases h.2 with h | h | h
  · exact .inl (owner_code (hb.trans h))
  · exact .inr (owner_data (hb.trans h))
  · exact .inl (owner_shared (hb.trans h))

/-- A store to a cached address is one of the owner. -/
theorem MayStore.owner {size : Nat} (h : L.MayStore i addr size) (hc : hasDataCache addr = true) :
    L.owner ((wordOf addr).toNat / 16) = some i := by
  rcases h.2 with h | h
  · exact owner_data ((use_wordOf addr).trans h)
  · rw [L.shared addr h] at hc
    cases hc

end Layout
end RiscvEmulator.System
