import RiscvEmulator.Memory.Interface

/-! # Byte-addressed backing memories

`DDRMemory` and the Simulator's own `memory` are vectors of bytes, accessed
little-endian with a bounds check in 64-bit arithmetic (`addr + 4` never
wraps). Latencies and access counts are not modelled: no access depends on
them. -/
namespace RiscvEmulator.Memory

/-- The little-endian word made of the four bytes from `a` on. -/
def load32 (mem : Nat → Byte) (a : Nat) : Word :=
  (mem a).setWidth 32 ||| (mem (a + 1)).setWidth 32 <<< 8 |||
    (mem (a + 2)).setWidth 32 <<< 16 ||| (mem (a + 3)).setWidth 32 <<< 24

def store32 (mem : Nat → Byte) (a : Nat) (v : Word) : Nat → Byte :=
  Function.update (Function.update (Function.update (Function.update mem
    a (v.setWidth 8)) (a + 1) ((v >>> 8).setWidth 8)) (a + 2) ((v >>> 16).setWidth 8))
    (a + 3) ((v >>> 24).setWidth 8)

def load16 (mem : Nat → Byte) (a : Nat) : BitVec 16 :=
  (mem a).setWidth 16 ||| (mem (a + 1)).setWidth 16 <<< 8

def store16 (mem : Nat → Byte) (a : Nat) (v : BitVec 16) : Nat → Byte :=
  Function.update (Function.update mem a (v.setWidth 8)) (a + 1) ((v >>> 8).setWidth 8)

/-- A vector of `n` bytes. Indices from `n` on are never accessed. -/
structure ByteMemory (n : Nat) where
  bytes : Nat → Byte

namespace ByteMemory
variable {n : Nat}

def readWord (m : ByteMemory n) (addr : Word) : Word :=
  if addr.toNat + 4 ≤ n then load32 m.bytes addr.toNat else 0

def writeWord (m : ByteMemory n) (addr data : Word) : ByteMemory n :=
  if addr.toNat + 4 ≤ n then ⟨store32 m.bytes addr.toNat data⟩ else m

def readHalfword (m : ByteMemory n) (addr : Word) : BitVec 16 :=
  if addr.toNat + 2 ≤ n then load16 m.bytes addr.toNat else 0

def writeHalfword (m : ByteMemory n) (addr : Word) (data : BitVec 16) : ByteMemory n :=
  if addr.toNat + 2 ≤ n then ⟨store16 m.bytes addr.toNat data⟩ else m

def readByte (m : ByteMemory n) (addr : Word) : Byte :=
  if addr.toNat < n then m.bytes addr.toNat else 0

def writeByte (m : ByteMemory n) (addr : Word) (data : Byte) : ByteMemory n :=
  if addr.toNat < n then ⟨Function.update m.bytes addr.toNat data⟩ else m

def readBlock (m : ByteMemory n) (addr : Word) : Nat → List Word
  | 0 => []
  | words + 1 => m.readWord addr :: m.readBlock (addr + 4) words

def writeBlock (m : ByteMemory n) (addr : Word) : List Word → ByteMemory n
  | [] => m
  | w :: ws => (m.writeWord addr w).writeBlock (addr + 4) ws

instance : MemoryInterface (ByteMemory n) where
  readWord m addr := (m.readWord addr, m)
  writeWord m addr data := m.writeWord addr data
  readBlock m addr words := (m.readBlock addr words, m)
  writeBlock m addr data := m.writeBlock addr data

end ByteMemory

/-- The 1 GB DDR the Simulator configures. -/
abbrev ddrSize : Nat := 0x40000000
abbrev DDRMemory := ByteMemory ddrSize

/-! ## Little-endian words -/

private theorem byte_pick (v : Word) :
    (v.setWidth 8).setWidth 32 ||| ((v >>> 8).setWidth 8).setWidth 32 <<< 8 |||
      ((v >>> 16).setWidth 8).setWidth 32 <<< 16 |||
      ((v >>> 24).setWidth 8).setWidth 32 <<< 24 = v := by
  ext i hi
  have : i < 8 ∨ (8 ≤ i ∧ i < 16) ∨ (16 ≤ i ∧ i < 24) ∨ (24 ≤ i ∧ i < 32) := by omega
  simp only [BitVec.getElem_or, BitVec.getElem_shiftLeft, BitVec.getElem_setWidth,
    BitVec.getLsbD_setWidth, BitVec.getLsbD_ushiftRight]
  rcases this with h | h | h | h <;> grind

theorem load32_store32 (mem : Nat → Byte) (a : Nat) (v : Word) :
    load32 (store32 mem a v) a = v := by
  have h : ∀ k, k < 4 → store32 mem a v (a + k) = (v >>> (8 * k)).setWidth 8 := by
    intro k hk
    have : k = 0 ∨ k = 1 ∨ k = 2 ∨ k = 3 := by omega
    rcases this with rfl | rfl | rfl | rfl <;> simp [store32]
  have h0 := h 0 (by omega)
  simp only [Nat.add_zero, Nat.mul_zero, BitVec.ushiftRight_zero] at h0
  unfold load32
  rw [h0, h 1 (by omega), h 2 (by omega), h 3 (by omega)]
  exact byte_pick v

theorem store32_other (mem : Nat → Byte) (a b : Nat) (v : Word) (h : b < a ∨ a + 4 ≤ b) :
    store32 mem a v b = mem b := by
  simp only [store32, Function.update_apply]
  rw [if_neg (by omega), if_neg (by omega), if_neg (by omega), if_neg (by omega)]

theorem load32_byte (mem : Nat → Byte) (a : Nat) {k : Nat} (hk : k < 4) :
    (load32 mem a >>> (8 * k)).setWidth 8 = mem (a + k) := by
  ext i hi
  have hcases : k = 0 ∨ k = 1 ∨ k = 2 ∨ k = 3 := by omega
  simp only [load32, BitVec.getElem_setWidth, BitVec.getLsbD_ushiftRight, BitVec.getLsbD_or,
    BitVec.getLsbD_shiftLeft, BitVec.getLsbD_setWidth]
  rcases hcases with rfl | rfl | rfl | rfl <;> grind

/-- Four bytes are copied. -/
theorem store32_load32 (mem mem' : Nat → Byte) (a b x : Nat) :
    store32 mem a (load32 mem' b) x =
      if a ≤ x ∧ x < a + 4 then mem' (b + (x - a)) else mem x := by
  split
  case isTrue h =>
    have hcases : x - a = 0 ∨ x - a = 1 ∨ x - a = 2 ∨ x - a = 3 := by omega
    rw [← load32_byte mem' b (k := x - a) (by omega)]
    simp only [store32, Function.update_apply]
    rcases hcases with hk | hk | hk | hk <;> grind
  case isFalse h => exact store32_other _ _ _ _ (by omega)

theorem load32_congr {mem mem' : Nat → Byte} {a : Nat}
    (h : ∀ k, k < 4 → mem (a + k) = mem' (a + k)) : load32 mem a = load32 mem' a := by
  have h0 := h 0 (by omega)
  simp only [Nat.add_zero] at h0
  simp only [load32, h0, h 1 (by omega), h 2 (by omega), h 3 (by omega)]

/-! ## What a store leaves alone -/

namespace ByteMemory
variable {n : Nat}

theorem readWord_congr {m m' : ByteMemory n} {addr : Word}
    (h : ∀ k, k < 4 → m.bytes (addr.toNat + k) = m'.bytes (addr.toNat + k)) :
    m.readWord addr = m'.readWord addr := by
  unfold readWord
  split
  · exact load32_congr h
  · rfl

theorem writeWord_other (m : ByteMemory n) (addr data : Word) {b : Nat}
    (h : b < addr.toNat ∨ addr.toNat + 4 ≤ b) : (m.writeWord addr data).bytes b = m.bytes b := by
  unfold writeWord
  split
  · exact store32_other _ _ _ _ h
  · rfl

theorem writeHalfword_other (m : ByteMemory n) (addr : Word) (data : BitVec 16) {b : Nat}
    (h : b < addr.toNat ∨ addr.toNat + 2 ≤ b) :
    (m.writeHalfword addr data).bytes b = m.bytes b := by
  unfold writeHalfword store16
  split
  · simp only [Function.update_apply]
    rw [if_neg (by omega), if_neg (by omega)]
  · rfl

theorem writeByte_other (m : ByteMemory n) (addr : Word) (data : Byte) {b : Nat}
    (h : b < addr.toNat ∨ addr.toNat + 1 ≤ b) : (m.writeByte addr data).bytes b = m.bytes b := by
  unfold writeByte
  split
  · exact Function.update_of_ne (by omega) ..
  · rfl

end ByteMemory

/-! ## A byte memory is a word memory -/

namespace ByteMemory
variable {n : Nat}

theorem readWord_writeWord (m : ByteMemory n) (x y : WordAddr) (v : Word)
    (hx : 4 * x.toNat + 4 ≤ n) :
    (m.writeWord (byteAddr x) v).readWord (byteAddr y) =
      Function.update (fun z => m.readWord (byteAddr z)) x v y := by
  simp only [writeWord, byteAddr_toNat, if_pos hx, readWord]
  by_cases hy : y = x
  · subst hy
    simp [hx, load32_store32]
  · rw [Function.update_of_ne hy]
    have hne : y.toNat ≠ x.toNat := fun he => hy (BitVec.eq_of_toNat_eq he)
    split
    · exact load32_congr fun k hk => store32_other _ _ _ _ (by omega)
    · rfl

theorem readBlock_eq (m : ByteMemory n) (x : WordAddr) (words : Nat) :
    m.readBlock (byteAddr x) words = readMany (fun z => m.readWord (byteAddr z)) x words := by
  induction words generalizing x with
  | zero => rfl
  | succ k ih => rw [readBlock, readMany, byteAddr_add_four, ih]

theorem writeBlock_eq (m : ByteMemory n) (x : WordAddr) (ws : List Word)
    (h : ∀ i < ws.length, 4 * (x + BitVec.ofNat 30 i).toNat + 4 ≤ n) :
    (fun z => (m.writeBlock (byteAddr x) ws).readWord (byteAddr z)) =
      writeMany (fun z => m.readWord (byteAddr z)) x ws := by
  induction ws generalizing m x with
  | nil => rfl
  | cons w ws ih =>
    have hx : 4 * x.toNat + 4 ≤ n := by simpa using h 0 (by simp)
    rw [writeBlock, writeMany, byteAddr_add_four, ih]
    · congr 1
      funext z
      exact readWord_writeWord m x z w hx
    · intro i hi
      have := h (i + 1) (by simpa using hi)
      rwa [BitVec.ofNat_add, BitVec.add_comm (BitVec.ofNat 30 i), ← BitVec.add_assoc] at this

/-- Words inside the vector are stored; words outside read as 0. -/
def wordMemory (n : Nat) : WordMemory (ByteMemory n) where
  inv _ := True
  content m x := m.readWord (byteAddr x)
  dom x := 4 * x.toNat + 4 ≤ n
  readWord_spec _ _ _ := ⟨rfl, trivial, rfl⟩
  writeWord_spec m x v _ hx := ⟨trivial, funext fun y => readWord_writeWord m x y v hx⟩
  readBlock_spec m x k _ := ⟨readBlock_eq m x k, trivial, rfl⟩
  writeBlock_spec m x ws _ h := ⟨trivial, writeBlock_eq m x ws h⟩

end ByteMemory
end RiscvEmulator.Memory
