import RiscvEmulator.System.LoadStoreStep

/-! # The calls of the simulator's memory

Bytes, halfwords, words, blocks and atomics each have their own bounds check and put
their bytes together themselves. Outside the windows of the devices and the CLINT they
are all views of one little-endian array; what does not fit into it is 0. -/
namespace RiscvEmulator.System
open Memory Cores Isa

namespace Simulator
variable {N n : Nat}

/-! ## Blocks and atomics -/

/-- Every word has a bounds check of its own; the windows are not looked at. -/
def readBlock (s : Simulator N n) (addr : Word) (words : Nat) : List Word :=
  s.memory.readBlock addr words

def writeBlock (s : Simulator N n) (addr : Word) (data : List Word) : Simulator N n :=
  { s with memory := s.memory.writeBlock addr data }

/-- The word at an address, through a pointer, and what is stored for it, if anything.
The host is little-endian. -/
def atomicUpdate (s : Simulator N n) (addr : Word) (update : Word → Option Word) :
    Word × Simulator N n :=
  if addr.toNat + 4 ≤ n then
    let oldValue := load32 s.memory.bytes addr.toNat
    match update oldValue with
    | some v => (oldValue, { s with memory := ⟨store32 s.memory.bytes addr.toNat v⟩ })
    | none => (oldValue, s)
  else (0, s)

def atomicAdd (s : Simulator N n) (addr value : Word) : Word × Simulator N n :=
  s.atomicUpdate addr fun oldValue => some (oldValue + value)

def atomicSwap (s : Simulator N n) (addr value : Word) : Word × Simulator N n :=
  s.atomicUpdate addr fun _ => some value

def atomicCompareAndSwap (s : Simulator N n) (addr expected desired : Word) :
    Word × Simulator N n :=
  s.atomicUpdate addr fun currentValue => if currentValue = expected then some desired else none

def atomicFetchAndAdd (s : Simulator N n) (addr value : Word) : Word × Simulator N n :=
  s.atomicAdd addr value

def atomicFetchAndSub (s : Simulator N n) (addr value : Word) : Word × Simulator N n :=
  s.atomicUpdate addr fun oldValue => some (oldValue - value)

def atomicFetchAndAnd (s : Simulator N n) (addr value : Word) : Word × Simulator N n :=
  s.atomicUpdate addr fun oldValue => some (oldValue &&& value)

def atomicFetchAndOr (s : Simulator N n) (addr value : Word) : Word × Simulator N n :=
  s.atomicUpdate addr fun oldValue => some (oldValue ||| value)

def atomicFetchAndXor (s : Simulator N n) (addr value : Word) : Word × Simulator N n :=
  s.atomicUpdate addr fun oldValue => some (oldValue ^^^ value)

end Simulator

/-! ## Calls and what they return -/

inductive AtomicCall where
  | add (value : Word)
  | swap (value : Word)
  | compareAndSwap (expected desired : Word)
  | fetchAndAdd (value : Word)
  | fetchAndSub (value : Word)
  | fetchAndAnd (value : Word)
  | fetchAndOr (value : Word)
  | fetchAndXor (value : Word)
deriving DecidableEq, Repr

inductive MemoryCall where
  | readByte (addr : Word)
  | readHalfword (addr : Word)
  | readWord (addr : Word)
  | readBlock (addr words : Word)
  | writeByte (addr : Word) (data : Byte)
  | writeHalfword (addr : Word) (data : BitVec 16)
  | writeWord (addr data : Word)
  | writeBlock (addr : Word) (data : List Word)
  | atomic (addr : Word) (op : AtomicCall)
deriving DecidableEq, Repr

inductive Returned where
  | nothing
  | byte (v : Byte)
  | halfword (v : BitVec 16)
  | word (v : Word)
  | block (data : List Word)
deriving DecidableEq, Repr

namespace MemoryCall

def addr : MemoryCall → Word
  | readByte addr | readHalfword addr | readWord addr | readBlock addr _ | writeByte addr _
  | writeHalfword addr _ | writeWord addr _ | writeBlock addr _ | atomic addr _ => addr

/-- The number of bytes. -/
def size : MemoryCall → Nat
  | readByte _ | writeByte _ _ => 1
  | readHalfword _ | writeHalfword _ _ => 2
  | readWord _ | writeWord _ _ | atomic _ _ => 4
  | readBlock _ words => 4 * words.toNat
  | writeBlock _ data => 4 * data.length

def isBlock : MemoryCall → Bool
  | readBlock _ _ | writeBlock _ _ => true
  | _ => false

/-- All its bytes lie in a memory of `n` bytes. -/
def InMemory (n : Nat) (call : MemoryCall) : Prop :=
  ∀ b, call.addr.toNat ≤ b → b < call.addr.toNat + call.size → b < n

/-- A return of 0, where something is returned. -/
def zero : MemoryCall → Returned
  | readByte _ => .byte 0
  | readHalfword _ => .halfword 0
  | readWord _ | atomic _ _ => .word 0
  | readBlock _ words => .block (List.replicate words.toNat 0)
  | _ => .nothing

end MemoryCall

/-! ## The array -/

def AtomicCall.apply : AtomicCall → Word → Word
  | add value, old | fetchAndAdd value, old => old + value
  | swap value, _ => value
  | compareAndSwap expected desired, old => if old = expected then desired else old
  | fetchAndSub value, old => old - value
  | fetchAndAnd value, old => old &&& value
  | fetchAndOr value, old => old ||| value
  | fetchAndXor value, old => old ^^^ value

/-- What is stored, where something is. -/
def AtomicCall.update (op : AtomicCall) (old : Word) : Option Word :=
  match op with
  | compareAndSwap expected desired => if old = expected then some desired else none
  | op => some (op.apply old)

theorem AtomicCall.getD_update (op : AtomicCall) (old : Word) :
    (op.update old).getD old = op.apply old := by
  cases op with
  | compareAndSwap expected desired =>
    show (if old = expected then some desired else none).getD old =
      if old = expected then desired else old
    split <;> rfl
  | _ => rfl

/-- Four bytes for each word, from `a` on. -/
def storeWords (mem : Bytes) (a : Nat) (data : List Word) : Bytes := fun b =>
  if a ≤ b ∧ b < a + 4 * data.length then
    (data.getD ((b - a) / 4) 0).extractLsb' (8 * ((b - a) % 4)) 8
  else mem b

/-- A call on a little-endian array of bytes. -/
def MemoryCall.onBytes (mem : Bytes) : MemoryCall → Returned × Bytes
  | readByte addr => (.byte (mem addr.toNat), mem)
  | readHalfword addr => (.halfword (mem.halfword addr.toNat), mem)
  | readWord addr => (.word (mem.word addr.toNat), mem)
  | readBlock addr words =>
    (.block ((List.range words.toNat).map fun k => mem.word (addr.toNat + 4 * k)), mem)
  | writeByte addr data => (.nothing, mem.store addr.toNat 1 (data.setWidth 32))
  | writeHalfword addr data => (.nothing, mem.store addr.toNat 2 (data.setWidth 32))
  | writeWord addr data => (.nothing, mem.store addr.toNat 4 data)
  | writeBlock addr data => (.nothing, storeWords mem addr.toNat data)
  | atomic addr op =>
    (.word (mem.word addr.toNat), mem.store addr.toNat 4 (op.apply (mem.word addr.toNat)))

/-- The calls one after another. -/
def callsOnBytes (mem : Bytes) : List MemoryCall → List Returned × Bytes
  | [] => ([], mem)
  | call :: calls =>
    let (result, mem) := call.onBytes mem
    let (results, mem) := callsOnBytes mem calls
    (result :: results, mem)

namespace Simulator
variable {N n : Nat}

def atomic (s : Simulator N n) (addr : Word) : AtomicCall → Word × Simulator N n
  | .add value => s.atomicAdd addr value
  | .swap value => s.atomicSwap addr value
  | .compareAndSwap expected desired => s.atomicCompareAndSwap addr expected desired
  | .fetchAndAdd value => s.atomicFetchAndAdd addr value
  | .fetchAndSub value => s.atomicFetchAndSub addr value
  | .fetchAndAnd value => s.atomicFetchAndAnd addr value
  | .fetchAndOr value => s.atomicFetchAndOr addr value
  | .fetchAndXor value => s.atomicFetchAndXor addr value

def call (s : Simulator N n) : MemoryCall → Returned × Simulator N n
  | .readByte addr => (.byte (s.readByte addr), s)
  | .readHalfword addr => (.halfword (s.readHalfword addr), s)
  | .readWord addr => (.word (s.readWord addr), s)
  | .readBlock addr words => (.block (s.readBlock addr words.toNat), s)
  | .writeByte addr data => (.nothing, s.writeByte addr data)
  | .writeHalfword addr data => (.nothing, s.writeHalfword addr data)
  | .writeWord addr data => (.nothing, s.writeWord addr data)
  | .writeBlock addr data => (.nothing, s.writeBlock addr data)
  | .atomic addr op => (.word (s.atomic addr op).1, (s.atomic addr op).2)

def calls (s : Simulator N n) : List MemoryCall → List Returned × Simulator N n
  | [] => ([], s)
  | call :: rest =>
    let (result, s) := s.call call
    let (results, s) := s.calls rest
    (result :: results, s)

/-- No byte of the call is in the window of a device or of the CLINT. -/
def OutsideWindows (s : Simulator N n) (call : MemoryCall) : Prop :=
  ∀ b : Word, call.addr.toNat ≤ b.toNat → b.toNat < call.addr.toNat + call.size →
    s.devices.any (inDevice b) = false ∧ inClint b = false

end Simulator

/-! ## The vector as the array -/

theorem store_word_self (mem : Bytes) (a : Nat) : mem.store a 4 (mem.word a) = mem := by
  funext b
  unfold Bytes.store
  split
  · next hb =>
    refine BitVec.eq_of_getLsbD_eq fun j hj => ?_
    rw [BitVec.getLsbD_extractLsb', decide_eq_true hj, Bool.true_and,
      Bytes.getLsbD_word _ _ (by omega), show a + (8 * (b - a) + j) / 8 = b by omega,
      show (8 * (b - a) + j) % 8 = j by omega]
  · rfl

theorem update_byte (mem : Bytes) (a : Nat) (v : Byte) :
    Function.update mem a v = mem.store a 1 (v.setWidth 32) := by
  rw [← update_eq_store, BitVec.setWidth_setWidth_of_le v (by omega), BitVec.setWidth_eq]

theorem store16_eq (mem : Bytes) (a : Nat) (v : BitVec 16) :
    store16 mem a v = mem.store a 2 (v.setWidth 32) := by
  rw [← store16_eq_store, BitVec.setWidth_setWidth_of_le v (by omega), BitVec.setWidth_eq]

/-- The first word of a block, and the others after it. -/
theorem storeWords_cons (mem : Bytes) (a : Nat) (v : Word) (data : List Word) :
    storeWords (mem.store a 4 v) (a + 4) data = storeWords mem a (v :: data) := by
  funext b
  unfold storeWords Bytes.store
  rw [List.length_cons]
  by_cases hfirst : a ≤ b ∧ b < a + 4
  · rw [if_neg (by omega), if_pos hfirst, if_pos (by omega),
      show (b - a) / 4 = 0 by omega, show (b - a) % 4 = b - a by omega]
    rfl
  · by_cases hrest : a + 4 ≤ b ∧ b < a + 4 + 4 * data.length
    · rw [if_pos hrest, if_pos (by omega), show (b - a) / 4 = (b - (a + 4)) / 4 + 1 by omega,
        show (b - (a + 4)) % 4 = (b - a) % 4 by omega, List.getD_cons_succ]
    · rw [if_neg hrest, if_neg hfirst, if_neg (by omega)]

theorem add_four_toNat {addr : Word} (h : addr.toNat + 4 < 2 ^ 32) :
    (addr + 4).toNat = addr.toNat + 4 := by
  rw [BitVec.toNat_add]
  exact Nat.mod_eq_of_lt h

section
variable {n : Nat} (hn : n < 2 ^ 32)
include hn

theorem readBlock_words (m : ByteMemory n) (words : Nat) (addr : Word)
    (h : ∀ k < words, addr.toNat + 4 * k + 4 ≤ n) : m.readBlock addr words =
      (List.range words).map fun k => Bytes.word m.bytes (addr.toNat + 4 * k) := by
  induction words generalizing addr with
  | zero => rfl
  | succ words ih =>
    have hfirst : addr.toNat + 4 ≤ n := h 0 (by omega)
    have hnext : (addr + 4).toNat = addr.toNat + 4 := add_four_toNat (by omega)
    rw [ByteMemory.readBlock, ih (addr + 4) (fun k hk => by have := h (k + 1) (by omega); omega),
      ByteMemory.readWord, if_pos hfirst, load32_eq_word, List.range_succ_eq_map, List.map_cons,
      List.map_map, hnext]
    congr 1
    refine List.map_congr_left fun k _ => ?_
    show Bytes.word m.bytes (addr.toNat + 4 + 4 * k) = Bytes.word m.bytes (addr.toNat + 4 * (k + 1))
    congr 1
    omega

theorem writeBlock_words (data : List Word) (m : ByteMemory n) (addr : Word)
    (h : ∀ k < data.length, addr.toNat + 4 * k + 4 ≤ n) :
    m.writeBlock addr data = ⟨storeWords m.bytes addr.toNat data⟩ := by
  induction data generalizing m addr with
  | nil =>
    have hsame : storeWords m.bytes addr.toNat [] = m.bytes :=
      funext fun b => if_neg (by simp)
    rw [hsame]
    rfl
  | cons v data ih =>
    have hfirst : addr.toNat + 4 ≤ n := h 0 (by simp)
    have hnext : (addr + 4).toNat = addr.toNat + 4 := add_four_toNat (by omega)
    rw [ByteMemory.writeBlock, ih _ (addr + 4), ByteMemory.writeWord, if_pos hfirst, hnext,
      store32_eq_store, storeWords_cons]
    intro k hk
    have := h (k + 1) (by simpa using hk)
    omega

end

namespace Simulator
variable {N n : Nat} {s : Simulator N n} {call : MemoryCall} {addr : Word}

/-! ## One call -/

theorem OutsideWindows.first (h : s.OutsideWindows call) (hpos : 0 < call.size) :
    s.devices.find? (inDevice call.addr) = none ∧
      ¬s.devices.any (inDevice call.addr) = true ∧ ¬inClint call.addr = true := by
  obtain ⟨hdevice, hclint⟩ := h call.addr (Nat.le_refl _) (by omega)
  refine ⟨?_, by rw [hdevice]; exact Bool.false_ne_true, by rw [hclint]; exact Bool.false_ne_true⟩
  exact List.find?_eq_none.mpr (List.any_eq_false.mp hdevice)

/-! What memory answers where no window does. -/

theorem OutsideWindows.readByte (h : s.OutsideWindows (.readByte addr)) :
    s.readByte addr = s.memory.readByte addr := by
  have hfind : s.devices.find? (inDevice addr) = none := (h.first Nat.one_pos).1
  rw [Simulator.readByte, hfind]

theorem OutsideWindows.readHalfword (h : s.OutsideWindows (.readHalfword addr)) :
    s.readHalfword addr = s.memory.readHalfword addr := by
  have hfind : s.devices.find? (inDevice addr) = none := (h.first Nat.two_pos).1
  rw [Simulator.readHalfword, hfind]

theorem OutsideWindows.readWord (h : s.OutsideWindows (.readWord addr)) :
    s.readWord addr = s.memory.readWord addr := by
  obtain ⟨hfind, -, hclint⟩ := h.first (show 0 < 4 by omega)
  rw [Simulator.readWord, show s.devices.find? (inDevice addr) = none from hfind]
  exact if_neg hclint

theorem OutsideWindows.writeByte {data : Byte} (h : s.OutsideWindows (.writeByte addr data)) :
    s.writeByte addr data = { s with memory := s.memory.writeByte addr data } :=
  if_neg (h.first Nat.one_pos).2.1

theorem OutsideWindows.writeHalfword {data : BitVec 16}
    (h : s.OutsideWindows (.writeHalfword addr data)) :
    s.writeHalfword addr data = { s with memory := s.memory.writeHalfword addr data } :=
  if_neg (h.first Nat.two_pos).2.1

theorem OutsideWindows.writeWord {data : Word} (h : s.OutsideWindows (.writeWord addr data)) :
    s.writeWord addr data = { s with memory := s.memory.writeWord addr data } := by
  obtain ⟨-, hdevice, hclint⟩ := h.first (show 0 < 4 by omega)
  exact (if_neg hdevice).trans (if_neg hclint)

/-- An atomic call is an update of the word. -/
theorem atomic_eq (s : Simulator N n) (addr : Word) (op : AtomicCall) :
    s.atomic addr op = s.atomicUpdate addr op.update := by
  cases op <;> rfl

theorem atomicUpdate_inside (s : Simulator N n) {addr : Word} (h : addr.toNat + 4 ≤ n)
    (update : Word → Option Word) :
    let old := Bytes.word s.memory.bytes addr.toNat
    s.atomicUpdate addr update = (old, { s with
      memory := ⟨Bytes.store s.memory.bytes addr.toNat 4 ((update old).getD old)⟩ }) := by
  intro old
  unfold atomicUpdate
  rw [if_pos h, load32_eq_word]
  show (match update old with
    | some v => (old, { s with memory := ⟨store32 s.memory.bytes addr.toNat v⟩ })
    | none => (old, s)) = _
  cases update old with
  | some v =>
    simp only [store32_eq_store]
    rfl
  | none =>
    have hsame : Bytes.store s.memory.bytes addr.toNat 4 old = s.memory.bytes :=
      store_word_self _ _
    simp only [Option.getD_none, hsame]

/-- Where its bytes are in memory, a call is one of the array. -/
theorem call_onBytes {size : Word} {s : Simulator N size.toNat} (hin : call.InMemory size.toNat)
    (hout : s.OutsideWindows call) :
    s.call call = ((call.onBytes s.memory.bytes).1,
      { s with memory := ⟨(call.onBytes s.memory.bytes).2⟩ }) := by
  have hsize := size.isLt
  have hlast : ∀ k < call.size, call.addr.toNat + k < size.toNat :=
    fun k hk => hin _ (by omega) (by omega)
  cases call with
  | readByte addr =>
    have hend : addr.toNat < size.toNat := hlast 0 Nat.one_pos
    rw [Simulator.call, hout.readByte, ByteMemory.readByte, if_pos hend]
    rfl
  | readHalfword addr =>
    have hend : addr.toNat + 2 ≤ size.toNat := hlast 1 (show 1 < 2 by omega)
    rw [Simulator.call, hout.readHalfword, ByteMemory.readHalfword, if_pos hend, load16_eq_halfword]
    rfl
  | readWord addr =>
    have hend : addr.toNat + 4 ≤ size.toNat := hlast 3 (show 3 < 4 by omega)
    rw [Simulator.call, hout.readWord, ByteMemory.readWord, if_pos hend, load32_eq_word]
    rfl
  | readBlock addr words =>
    have hend : ∀ k < words.toNat, addr.toNat + 4 * k + 4 ≤ size.toNat := by
      intro k hk
      have := hlast (4 * k + 3) (show 4 * k + 3 < 4 * words.toNat by omega)
      exact this
    simp only [Simulator.call, Simulator.readBlock, readBlock_words hsize _ _ _ hend]
    rfl
  | writeByte addr data =>
    have hend : addr.toNat < size.toNat := hlast 0 Nat.one_pos
    rw [Simulator.call, hout.writeByte, ByteMemory.writeByte, if_pos hend, update_byte]
    rfl
  | writeHalfword addr data =>
    have hend : addr.toNat + 2 ≤ size.toNat := hlast 1 (show 1 < 2 by omega)
    rw [Simulator.call, hout.writeHalfword, ByteMemory.writeHalfword, if_pos hend, store16_eq]
    rfl
  | writeWord addr data =>
    have hend : addr.toNat + 4 ≤ size.toNat := hlast 3 (show 3 < 4 by omega)
    rw [Simulator.call, hout.writeWord, ByteMemory.writeWord, if_pos hend, store32_eq_store]
    rfl
  | writeBlock addr data =>
    have hend : ∀ k < data.length, addr.toNat + 4 * k + 4 ≤ size.toNat := by
      intro k hk
      have := hlast (4 * k + 3) (show 4 * k + 3 < 4 * data.length by omega)
      exact this
    simp only [Simulator.call, Simulator.writeBlock, writeBlock_words hsize _ _ _ hend]
    rfl
  | atomic addr op =>
    have hend : addr.toNat + 4 ≤ size.toNat := hlast 3 (show 3 < 4 by omega)
    simp only [Simulator.call, atomic_eq, atomicUpdate_inside s hend, AtomicCall.getD_update]
    rfl

/-- Where they are not, it does nothing and returns 0. -/
theorem call_outside {s : Simulator N n} (hblock : call.isBlock = false)
    (hin : ¬call.InMemory n) (hout : s.OutsideWindows call) : s.call call = (call.zero, s) := by
  have hend : n < call.addr.toNat + call.size := by
    by_contra hle
    exact hin fun b _ hb => by omega
  cases call with
  | readByte addr =>
    have hend : ¬addr.toNat < n := Nat.not_lt.mpr (Nat.le_of_lt_succ hend)
    rw [Simulator.call, hout.readByte, ByteMemory.readByte, if_neg hend]
    rfl
  | readHalfword addr =>
    have hend : ¬addr.toNat + 2 ≤ n := Nat.not_le.mpr hend
    rw [Simulator.call, hout.readHalfword, ByteMemory.readHalfword, if_neg hend]
    rfl
  | readWord addr =>
    have hend : ¬addr.toNat + 4 ≤ n := Nat.not_le.mpr hend
    rw [Simulator.call, hout.readWord, ByteMemory.readWord, if_neg hend]
    rfl
  | readBlock _ _ => cases hblock
  | writeBlock _ _ => cases hblock
  | writeByte addr data =>
    have hend : ¬addr.toNat < n := Nat.not_lt.mpr (Nat.le_of_lt_succ hend)
    rw [Simulator.call, hout.writeByte, ByteMemory.writeByte, if_neg hend]
    rfl
  | writeHalfword addr data =>
    have hend : ¬addr.toNat + 2 ≤ n := Nat.not_le.mpr hend
    rw [Simulator.call, hout.writeHalfword, ByteMemory.writeHalfword, if_neg hend]
    rfl
  | writeWord addr data =>
    have hend : ¬addr.toNat + 4 ≤ n := Nat.not_le.mpr hend
    rw [Simulator.call, hout.writeWord, ByteMemory.writeWord, if_neg hend]
    rfl
  | atomic addr op =>
    have hupdate : s.atomicUpdate addr op.update = (0, s) := if_neg (Nat.not_le.mpr hend)
    simp only [Simulator.call, atomic_eq, hupdate]
    rfl

/-! ## Sequences of calls -/

/-- A change of memory moves no window. -/
theorem OutsideWindows.memory (h : s.OutsideWindows call) (memory : ByteMemory n) :
    { s with memory := memory }.OutsideWindows call := h

theorem calls_onBytes {size : Word} (s : Simulator N size.toNat) (calls : List MemoryCall)
    (h : ∀ call ∈ calls, call.InMemory size.toNat ∧ s.OutsideWindows call) :
    s.calls calls = ((callsOnBytes s.memory.bytes calls).1,
      { s with memory := ⟨(callsOnBytes s.memory.bytes calls).2⟩ }) := by
  induction calls generalizing s with
  | nil => rfl
  | cons call rest ih =>
    obtain ⟨hin, hout⟩ := h call List.mem_cons_self
    have hrest := ih { s with memory := ⟨(call.onBytes s.memory.bytes).2⟩ }
      fun c hc => h c (List.mem_cons_of_mem _ hc)
    simp only [Simulator.calls, call_onBytes hin hout, hrest]
    rfl

/-- Calls whose bytes all lie in memory and outside the windows return, and leave, what
they do on one little-endian array of bytes; one outside the windows that does not fit
into memory, and is not of a block, changes nothing and returns 0. -/
theorem memory_views_agree {size : Word} (s : Simulator N size.toNat) :
    (∀ calls : List MemoryCall,
      (∀ call ∈ calls, call.InMemory size.toNat ∧ s.OutsideWindows call) →
      s.calls calls = ((callsOnBytes s.memory.bytes calls).1,
        { s with memory := ⟨(callsOnBytes s.memory.bytes calls).2⟩ })) ∧
    ∀ call : MemoryCall, call.isBlock = false → s.OutsideWindows call →
      ¬call.InMemory size.toNat → s.call call = (call.zero, s) :=
  ⟨s.calls_onBytes, fun _ hblock hout hin => call_outside hblock hin hout⟩

/-! ## Sixteen bytes -/

def smallMemory : Simulator 1 (16#32).toNat := .init 1 _ ⟨fun _ => 0⟩

theorem smallMemory_outside (h : call.addr.toNat + call.size ≤ 0x1000) :
    smallMemory.OutsideWindows call := by
  intro b _ hb
  have hlow : b.toNat < 0x1000 := by omega
  have huart : inDevice b (uartBase, {}) = false := by
    have hlt : ¬uartBase ≤ b := by
      rw [BitVec.le_def]
      exact Nat.not_le.mpr (Nat.lt_trans hlow (by decide))
    unfold inDevice
    rw [decide_eq_false hlt]
    rfl
  have hclint : inClint b = false := by
    simp only [inClint, BitVec.le_def, BitVec.ofNat_eq_ofNat, BitVec.toNat_ofNat,
      Bool.or_eq_false_iff, Bool.and_eq_false_iff, decide_eq_false_iff_not]
    omega
  refine ⟨?_, hclint⟩
  show ([(uartBase, {})] : List (Word × Device.UART)).any (inDevice b) = false
  rw [List.any_cons, huart]
  rfl

/-- The last two bytes of a word that straddles words, and a word that ends beyond. -/
theorem memory_views_agree_small :
    (smallMemory.calls [.writeWord 1 0x11223344, .readHalfword 3]).1 =
        [.nothing, .halfword 0x1122] ∧
      smallMemory.call (.readWord 13) = (.word 0, smallMemory) := by
  obtain ⟨hcalls, hcall⟩ := memory_views_agree smallMemory
  constructor
  · have hin : ∀ call ∈ [.writeWord 1 0x11223344, .readHalfword 3],
        MemoryCall.InMemory (16#32).toNat call ∧ smallMemory.OutsideWindows call := by
      intro call hmem
      rcases List.mem_cons.mp hmem with rfl | hmem
      · refine ⟨fun b _ hb => ?_, smallMemory_outside (by decide)⟩
        exact Nat.lt_trans hb (by decide)
      · rw [List.mem_singleton] at hmem
        subst hmem
        refine ⟨fun b _ hb => ?_, smallMemory_outside (by decide)⟩
        exact Nat.lt_trans hb (by decide)
    rw [hcalls _ hin]
    decide
  · refine hcall (.readWord 13) rfl (smallMemory_outside (by decide)) fun hin => ?_
    exact absurd (hin 16 (by decide) (by decide)) (by decide)

end Simulator
end RiscvEmulator.System
