import RiscvEmulator.Memory.Word

/-! # The memory interface

`MemoryInterface` is the virtual class through which a cache reaches the next
level: another cache or the DDR controller. `WordMemory` says what it means for
an implementation to behave as a word memory: it has contents, reads return
them, and writes to the words it backs (`dom`) change them and nothing else. -/
namespace RiscvEmulator.Memory

/-- A backing memory. Blocks are runs of consecutive words. -/
class MemoryInterface (σ : Type) where
  readWord : σ → Word → Word × σ
  writeWord : σ → Word → Word → σ
  readBlock : σ → Word → Nat → List Word × σ
  writeBlock : σ → Word → List Word → σ

export MemoryInterface (readWord writeWord readBlock writeBlock)

/-- The contents after writing consecutive words from `x` on. -/
def writeMany (f : WordAddr → Word) (x : WordAddr) : List Word → WordAddr → Word
  | [] => f
  | w :: ws => writeMany (Function.update f x w) (x + 1) ws

/-- The `n` consecutive words from `x` on. -/
def readMany (f : WordAddr → Word) (x : WordAddr) : Nat → List Word
  | 0 => []
  | n + 1 => f x :: readMany f (x + 1) n

/-- `σ` behaves as a word memory: `content` is what it holds and `inv` what its
operations rely on and keep. -/
structure WordMemory (σ : Type) [MemoryInterface σ] where
  inv : σ → Prop
  content : σ → WordAddr → Word
  dom : WordAddr → Prop
  readWord_spec : ∀ s x, inv s → (readWord s (byteAddr x)).1 = content s x ∧
    inv (readWord s (byteAddr x)).2 ∧ content (readWord s (byteAddr x)).2 = content s
  writeWord_spec : ∀ s x v, inv s → dom x → inv (writeWord s (byteAddr x) v) ∧
    content (writeWord s (byteAddr x) v) = Function.update (content s) x v
  readBlock_spec : ∀ s x n, inv s → (readBlock s (byteAddr x) n).1 = readMany (content s) x n ∧
    inv (readBlock s (byteAddr x) n).2 ∧ content (readBlock s (byteAddr x) n).2 = content s
  writeBlock_spec : ∀ s x ws, inv s → (∀ i < ws.length, dom (x + BitVec.ofNat 30 i)) →
    inv (writeBlock s (byteAddr x) ws) ∧
      content (writeBlock s (byteAddr x) ws) = writeMany (content s) x ws

/-! ## Runs of words -/

@[simp] theorem readMany_length (f : WordAddr → Word) (x : WordAddr) (n : Nat) :
    (readMany f x n).length = n := by
  induction n generalizing x with
  | zero => rfl
  | succ n ih => simp [readMany, ih]

theorem readMany_getD (f : WordAddr → Word) (x : WordAddr) {n i : Nat} (h : i < n) :
    (readMany f x n).getD i 0 = f (x + BitVec.ofNat 30 i) := by
  induction n generalizing x i with
  | zero => omega
  | succ n ih =>
    cases i with
    | zero => simp [readMany]
    | succ i =>
      simp only [readMany, List.getD_cons_succ]
      rw [ih (x + 1) (by omega), BitVec.add_assoc, BitVec.add_comm 1, BitVec.ofNat_add]
      rfl

/-- A word of the run is overwritten, any other word is kept. The run is given
by its offsets, so it may also pass the end of the address space. -/
theorem writeMany_apply (f : WordAddr → Word) (x y : WordAddr) (ws : List Word)
    (h : ws.length ≤ 2 ^ 30) : writeMany f x ws y =
      if (y - x).toNat < ws.length then ws.getD (y - x).toNat 0 else f y := by
  induction ws generalizing f x with
  | nil => simp [writeMany]
  | cons w ws ih =>
    have hlen : ws.length + 1 ≤ 2 ^ 30 := by simpa using h
    simp only [writeMany, List.length_cons]
    rw [ih _ _ (by omega)]
    have hx := x.isLt
    have hy := y.isLt
    by_cases hyx : y = x
    · subst hyx
      have hs : (y - (y + 1)).toNat = 2 ^ 30 - 1 := by
        simp only [BitVec.toNat_sub, BitVec.toNat_add, BitVec.ofNat_eq_ofNat, BitVec.toNat_ofNat]
        omega
      rw [hs, if_neg (by omega), BitVec.sub_self, if_pos (by simp)]
      simp
    · have hne : y.toNat ≠ x.toNat := fun he => hyx (BitVec.eq_of_toNat_eq he)
      have hs : (y - x).toNat = (y - (x + 1)).toNat + 1 := by
        simp only [BitVec.toNat_sub, BitVec.toNat_add, BitVec.ofNat_eq_ofNat, BitVec.toNat_ofNat]
        omega
      rw [hs, Function.update_of_ne hyx]
      simp

end RiscvEmulator.Memory
