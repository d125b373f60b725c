import RiscvEmulator.Memory.FlushRange

/-! # The memory face of a cache

`read_word`, ..., `write_block` and the flushes, in any order, on one cache that is the
only user of a word memory. Stores in the write-through window set the word in the
line and in the memory, so they leave nothing behind, and a flush only moves words the
reader sees already. -/
namespace RiscvEmulator.Memory
open Lib.LineCache

namespace Level
variable {g : Geometry} {σ : Type} [MemoryInterface σ] {M : WordMemory σ} {lv : Level g σ}
  {x : WordAddr}

/-! ## Flushing -/

namespace Consistent

theorem flushWay {w : Fin g.ways} (h : lv.Consistent M)
    (hw : lv.cache.lookup (g.line x).1 (g.line x).2 = some w) :
    (lv.flushWay (g.line x).1 w).Consistent M ∧
      ((lv.flushWay (g.line x).1 w).state M).view = (lv.state M).view := by
  obtain ⟨hgood, hstate⟩ := flushWay_spec h.toGood hw
  refine ⟨⟨hgood, ?_⟩, ?_⟩
  · rw [hstate]
    exact flush_clean lv.cache.lines_granular h.clean _
  · rw [hstate]
    exact flush_view lv.cache.lines_granular _

theorem flush (h : lv.Consistent M) (x : WordAddr) :
    (lv.flush (byteAddr x)).Consistent M ∧
      ((lv.flush (byteAddr x)).state M).view = (lv.state M).view := by
  unfold Level.flush
  cases hw : lv.cache.findEntry (byteAddr x) with
  | none => exact ⟨h, rfl⟩
  | some w => exact h.flushWay (x := x) hw

theorem flushRange (h : lv.Consistent M) (startAddr size : Word) :
    (lv.flushRange startAddr size).Consistent M ∧
      ((lv.flushRange startAddr size).state M).view = (lv.state M).view := by
  obtain ⟨hgood, hstate⟩ := flushRange_spec h.toGood startAddr size
  refine ⟨⟨hgood, ?_⟩, ?_⟩
  · rw [hstate]
    exact flushAll_clean h.clean
  · rw [hstate]
    exact flushAll_view lv.cache.lines_granular

end Consistent
end Level

/-! ## Runs -/

/-- A call of the memory face, or a flush. -/
inductive FaceCall where
  | readWord (x : WordAddr)
  | writeWord (x : WordAddr) (data : Word)
  | readBlock (x : WordAddr) (words : Nat)
  | writeBlock (x : WordAddr) (data : List Word)
  | flush (x : WordAddr)
  | flushRange (startAddr size : Word)
deriving DecidableEq, Repr

namespace FaceCall

/-- What a call makes of the memory a reader expects. -/
def written (f : WordAddr → Word) : FaceCall → WordAddr → Word
  | .writeWord x data => Function.update f x data
  | .writeBlock x data => writeMany f x data
  | .readWord _ | .readBlock _ _ | .flush _ | .flushRange _ _ => f

def isFlush : FaceCall → Bool
  | .flush _ | .flushRange _ _ => true
  | .readWord _ | .writeWord _ _ | .readBlock _ _ | .writeBlock _ _ => false

end FaceCall

namespace Level
variable {g : Geometry} {σ : Type} [MemoryInterface σ] {M : WordMemory σ} {lv : Level g σ}

def faceCall (lv : Level g σ) : FaceCall → Level g σ
  | .readWord x => (lv.readWord (byteAddr x)).2
  | .writeWord x data => lv.writeWord (byteAddr x) data
  | .readBlock x words => (lv.readBlock (byteAddr x) words).2
  | .writeBlock x data => lv.writeBlock (byteAddr x) data
  | .flush x => lv.flush (byteAddr x)
  | .flushRange startAddr size => lv.flushRange startAddr size

/-- The level after the calls, from the empty cache on. -/
def afterFaceCalls (g : Geometry) (n : Nat) (memory : σ) (calls : List FaceCall) : Level g σ :=
  calls.foldl faceCall (fresh g n memory)

theorem faceCall_consistent (hdom : ∀ x, M.dom x) (h : lv.Consistent M) (c : FaceCall) :
    (lv.faceCall c).Consistent M ∧
      ((lv.faceCall c).state M).view = c.written (lv.state M).view := by
  cases c with
  | readWord x => exact ⟨h.read x 0, h.touch_view (read_spec h.toGood x 0).2.2⟩
  | writeWord x data => exact h.writeWord x data fun y _ => hdom y
  | readBlock x words => exact (h.readBlock x words).2
  | writeBlock x data => exact h.writeBlock x data fun _ _ y _ => hdom y
  | flush x => exact h.flush x
  | flushRange startAddr size => exact h.flushRange startAddr size

theorem faceCalls_consistent (hdom : ∀ x, M.dom x) (h : lv.Consistent M)
    (calls : List FaceCall) : (calls.foldl faceCall lv).Consistent M ∧
      ((calls.foldl faceCall lv).state M).view =
        calls.foldl FaceCall.written (lv.state M).view := by
  induction calls generalizing lv with
  | nil => exact ⟨h, rfl⟩
  | cons c calls ih =>
    obtain ⟨hc, hview⟩ := faceCall_consistent hdom h c
    rw [List.foldl_cons, List.foldl_cons, ← hview]
    exact ih hc

theorem afterFaceCalls_consistent (hdom : ∀ x, M.dom x) (n : Nat) {memory : σ}
    (hinv : M.inv memory) (calls : List FaceCall) :
    (afterFaceCalls g n memory calls).Consistent M ∧
      ((afterFaceCalls g n memory calls).state M).view =
        calls.foldl FaceCall.written (M.content memory) := by
  have hview : ((fresh g n memory).state M).view = M.content memory := init_view n memory
  rw [← hview]
  exact faceCalls_consistent hdom (init_consistent n hinv) calls

theorem written_flush {c : FaceCall} (h : c.isFlush = true) (f : WordAddr → Word) :
    c.written f = f := by
  cases c <;> first | rfl | cases h

/-- After any calls of the memory face and any flushes, a word read is the one last
written or the initial one, a block read is made of such words, and no flush among the
calls makes a difference to that. -/
theorem face_transparent (hdom : ∀ x, M.dom x) (n : Nat) {memory : σ} (hinv : M.inv memory)
    (calls : List FaceCall) :
    let expected := calls.foldl FaceCall.written (M.content memory)
    (∀ x, ((afterFaceCalls g n memory calls).readWord (byteAddr x)).1 = expected x) ∧
    (∀ x words, ((afterFaceCalls g n memory calls).readBlock (byteAddr x) words).1 =
      readMany expected x words) ∧
    ∀ earlier c later, calls = earlier ++ c :: later → c.isFlush = true → ∀ x words,
      ((afterFaceCalls g n memory calls).readWord (byteAddr x)).1 =
        ((afterFaceCalls g n memory (earlier ++ later)).readWord (byteAddr x)).1 ∧
      ((afterFaceCalls g n memory calls).readBlock (byteAddr x) words).1 =
        ((afterFaceCalls g n memory (earlier ++ later)).readBlock (byteAddr x) words).1 := by
  have hword : ∀ calls x, ((afterFaceCalls g n memory calls).readWord (byteAddr x)).1 =
      calls.foldl FaceCall.written (M.content memory) x := by
    intro calls x
    obtain ⟨hc, hview⟩ := afterFaceCalls_consistent (g := g) hdom n hinv calls
    rw [← hview]
    exact (read_spec hc.toGood x 0).1
  have hblock : ∀ calls x words,
      ((afterFaceCalls g n memory calls).readBlock (byteAddr x) words).1 =
        readMany (calls.foldl FaceCall.written (M.content memory)) x words := by
    intro calls x words
    obtain ⟨hc, hview⟩ := afterFaceCalls_consistent (g := g) hdom n hinv calls
    rw [← hview]
    exact (hc.readBlock x words).1
  refine ⟨hword calls, hblock calls, ?_⟩
  rintro earlier c later rfl hflush x words
  have hsame : (earlier ++ c :: later).foldl FaceCall.written (M.content memory) =
      (earlier ++ later).foldl FaceCall.written (M.content memory) := by
    rw [List.foldl_append, List.foldl_append, List.foldl_cons, written_flush hflush]
  rw [hword, hword, hblock, hblock, hsame]
  exact ⟨rfl, rfl⟩

/-- A store in the window, with its line modified before, then flushed. -/
theorem face_transparent_window :
    let calls := [.writeWord (wordOf 0x82000) 7, .writeWord (wordOf 0x82010) 1,
      .flush (wordOf 0x82000), .writeBlock (wordOf 0x1000) [2, 3]]
    let expected := calls.foldl FaceCall.written ((ByteMemory.wordMemory _).content zeroMemory)
    (∀ x, ((afterFaceCalls l1Geometry 1 zeroMemory calls).readWord (byteAddr x)).1 =
      expected x) ∧
    (∀ x words, ((afterFaceCalls l1Geometry 1 zeroMemory calls).readBlock (byteAddr x) words).1 =
      readMany expected x words) ∧
    ∀ earlier c later, calls = earlier ++ c :: later → c.isFlush = true → ∀ x words,
      ((afterFaceCalls l1Geometry 1 zeroMemory calls).readWord (byteAddr x)).1 =
        ((afterFaceCalls l1Geometry 1 zeroMemory (earlier ++ later)).readWord (byteAddr x)).1 ∧
      ((afterFaceCalls l1Geometry 1 zeroMemory calls).readBlock (byteAddr x) words).1 =
        ((afterFaceCalls l1Geometry 1 zeroMemory (earlier ++ later)).readBlock
          (byteAddr x) words).1 :=
  face_transparent (M := ByteMemory.wordMemory _) zeroMemory_backed 1 trivial _

end Level
end RiscvEmulator.Memory
