import RiscvEmulator.Device.Uart
import RiscvEmulator.Memory.OwnedLines
import RiscvEmulator.Software.UartLock
import RiscvEmulator.System.Step

/-! # Whole messages on the serial port

`uart_write` of `uart.c`, called by any number of cores between arbitrary fetches,
loads and stores. The bytes of a buffer are loaded and sent one at a time while the
lock is held, so that the port prints what a printer prints that takes a whole
message in one step. -/
namespace RiscvEmulator.Software
open Memory Device Lib.LineCache System.Simulator

/-- The arguments of a call. -/
structure WriteCall where
  ptr : Word
  len : Word
deriving DecidableEq, Repr

namespace WriteCall

/-- Where `cptr[i]` is. -/
def byteAt (c : WriteCall) (i : Nat) : Word := c.ptr + BitVec.ofNat 32 i

/-- The buffer in a memory. -/
def text (c : WriteCall) (f : WordAddr → Word) : List Byte :=
  (List.range c.len.toNat).map fun i => byteOf (c.byteAt i) (f (wordOf (c.byteAt i)))

@[simp] theorem text_length (c : WriteCall) (f : WordAddr → Word) :
    (c.text f).length = c.len.toNat := by
  simp [text]

/-- The text is made of the words of the buffer only. -/
theorem text_congr {c : WriteCall} {f f' : WordAddr → Word}
    (h : ∀ k < c.len.toNat, f (wordOf (c.byteAt k)) = f' (wordOf (c.byteAt k))) :
    c.text f = c.text f' := by
  refine List.map_congr_left fun k hk => ?_
  rw [h k (List.mem_range.mp hk)]

theorem text_getElem? {c : WriteCall} {f : WordAddr → Word} {k : Nat} (hk : k < c.len.toNat) :
    (c.text f)[k]? = some (byteOf (c.byteAt k) (f (wordOf (c.byteAt k)))) := by
  simp [text, hk]

end WriteCall

inductive WriteEvent (N : Nat) where
  /-- A fetch, or a cached load or store of a word other than the lock. -/
  | access (op : MemOp N)
  /-- Call of `uart_write`, which calls `uart_lock`. -/
  | call (i : Fin N) (c : WriteCall)
  /-- The `amoswap.w` in `uart_lock`. -/
  | swap (i : Fin N)
  /-- The load of `cptr[i]` in a turn of the loop. -/
  | get (i : Fin N)
  /-- The store of that byte to `*uart`. -/
  | put (i : Fin N)
  /-- The end of the loop and the call of `uart_unlock`. -/
  | unlock (i : Fin N)
  /-- Its store of 0. -/
  | release (i : Fin N)
deriving DecidableEq, Repr

/-- The lock, the port, and of each core the call it is in, the `i` of its loop and the
byte that it has loaded and not yet sent. -/
structure WriteState (N : Nat) where
  lock : LockState N
  uart : UART
  call : Fin N → WriteCall
  next : Fin N → Nat
  byte : Fin N → Option Byte

namespace WriteState
variable {N : Nat}

/-- The load of `cptr[i]` by core `i`. -/
def get (s : WriteState N) (i : Fin N) : Option (WriteState N) :=
  let addr := (s.call i).byteAt (s.next i)
  let x := wordOf addr
  (s.lock.step (.access (.load i x))).map fun lock =>
    { s with
      lock := lock
      byte := Function.update s.byte i
        (some (byteOf addr (s.lock.hierarchy.load i (byteAddr x)).1)) }

/-- Its store to the port. -/
def put (s : WriteState N) (i : Fin N) (b : Byte) : WriteState N :=
  { s with
    uart := s.uart.write 0 (b.setWidth 32)
    next := Function.update s.next i (s.next i + 1)
    byte := Function.update s.byte i none }

/-- One event, where the core is in the phase for it. -/
def step (s : WriteState N) : WriteEvent N → Option (WriteState N)
  | .access op => (s.lock.step (.access op)).map fun lock => { s with lock := lock }
  | .call i c => (s.lock.step (.lock i)).map fun lock =>
    { s with
      lock := lock
      call := Function.update s.call i c
      next := Function.update s.next i 0 }
  | .swap i => (s.lock.step (.swap i)).map fun lock => { s with lock := lock }
  | .get i =>
    if s.lock.phase i = .critical ∧ s.next i < (s.call i).len.toNat ∧ s.byte i = none then s.get i
    else none
  | .put i => (s.byte i).map (s.put i)
  | .unlock i =>
    if s.next i = (s.call i).len.toNat then
      (s.lock.step (.unlock i)).map fun lock => { s with lock := lock }
    else none
  | .release i => (s.lock.step (.release i)).map fun lock => { s with lock := lock }

def run (s : WriteState N) (events : List (WriteEvent N)) : Option (WriteState N) :=
  events.foldlM step s

/-- All cores outside, all caches empty, nothing printed. -/
def init (N : Nat) (ddr : DDRMemory) : WriteState N where
  lock := .init N ddr
  uart := {}
  call _ := ⟨0, 0⟩
  next _ := 0
  byte _ := none

end WriteState

/-! ## The printer -/

/-- A memory without caches and a printer that prints a message in one step, when it
is nobody's turn. -/
structure Printer (N : Nat) where
  memory : WordAddr → Word
  holder : Option (Fin N)
  /-- The text of the last call of each core, as its buffer was at the call. -/
  message : Fin N → List Byte
  /-- The texts of all its calls. -/
  called : Fin N → List (List Byte)
  printed : List (Fin N × List Byte)

namespace Printer
variable {N : Nat}

def step (p : Printer N) : WriteEvent N → Printer N
  | .access op => { p with memory := lastStored p.memory [op] }
  | .call i c =>
    { p with
      message := Function.update p.message i (c.text p.memory)
      called := Function.update p.called i (p.called i ++ [c.text p.memory]) }
  | .swap i =>
    if p.holder = none then
      { p with holder := some i, printed := p.printed ++ [(i, p.message i)] }
    else p
  | .get _ | .put _ | .unlock _ => p
  | .release _ => { p with holder := none }

def run (p : Printer N) (events : List (WriteEvent N)) : Printer N := events.foldl step p

def init (N : Nat) (ddr : DDRMemory) : Printer N where
  memory := Hierarchy.ddrWords ddr
  holder := none
  message _ := []
  called _ := []
  printed := []

/-- All that has been printed. -/
def pages (p : Printer N) : List Byte := (p.printed.map Prod.snd).flatten

/-- What of the last message is still to be sent, if the loops are at `next`. -/
def rest (p : Printer N) (next : Fin N → Nat) : List Byte :=
  match p.holder with
  | none => []
  | some i => (p.message i).drop (next i)

/-- The messages of core `i` that have been printed. -/
def printedBy (p : Printer N) (i : Fin N) : List (List Byte) :=
  (p.printed.filter (·.1 = i)).map Prod.snd

end Printer

/-! ## The memory around the lock -/

section
variable {N : Nat}

theorem line_lockWord {x : WordAddr} :
    l1Geometry.line x = l1Geometry.line lockWord ↔ InWindowLine x := by
  have hlock : lockWord.toNat = 0x82010 / 4 := by decide
  have hline : l1Geometry.line x = l1Geometry.line lockWord ↔
      x.toNat / 16 = lockWord.toNat / 16 := l1Geometry.line_eq_iff
  rw [hline, hlock]
  unfold InWindowLine
  omega

theorem inWindowLine_lockWord : InWindowLine lockWord := line_lockWord.mp rfl

/-- The data caches have kept to the owners of the blocks and to none has come a word
of the lock's line; `f` is what they agree on. -/
structure OffLock (h : Hierarchy N) (owner : Nat → Option (Fin N)) (f : WordAddr → Word) :
    Prop where
  kept : (blockPartition owner).Kept h.shared
  coherent : h.shared.Coherent l1Geometry.line f
  noCopy : ∀ i x, InWindowLine x → (h.shared.caches i).held x = none

/-- A fetch, a load of a word that is the core's own or nobody's, or a store to a word
of its own, none of them in the lock's line. -/
def Proper (owner : Nat → Option (Fin N)) : MemOp N → Prop
  | .fetch _ _ => True
  | .load i x => (blockPartition owner).Readable i x ∧ ¬InWindowLine x
  | .store i x _ => owner (x.toNat / 16) = some i ∧ ¬InWindowLine x

theorem noCopy_touch {h : Hierarchy N} {i : Fin N} {x : WordAddr}
    {t : State WordAddr (Fin l1Geometry.numSets × Word) Word}
    (hno : ∀ i x, InWindowLine x → (h.shared.caches i).held x = none) (hx : ¬InWindowLine x)
    (ht : Touch l1Geometry.line x (h.shared.seenBy i) t) {y : WordAddr} (hy : InWindowLine y) :
    t.lines.held y = none := by
  cases hw : t.lines.held y with
  | none => rfl
  | some w =>
    rcases ht.held_cases hw with ⟨hold, _⟩ | ⟨hl, _⟩
    · exact absurd (hold.symm.trans (hno i y hy)) (by simp)
    · exact absurd (line_lockWord.mp (hl.symm.trans (line_lockWord.mpr hy))) hx

namespace OffLock
variable {h h' : Hierarchy N} {owner : Nat → Option (Fin N)} {f : WordAddr → Word} {i : Fin N}
  {x : WordAddr}

theorem init (owner : Nat → Option (Fin N)) (ddr : DDRMemory) :
    OffLock (Hierarchy.init N ddr) owner (Hierarchy.ddrWords ddr) where
  kept := (Hierarchy.init_owned owner ddr).kept
  coherent := Hierarchy.init_coherent ddr
  noCopy i x _ := by simp [Hierarchy.shared, Hierarchy.init, Cache.init_lines, Lines.empty]

/-- What is loaded. -/
theorem load_value (ho : OffLock h owner f) (hg : h.Good)
    (hr : (blockPartition owner).Readable i x) : (h.load i (byteAddr x)).1 = f x :=
  (Hierarchy.load_spec hg i x).1.trans (ho.kept.view ho.coherent (h.shared_granular i) hr)

/-- A copy of a cache that has moved. -/
theorem noCopy_set {t : State WordAddr (Fin l1Geometry.numSets × Word) Word}
    (ho : OffLock h owner f) (hs : h'.shared = h.shared.set i t)
    (ht : ∀ y, InWindowLine y → t.lines.held y = none) (j : Fin N) {y : WordAddr}
    (hy : InWindowLine y) : (h'.shared.caches j).held y = none := by
  rw [hs]
  by_cases hj : j = i
  · subst hj
    rw [Shared.set_caches_self]
    exact ht y hy
  · rw [Shared.set_caches_other hj]
    exact ho.noCopy j y hy

theorem load (ho : OffLock h owner f) (hg : h.Good) (hr : (blockPartition owner).Readable i x)
    (hx : ¬InWindowLine x) : OffLock (h.load i (byteAddr x)).2 owner f := by
  obtain ⟨_, _, t, ht, hs⟩ := Hierarchy.load_spec hg i x
  refine ⟨?_, ?_, fun j y hy => ho.noCopy_set hs (fun z hz => noCopy_touch ho.noCopy hx ht hz) j hy⟩
  · rw [hs]
    exact ho.kept.touch hr ht
  · rw [hs]
    exact ho.coherent.touch (h.shared_granular i) (ho.kept.mayRead hr) ht

theorem store (ho : OffLock h owner f) (hg : h.Good) (hown : owner (x.toNat / 16) = some i)
    (hx : ¬InWindowLine x) (hc : hasDataCache (byteAddr x) = true) (v : Word) :
    OffLock (h.store i (byteAddr x) (byteAddr x) v) owner (Function.update f x v) := by
  have hword := hasDataCache_word hc
  obtain ⟨_, hkept, hcoherent⟩ := Hierarchy.store_kept hg ho.kept ho.coherent hown hword hx v
  refine ⟨hkept, hcoherent, fun j y hy => ?_⟩
  by_cases hthrough : writesThrough x
  · obtain ⟨_, hs⟩ := Hierarchy.store_through_spec hg i x v (writesThrough_addr hthrough) hword
    refine ho.noCopy_set hs (fun z hz => ?_) j hy
    have hz : (h.shared.caches i).held z = none := ho.noCopy i z hz
    simp [State.through, State.drop, State.storeMemory, Lines.drop, Shared.seenBy, hz]
  · obtain ⟨_, t, ht, hs⟩ := Hierarchy.store_spec hg i x v (not_not.mp hthrough) hword
    refine ho.noCopy_set hs (fun z hz => ?_) j hy
    have hne : z ≠ x := fun he => hx (he ▸ hz)
    simp only [State.store, Function.update_of_ne hne]
    exact noCopy_touch ho.noCopy hx ht hz

/-- The lock is swapped or released around the caches. -/
theorem lock (ho : OffLock h owner f) {v : Word} (hs : h'.shared = h.shared.set i
    ((h.shared.seenBy i).through l1Geometry.line lockWord v)) :
    OffLock h' owner (Function.update f lockWord v) := by
  have hno : ∀ j, (h.shared.caches j).held lockWord = none :=
    fun j => ho.noCopy j lockWord inWindowLine_lockWord
  have hsynced : (h.shared.seenBy i).Synced l1Geometry.line lockWord := by
    intro y hl _
    have hy : (h.shared.seenBy i).lines.held y = none := ho.noCopy i y (line_lockWord.mp hl)
    simp [State.view, hy]
  refine ⟨hs ▸ ho.kept.through, ?_, fun j y hy => ho.noCopy_set hs (fun z hz => ?_) j hy⟩
  · rw [hs]
    exact ho.coherent.through h.shared_granular (fun j _ => hno j) hsynced
  · have hz : (h.shared.caches i).held z = none := ho.noCopy i z hz
    simp [State.through, State.drop, State.storeMemory, Lines.drop, Shared.seenBy, hz]

/-- An access that keeps to the owners. -/
theorem exec (ho : OffLock h owner f) (hg : h.Good) {op : MemOp N}
    (ha : LockState.allowed op = true) (hp : Proper owner op) :
    OffLock (h.exec op) owner (lastStored f [op]) := by
  cases op with
  | fetch i addr =>
    have hs := (Hierarchy.fetch_spec hg i addr).2
    exact ⟨hs ▸ ho.kept, hs ▸ ho.coherent, hs ▸ ho.noCopy⟩
  | load i x => exact ho.load hg hp.1 hp.2
  | store i x v =>
    have hc : hasDataCache (byteAddr x) = true := by
      simp only [LockState.allowed, Bool.and_eq_true] at ha
      exact ha.1
    exact ho.store hg hp.1 hp.2 hc v

end OffLock

/-- No store of a proper access is one next to the lock. -/
theorem Proper.not_neighbour {owner : Nat → Option (Fin N)} {op : MemOp N}
    (hp : Proper owner op) : ¬NeighbourStore (.access op) := by
  cases op with
  | fetch i addr => exact id
  | load i x => exact id
  | store i x v => exact fun hn => hp.2 (line_lockWord.mp hn.1)

end

/-! ## The port prints what the printer prints -/

theorem UART.write_byte {u : UART} (h : u.lcr = 0) (b : Byte) :
    (u.write 0 (b.setWidth 32)).lcr = 0 ∧
      (u.write 0 (b.setWidth 32)).output = u.output ++ [b] := by
  have hlow : ((b.setWidth 32) &&& 0xFF#32).setWidth 8 = b := by
    refine BitVec.eq_of_getLsbD_eq fun t ht => ?_
    have hmask : (0xFF#32).getLsbD t = decide (t < 8) := by
      have : ∀ t < 8, (0xFF#32).getLsbD t = true := by decide
      simp [this t ht, ht]
    rw [BitVec.getLsbD_setWidth, BitVec.getLsbD_and, BitVec.getLsbD_setWidth, hmask]
    simp [ht, show t < 32 by omega]
  simp [UART.write, h, hlow]

namespace WriteState
variable {N : Nat} {owner : Nat → Option (Fin N)} {s t : WriteState N} {p : Printer N}
  {ddr : DDRMemory} {i : Fin N}

/-- The words of the buffer core `i` sends. -/
def Sends (s : WriteState N) (i : Fin N) (x : WordAddr) : Prop :=
  s.lock.phase i ≠ .outside ∧ ∃ k < (s.call i).len.toNat, wordOf ((s.call i).byteAt k) = x

/-- What keeps to the owners: accesses, where none stores to a buffer that is being sent,
and calls on buffers that the caller may read. -/
def Permitted (owner : Nat → Option (Fin N)) (s : WriteState N) : WriteEvent N → Prop
  | .access (.store i x v) => Proper owner (.store i x v) ∧ ∀ j, ¬s.Sends j x
  | .access op => Proper owner op
  | .call i c => ∀ k < c.len.toNat,
    (blockPartition owner).Readable i (wordOf (c.byteAt k)) ∧
      ¬InWindowLine (wordOf (c.byteAt k))
  | _ => True

/-- Every event of the run keeps to the owners. -/
def Keeps (owner : Nat → Option (Fin N)) : WriteState N → List (WriteEvent N) → Prop
  | _, [] => True
  | s, e :: es => s.Permitted owner e ∧ ∀ t, s.step e = some t → Keeps owner t es

theorem Keeps.of_forall {events : List (WriteEvent N)}
    (h : ∀ e ∈ events, ∀ s, Permitted owner s e) : s.Keeps owner events := by
  induction events generalizing s with
  | nil => trivial
  | cons e events ih =>
    exact ⟨h e (by simp) s, fun t _ => ih fun e' he' => h e' (by simp [he'])⟩

/-- The printer is as far as the cores are. -/
structure Prints (owner : Nat → Option (Fin N)) (s : WriteState N) (p : Printer N) : Prop where
  safe : s.lock.Safe
  memory : ∃ v, OffLock s.lock.hierarchy owner (Function.update p.memory lockWord v)
  free : p.holder = none → s.lock.hierarchy.shared.memory lockWord = 0
  holds : ∀ i, s.lock.Holds i ↔ p.holder = some i
  dlab : s.uart.lcr = 0
  buffer : ∀ i, s.lock.phase i ≠ .outside → ∀ k < (s.call i).len.toNat,
    (blockPartition owner).Readable i (wordOf ((s.call i).byteAt k)) ∧
      ¬InWindowLine (wordOf ((s.call i).byteAt k))
  text : ∀ i, s.lock.phase i ≠ .outside → p.message i = (s.call i).text p.memory
  start : ∀ i, s.lock.phase i = .locking → s.next i = 0
  finish : ∀ i, s.lock.phase i = .unlocking → s.next i = (s.call i).len.toNat
  loaded : ∀ i b, s.byte i = some b →
    s.lock.phase i = .critical ∧ (p.message i)[s.next i]? = some b
  output : s.uart.output ++ p.rest s.next = p.pages
  calls : ∀ i, p.called i =
    p.printedBy i ++ if s.lock.phase i = .locking then [p.message i] else []

theorem init_prints (hlock : ddr.readWord lockAddr = 0) :
    Prints owner (init N ddr) (Printer.init N ddr) where
  safe := LockState.init_safe ddr
  memory := by
    refine ⟨Hierarchy.ddrWords ddr lockWord, ?_⟩
    rw [show (Printer.init N ddr).memory = Hierarchy.ddrWords ddr from rfl,
      Function.update_eq_self]
    exact OffLock.init owner ddr
  free _ := by
    refine (Hierarchy.init_memory ddr lockWord).trans ?_
    rwa [LockState.byteAddr_lockWord]
  holds i := by simp [LockState.Holds, init, LockState.init, Printer.init]
  dlab := rfl
  buffer i h := absurd rfl h
  text i h := absurd rfl h
  start i h := by simp [init, LockState.init] at h
  finish i h := by simp [init, LockState.init] at h
  loaded i b h := nomatch h
  output := rfl
  calls i := by simp [init, LockState.init, Printer.init, Printer.printedBy]

theorem Proper.lastStored {f : WordAddr → Word} {v : Word} {op : MemOp N}
    (hp : Proper owner op) :
    lastStored (Function.update f lockWord v) [op] =
      Function.update (lastStored f [op]) lockWord v := by
  cases op with
  | fetch i addr => rfl
  | load i x => rfl
  | store i x w =>
    have hne : x ≠ lockWord := fun he => hp.2 (he ▸ inWindowLine_lockWord)
    exact Function.update_comm hne.symm ..

theorem Permitted.proper {op : MemOp N} (h : s.Permitted owner (.access op)) : Proper owner op := by
  cases op with
  | store i x v => exact h.1
  | fetch i addr => exact h
  | load i x => exact h

/-- A buffer that is being sent is left as it is. -/
theorem Permitted.text {op : MemOp N} (h : s.Permitted owner (.access op))
    (hi : s.lock.phase i ≠ .outside) (f : WordAddr → Word) :
    (s.call i).text (lastStored f [op]) = (s.call i).text f := by
  refine WriteCall.text_congr fun k hk => ?_
  cases op with
  | fetch j addr => rfl
  | load j x => rfl
  | store j x v =>
    refine Function.update_of_ne (fun he => h.2 i ⟨hi, k, hk, he⟩) ..

namespace Prints

/-- A fetch, load or store of any core. -/
theorem access (h : Prints owner s p) {op : MemOp N} (hp : s.Permitted owner (.access op))
    (hstep : s.step (.access op) = some t) : Prints owner t (p.step (.access op)) := by
  simp only [step, Option.map_eq_some_iff] at hstep
  obtain ⟨lock, hlock, rfl⟩ := hstep
  have hsafe := LockState.step_safe h.safe hlock (Permitted.proper hp).not_neighbour
  simp only [LockState.step, Option.ite_none_right_eq_some, Option.some.injEq] at hlock
  obtain ⟨ha, rfl⟩ := hlock
  have hkept := LockState.access_keeps_lock h.safe.good h.safe.unmodified ha
    (Permitted.proper hp).not_neighbour
  obtain ⟨v, hoff⟩ := h.memory
  exact
    { safe := hsafe
      memory := ⟨v, Proper.lastStored (Permitted.proper hp) ▸
        hoff.exec h.safe.good ha (Permitted.proper hp)⟩
      free := fun hn => hkept.2.2.trans (h.free hn)
      holds := h.holds
      dlab := h.dlab
      buffer := h.buffer
      text := fun i hi => (h.text i hi).trans (Permitted.text hp hi p.memory).symm
      start := h.start
      finish := h.finish
      loaded := h.loaded
      output := h.output
      calls := h.calls }

/-- A core enters `uart_write`. -/
theorem call (h : Prints owner s p) {c : WriteCall} (hp : s.Permitted owner (.call i c))
    (hstep : s.step (.call i c) = some t) : Prints owner t (p.step (.call i c)) := by
  simp only [step, Option.map_eq_some_iff] at hstep
  obtain ⟨lock, hlock, rfl⟩ := hstep
  have hsafe := LockState.step_safe h.safe hlock id
  simp only [LockState.step, Option.ite_none_right_eq_some, Option.some.injEq] at hlock
  obtain ⟨hout, rfl⟩ := hlock
  have hnot : p.holder ≠ some i := by
    intro hi
    have := (h.holds i).mpr hi
    simp [LockState.Holds, hout] at this
  constructor
  case safe => exact hsafe
  case memory => exact h.memory
  case free => exact h.free
  case dlab => exact h.dlab
  case holds =>
    intro j
    by_cases hj : j = i
    · subst hj
      simpa [LockState.Holds, LockState.setPhase, Printer.step] using hnot
    · simpa [LockState.Holds, LockState.setPhase, Printer.step, hj] using h.holds j
  case buffer =>
    intro j hphase
    by_cases hj : j = i
    · subst hj
      simpa [Permitted] using hp
    · simpa [hj] using h.buffer j (by simpa [LockState.setPhase, hj] using hphase)
  case text =>
    intro j hphase
    by_cases hj : j = i
    · subst hj
      simp [Printer.step]
    · simpa [Printer.step, hj] using h.text j (by simpa [LockState.setPhase, hj] using hphase)
  case start =>
    intro j hphase
    by_cases hj : j = i
    · simp [hj]
    · simpa [hj] using h.start j (by simpa [LockState.setPhase, hj] using hphase)
  case finish =>
    intro j hphase
    by_cases hj : j = i
    · simp [LockState.setPhase, hj] at hphase
    · simpa [hj] using h.finish j (by simpa [LockState.setPhase, hj] using hphase)
  case loaded =>
    intro j b hb
    have hold := h.loaded j b hb
    by_cases hj : j = i
    · rw [hj, hout] at hold
      exact absurd hold.1 (by simp)
    · simpa [Printer.step, LockState.setPhase, hj] using hold
  case output =>
    have hrest : (p.step (.call i c)).rest (Function.update s.next i 0) = p.rest s.next := by
      cases hh : p.holder with
      | none => simp [Printer.rest, Printer.step, hh]
      | some j =>
        have hj : j ≠ i := fun he => hnot (he ▸ hh)
        simp [Printer.rest, Printer.step, hh, hj]
    exact (congrArg (s.uart.output ++ ·) hrest).trans h.output
  case calls =>
    intro j
    by_cases hj : j = i
    · subst hj
      have hold := h.calls j
      simp only [hout, reduceCtorEq, if_false, List.append_nil] at hold
      simp [Printer.step, Printer.printedBy, LockState.setPhase, hold]
    · simpa [Printer.step, Printer.printedBy, LockState.setPhase, hj] using h.calls j

/-- The byte loaded is the next of the message. -/
theorem get (h : Prints owner s p) (hstep : s.step (.get i) = some t) :
    Prints owner t (p.step (.get i)) := by
  simp only [step, WriteState.get, Option.ite_none_right_eq_some, Option.map_eq_some_iff] at hstep
  obtain ⟨⟨hphase, hlt, _⟩, lock, hlock, rfl⟩ := hstep
  have hcalled : s.lock.phase i ≠ .outside := by simp [hphase]
  obtain ⟨hr, hx⟩ := h.buffer i hcalled _ hlt
  have hsafe := LockState.step_safe h.safe hlock id
  simp only [LockState.step, Option.ite_none_right_eq_some, Option.some.injEq] at hlock
  obtain ⟨ha, rfl⟩ := hlock
  have hkept := LockState.access_keeps_lock h.safe.good h.safe.unmodified ha (by exact id)
  obtain ⟨v, hoff⟩ := h.memory
  have hne : wordOf ((s.call i).byteAt (s.next i)) ≠ lockWord :=
    fun he => hx (he ▸ inWindowLine_lockWord)
  have hvalue := hoff.load_value h.safe.good hr
  rw [Function.update_of_ne hne] at hvalue
  constructor
  case safe => exact hsafe
  case memory => exact ⟨v, hoff.load h.safe.good hr hx⟩
  case free => exact fun hn => hkept.2.2.trans (h.free hn)
  case holds => exact h.holds
  case dlab => exact h.dlab
  case buffer => exact h.buffer
  case text => exact h.text
  case start => exact h.start
  case finish => exact h.finish
  case output => exact h.output
  case calls => exact h.calls
  case loaded =>
    intro j b hb
    by_cases hj : j = i
    · subst hj
      dsimp only at hb
      rw [Function.update_self, Option.some.injEq] at hb
      refine ⟨hphase, ?_⟩
      show (p.message j)[s.next j]? = some b
      rw [h.text j hcalled, WriteCall.text_getElem? hlt, ← hb, hvalue]
    · exact h.loaded j b (by simpa [hj] using hb)

/-- The byte stored to the port leaves the part of the message that is still to be sent. -/
theorem put (h : Prints owner s p) (hstep : s.step (.put i) = some t) :
    Prints owner t (p.step (.put i)) := by
  simp only [step, Option.map_eq_some_iff] at hstep
  obtain ⟨b, hb, rfl⟩ := hstep
  obtain ⟨hphase, hget⟩ := h.loaded i b hb
  obtain ⟨hlt, hbyte⟩ := List.getElem?_eq_some_iff.mp hget
  have hholder : p.holder = some i := (h.holds i).mp (.inl hphase)
  obtain ⟨hdlab, hout⟩ := UART.write_byte h.dlab b
  have hother : ∀ {j}, s.lock.phase j ≠ .critical → j ≠ i := by
    rintro j hj rfl
    exact hj hphase
  constructor
  case safe => exact h.safe
  case memory => exact h.memory
  case free => exact h.free
  case holds => exact h.holds
  case dlab => exact hdlab
  case buffer => exact h.buffer
  case text => exact h.text
  case start =>
    intro j hj
    have hji := hother fun hcritical => nomatch hj.symm.trans hcritical
    simpa [WriteState.put, hji] using h.start j hj
  case finish =>
    intro j hj
    have hji := hother fun hcritical => nomatch hj.symm.trans hcritical
    simpa [WriteState.put, hji] using h.finish j hj
  case loaded =>
    intro j b' hb'
    by_cases hji : j = i
    · simp [WriteState.put, hji] at hb'
    · have hold := h.loaded j b' (by simpa [WriteState.put, hji] using hb')
      simpa [WriteState.put, Printer.step, hji] using hold
  case output =>
    have hrest : p.rest s.next = b :: p.rest (Function.update s.next i (s.next i + 1)) := by
      simp only [Printer.rest, hholder, Function.update_self]
      rw [List.drop_eq_getElem_cons hlt, hbyte]
    have hold := h.output
    rw [hrest] at hold
    refine Eq.trans ?_ hold
    show (s.uart.write 0 (b.setWidth 32)).output ++ p.rest _ = _
    rw [hout, List.append_assoc]
    rfl
  case calls => exact h.calls

/-- The end of the loop. -/
theorem unlock (h : Prints owner s p) (hstep : s.step (.unlock i) = some t) :
    Prints owner t (p.step (.unlock i)) := by
  simp only [step, Option.ite_none_right_eq_some, Option.map_eq_some_iff] at hstep
  obtain ⟨hend, lock, hlock, rfl⟩ := hstep
  have hsafe := LockState.step_safe h.safe hlock id
  simp only [LockState.step, Option.ite_none_right_eq_some, Option.some.injEq] at hlock
  obtain ⟨hphase, rfl⟩ := hlock
  have hcalled : s.lock.phase i ≠ .outside := by simp [hphase]
  have hout : ∀ j, (s.lock.setPhase i .unlocking).phase j ≠ .outside →
      s.lock.phase j ≠ .outside := by
    intro j hj
    by_cases hji : j = i
    · exact hji ▸ hcalled
    · simpa [LockState.setPhase, hji] using hj
  have hlocking : ∀ j, (s.lock.setPhase i .unlocking).phase j = .locking ↔
      s.lock.phase j = .locking := by
    intro j
    by_cases hji : j = i
    · simp [LockState.setPhase, hji, hphase]
    · simp [LockState.setPhase, hji]
  constructor
  case safe => exact hsafe
  case memory => exact h.memory
  case free => exact h.free
  case dlab => exact h.dlab
  case output => exact h.output
  case holds =>
    intro j
    refine Iff.trans ?_ (h.holds j)
    by_cases hji : j = i
    · simp [LockState.Holds, LockState.setPhase, hji, hphase]
    · simp [LockState.Holds, LockState.setPhase, hji]
  case buffer => exact fun j hj => h.buffer j (hout j hj)
  case text => exact fun j hj => h.text j (hout j hj)
  case start => exact fun j hj => h.start j ((hlocking j).mp hj)
  case finish =>
    intro j hj
    by_cases hji : j = i
    · exact hji ▸ hend
    · exact h.finish j (by simpa [LockState.setPhase, hji] using hj)
  case loaded =>
    intro j b hb
    obtain ⟨hj, hget⟩ := h.loaded j b hb
    by_cases hji : j = i
    · -- The loop has ended: there is no byte left to be sent.
      obtain ⟨hlt, _⟩ := List.getElem?_eq_some_iff.mp hget
      rw [hji, h.text i hcalled, WriteCall.text_length, hend] at hlt
      exact absurd hlt (Nat.lt_irrefl _)
    · exact ⟨by simpa [LockState.setPhase, hji] using hj, hget⟩
  case calls =>
    intro j
    simp only [hlocking]
    exact h.calls j

/-- The swap that gets the lock is when the message is printed; any other changes
nothing. -/
theorem swap (h : Prints owner s p) (hstep : s.step (.swap i) = some t) :
    Prints owner t (p.step (.swap i)) := by
  simp only [step, Option.map_eq_some_iff] at hstep
  obtain ⟨lock, hlock, rfl⟩ := hstep
  have hsafe := LockState.step_safe h.safe hlock id
  simp only [LockState.step, Option.ite_none_right_eq_some, Option.some.injEq] at hlock
  obtain ⟨hphase, rfl⟩ := hlock
  obtain ⟨hold, hg, hs⟩ := Hierarchy.atomic_spec h.safe.good i lockWord (.swap 1)
    LockState.lockWord_lt
  rw [LockState.byteAddr_lockWord] at hold hg hs
  obtain ⟨v, hoff⟩ := h.memory
  have hoff' := hoff.lock hs
  rw [Function.update_idem] at hoff'
  by_cases hfree : p.holder = none
  · have hzero : (s.lock.hierarchy.atomic i lockAddr (.swap 1)).1 = 0 := hold.trans (h.free hfree)
    simp only [hzero, if_true] at hsafe ⊢
    have hnone : ∀ j, ¬s.lock.Holds j := by
      intro j hj
      exact absurd ((h.holds j).mp hj) (by simp [hfree])
    have hother : ∀ {j}, j ≠ i → (s.lock.setPhase i .critical).phase j = s.lock.phase j :=
      fun hji => Function.update_of_ne hji ..
    have hself : (s.lock.setPhase i .critical).phase i = .critical := Function.update_self ..
    have hout : ∀ j, (s.lock.setPhase i .critical).phase j ≠ .outside →
        s.lock.phase j ≠ .outside := by
      intro j hj
      by_cases hji : j = i
      · simp [hji, hphase]
      · rwa [hother hji] at hj
    constructor
    case safe => exact hsafe
    case memory => exact ⟨_, by simpa [Printer.step, hfree, LockState.setPhase] using hoff'⟩
    case free => simp [Printer.step, hfree]
    case dlab => exact h.dlab
    case holds =>
      intro j
      by_cases hji : j = i
      · simp [LockState.Holds, LockState.setPhase, Printer.step, hfree, hji]
      · have hj := hnone j
        simp only [LockState.Holds] at hj
        simp [LockState.Holds, LockState.setPhase, Printer.step, hfree, hji, hj, Ne.symm hji]
    case buffer => exact fun j hj => h.buffer j (hout j hj)
    case text =>
      intro j hj
      simpa [Printer.step, hfree] using h.text j (hout j hj)
    case start =>
      intro j hj
      have hji : j ≠ i := by
        rintro rfl
        exact absurd (hj.symm.trans hself) (by simp)
      exact h.start j ((hother hji).symm.trans hj)
    case finish =>
      intro j hj
      have hji : j ≠ i := by
        rintro rfl
        exact absurd (hj.symm.trans hself) (by simp)
      exact h.finish j ((hother hji).symm.trans hj)
    case loaded =>
      intro j b hb
      obtain ⟨hj, hget⟩ := h.loaded j b hb
      refine ⟨?_, by simpa [Printer.step, hfree] using hget⟩
      by_cases hji : j = i
      · exact hji ▸ hself
      · exact (hother hji).trans hj
    case output =>
      have hout := h.output
      simp only [Printer.rest, hfree, List.append_nil] at hout
      simp [Printer.rest, Printer.step, Printer.pages, hfree, h.start i hphase, hout]
    case calls =>
      intro j
      have hcalls := h.calls j
      by_cases hji : j = i
      · subst hji
        simpa [Printer.step, Printer.printedBy, LockState.setPhase, hfree, hphase] using hcalls
      · simpa [Printer.step, Printer.printedBy, LockState.setPhase, hfree, hji, Ne.symm hji]
          using hcalls
  · obtain ⟨j, hj⟩ := Option.ne_none_iff_exists'.mp hfree
    have hzero : (s.lock.hierarchy.atomic i lockAddr (.swap 1)).1 ≠ 0 := by
      rw [hold]
      exact h.safe.locked j ((h.holds j).mpr hj)
    have hstays : p.step (.swap i) = p := by simp [Printer.step, hfree]
    simp only [hzero, if_false] at hsafe ⊢
    rw [hstays]
    exact
      { safe := hsafe
        memory := ⟨_, hoff'⟩
        free := fun hn => absurd hn hfree
        holds := h.holds
        dlab := h.dlab
        buffer := h.buffer
        text := h.text
        start := h.start
        finish := h.finish
        loaded := h.loaded
        output := h.output
        calls := h.calls }

/-- The store that frees the lock. -/
theorem release (h : Prints owner s p) (hstep : s.step (.release i) = some t) :
    Prints owner t (p.step (.release i)) := by
  simp only [step, Option.map_eq_some_iff] at hstep
  obtain ⟨lock, hlock, rfl⟩ := hstep
  have hsafe := LockState.step_safe h.safe hlock id
  simp only [LockState.step, Option.ite_none_right_eq_some, Option.some.injEq] at hlock
  obtain ⟨hphase, rfl⟩ := hlock
  have ha : writeThroughAddr lockAddr lockAddr = some (byteAddr lockWord) := by decide
  obtain ⟨_, hs⟩ := Hierarchy.store_through_spec h.safe.good i lockWord 0 ha
    LockState.lockWord_lt
  obtain ⟨v, hoff⟩ := h.memory
  have hoff' := hoff.lock hs
  rw [Function.update_idem] at hoff'
  have hholder : p.holder = some i := (h.holds i).mp (.inr hphase)
  have hother : ∀ {j}, j ≠ i → Function.update s.lock.phase i .outside j = s.lock.phase j :=
    fun hji => Function.update_of_ne hji ..
  have hstays : ∀ j, Function.update s.lock.phase i .outside j ≠ .outside →
      s.lock.phase j = Function.update s.lock.phase i .outside j := by
    intro j hj
    by_cases hji : j = i
    · simp [hji] at hj
    · exact (hother hji).symm
  have hout : ∀ j, Function.update s.lock.phase i .outside j ≠ .outside →
      s.lock.phase j ≠ .outside := fun j hj => hstays j hj ▸ hj
  constructor
  case safe => exact hsafe
  case memory => exact ⟨_, hoff'⟩
  case free => exact fun _ => (LockState.through_lock h.safe.unmodified hs).2
  case dlab => exact h.dlab
  case holds =>
    intro j
    have hj : j ≠ i → ¬s.lock.Holds j := by
      intro hji hj
      exact hji (Option.some.inj (((h.holds j).mp hj).symm.trans hholder))
    by_cases hji : j = i
    · simp [LockState.Holds, Printer.step, hji]
    · simpa [LockState.Holds, Printer.step, hji] using hj hji
  case buffer => exact fun j hj => h.buffer j (hout j hj)
  case text => exact fun j hj => h.text j (hout j hj)
  case start => exact fun j hj => h.start j ((hstays j (ne_of_eq_of_ne hj (by simp))).trans hj)
  case finish => exact fun j hj => h.finish j ((hstays j (ne_of_eq_of_ne hj (by simp))).trans hj)
  case loaded =>
    intro j b hb
    obtain ⟨hj, hget⟩ := h.loaded j b hb
    have hji : j ≠ i := by
      rintro rfl
      exact absurd (hj.symm.trans hphase) (by simp)
    exact ⟨(hother hji).trans hj, hget⟩
  case output =>
    have hcalled : s.lock.phase i ≠ .outside := by simp [hphase]
    have hrest : p.rest s.next = [] := by
      simp [Printer.rest, hholder, h.text i hcalled, h.finish i hphase]
    have hold := h.output
    rw [hrest] at hold
    simpa [Printer.rest, Printer.step, Printer.pages] using hold
  case calls =>
    intro j
    by_cases hji : j = i
    · subst hji
      simpa [Printer.step, Printer.printedBy, hphase] using h.calls j
    · simpa [Printer.step, Printer.printedBy, hji] using h.calls j

/-- One event that keeps to the owners. -/
theorem step {e : WriteEvent N} (h : Prints owner s p) (hp : s.Permitted owner e)
    (hstep : s.step e = some t) : Prints owner t (p.step e) := by
  cases e with
  | access op => exact h.access hp hstep
  | call i c => exact h.call hp hstep
  | swap i => exact h.swap hstep
  | get i => exact h.get hstep
  | put i => exact h.put hstep
  | unlock i => exact h.unlock hstep
  | release i => exact h.release hstep

theorem run {events : List (WriteEvent N)} (h : Prints owner s p) (hk : s.Keeps owner events)
    (hrun : s.run events = some t) : Prints owner t (p.run events) := by
  induction events generalizing s p with
  | nil =>
    obtain rfl := Option.some.inj hrun
    exact h
  | cons e events ih =>
    rw [WriteState.run, List.foldlM_cons] at hrun
    obtain ⟨u, hu, hrest⟩ := Option.bind_eq_some_iff.mp hrun
    exact ih (h.step hk.1 hu) (hk.2 u hu) hrest

end Prints

/-- In every run that keeps to the owners the port has printed what the printer has, up
to the part of the message that is being sent, and every message of every core is printed
once, in the order of its calls, but for one that still waits for the lock. -/
theorem uart_write_whole (hlock : ddr.readWord lockAddr = 0) {events : List (WriteEvent N)}
    (hk : (init N ddr).Keeps owner events) (hrun : (init N ddr).run events = some s) :
    let p := (Printer.init N ddr).run events
    s.uart.output ++ p.rest s.next = p.pages ∧
      ((∀ i, ¬s.lock.Holds i) → s.uart.output = p.pages) ∧
      ∀ i, p.called i =
        p.printedBy i ++ if s.lock.phase i = .locking then [p.message i] else [] := by
  intro p
  have h := (init_prints hlock).run hk hrun
  refine ⟨h.output, fun hnone => ?_, h.calls⟩
  have hholder : p.holder = none := by
    cases hh : p.holder with
    | none => rfl
    | some i => exact absurd ((h.holds i).mpr hh) (hnone i)
  have hout := h.output
  unfold Printer.rest at hout
  rw [show (Printer.run (Printer.init N ddr) events).holder = none from hholder] at hout
  exact (List.append_nil _).symm.trans hout

def sender : Fin 2 := ⟨0, Nat.two_pos⟩
def waiter : Fin 2 := ⟨1, Nat.one_lt_two⟩

/-- One core sends two bytes while the other asks for the lock, and then that one sends
one. -/
def twoMessages : List (WriteEvent 2) :=
  [.access (.store sender (wordOf 0x50000) 0x6948), .call sender ⟨0x50000, 2⟩,
    .call waiter ⟨0x50040, 1⟩, .swap sender, .get sender, .put sender, .get sender, .swap waiter,
    .put sender, .unlock sender, .release sender, .swap waiter, .get waiter, .put waiter,
    .unlock waiter, .release waiter]

/-- The first of the two blocks has an owner. -/
def twoOwners (b : Nat) : Option (Fin 2) := if b = 0x1400 then some sender else none

theorem uart_write_whole_two :
    ∃ s, (init 2 Hierarchy.zeroDdr).run twoMessages = some s ∧
      s.uart.output ++ ((Printer.init 2 Hierarchy.zeroDdr).run twoMessages).rest s.next =
        ((Printer.init 2 Hierarchy.zeroDdr).run twoMessages).pages := by
  have hruns : ((init 2 Hierarchy.zeroDdr).run twoMessages).isSome = true := by decide +kernel
  have hkeeps : (init 2 Hierarchy.zeroDdr).Keeps twoOwners twoMessages := by
    refine ⟨⟨⟨by decide, by decide⟩, fun j hj => hj.1 rfl⟩, fun t _ => Keeps.of_forall ?_⟩
    simp only [List.forall_mem_cons, Permitted, implies_true, List.not_mem_nil, false_implies,
      and_true, Partition.Readable, blockPartition]
    refine ⟨fun _ => ?_, fun _ => ?_⟩ <;> decide
  obtain ⟨s, hrun⟩ := Option.isSome_iff_exists.mp hruns
  exact ⟨s, hrun, (uart_write_whole (by decide) hkeeps hrun).1⟩

end WriteState
end RiscvEmulator.Software
