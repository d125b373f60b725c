import RiscvEmulator.System.ElfFile
import RiscvEmulator.System.Simulator

/-! # Loading a program

`Simulator::load_program`, from the bytes of the file on. A file is an ELF file or
a raw binary. Each byte of the image is written twice: into `memory`, and word by
word through `memory_interface`, which writes `memory` and DDR. An access past the
end of the file or of `memory` ends the load in a fault. -/
namespace RiscvEmulator.System
open Memory Cores

inductive LoadFault where
  /-- A read outside the file. -/
  | fileRead
  /-- A read outside `memory`. -/
  | memoryRead
  /-- A write outside `memory`. -/
  | memoryWrite
  /-- A loop that never ends. -/
  | endless
  | symbols (fault : SymbolFault)
deriving DecidableEq, Repr

/-! ## Accesses -/

section Accesses
variable {n : Nat} (buffer : FileBuffer) (memory : ByteMemory n)

/-- `std::memcpy` of `size` bytes of the file to `target`. -/
def copyFromFile (target source size : Nat) : Except LoadFault (ByteMemory n) :=
  if source + size ≤ buffer.length then
    if target + size ≤ n then
      .ok ⟨fun x =>
        if target ≤ x ∧ x < target + size then buffer.byte (source + (x - target))
        else memory.bytes x⟩
    else .error .memoryWrite
  else .error .fileRead

/-- `std::memset` and `std::fill` to 0. -/
def zeroFill (target size : Nat) : Except LoadFault (ByteMemory n) :=
  if target + size ≤ n then
    .ok ⟨fun x => if target ≤ x ∧ x < target + size then 0 else memory.bytes x⟩
  else .error .memoryWrite

def fileByte (o : Nat) : Except LoadFault Byte :=
  if o < buffer.length then .ok (buffer.byte o) else .error .fileRead

def memoryByte (addr : Word) : Except LoadFault Byte :=
  if addr.toNat < n then .ok (memory.bytes addr.toNat) else .error .memoryRead

/-- The word at `j` of `size` bytes, of which the last word may have fewer than
four. -/
def gatherWord (readByte : Nat → Except LoadFault Byte) (j size : Nat) :
    Except LoadFault Word :=
  (List.range (min 4 (size - j))).foldlM (fun word k => do
    let b ← readByte (j + k)
    return word ||| b.setWidth 32 <<< (k * 8)) 0

end Accesses

/-- What the loader writes. -/
structure Image (n : Nat) where
  memory : ByteMemory n
  ddr : DDRMemory

namespace Image
variable {n : Nat}

/-- `memory_interface.write_word`. -/
def writeWord (m : Image n) (addr data : Word) : Image n :=
  ⟨m.memory.writeWord addr data, m.ddr.writeWord addr data⟩

/-! ## The first pass over the program headers -/

/-- The bytes a segment has in the file. -/
def copySegment (buffer : FileBuffer) (memory : ByteMemory n) (phdr : Phdr) :
    Except LoadFault (ByteMemory n) :=
  if 0 < phdr.filesz ∧ (phdr.offset + phdr.filesz).toNat ≤ buffer.length then
    copyFromFile buffer memory phdr.paddr.toNat phdr.offset.toNat phdr.filesz.toNat
  else .ok memory

/-- The bytes it has in memory only. -/
def fillSegment (memory : ByteMemory n) (phdr : Phdr) : Except LoadFault (ByteMemory n) :=
  if phdr.filesz < phdr.memsz then
    zeroFill memory (phdr.paddr.toNat + phdr.filesz.toNat) (phdr.memsz - phdr.filesz).toNat
  else .ok memory

/-- One `PT_LOAD` segment, with the highest address loaded so far. -/
def loadSegment (buffer : FileBuffer) (r : ByteMemory n × Word) (phdr : Phdr) :
    Except LoadFault (ByteMemory n × Word) :=
  let stop := phdr.paddr + phdr.memsz
  if n < stop.toNat then .ok r
  else do
    let memory ← copySegment buffer r.1 phdr
    let memory ← fillSegment memory phdr
    .ok (memory, if r.2 < stop then stop else r.2)

/-- A header that exceeds the file is skipped. -/
def loadHeader (buffer : FileBuffer) (ehdr : Ehdr) (r : ByteMemory n × Word) (i : Nat) :
    Except LoadFault (ByteMemory n × Word) :=
  let o := (ehdr.phdrOffset i).toNat
  if buffer.length < o + phdrSize then .ok r
  else if (buffer.phdrAt o).type = ptLoad then loadSegment buffer r (buffer.phdrAt o)
  else .ok r

def loadSegments (buffer : FileBuffer) (ehdr : Ehdr) (memory : ByteMemory n) :
    Except LoadFault (ByteMemory n × Word) :=
  (List.range ehdr.phnum.toNat).foldlM (loadHeader buffer ehdr) (memory, 0)

/-! ## The second pass -/

/-- The word at `j` of a segment, read back from `memory`. -/
def storeWord (phdr : Phdr) (m : Image n) (j : Word) : Except LoadFault (Image n) :=
  (gatherWord (fun k => memoryByte m.memory (phdr.paddr + BitVec.ofNat 32 k))
    j.toNat phdr.filesz.toNat).map (m.writeWord (phdr.paddr + j))

/-- The loop over the words of a segment from `j` on. `j` takes at most 2^30
values, so a loop that is not over after as many turns is never over. -/
def storeLoop (phdr : Phdr) : Nat → Word → Image n → Except LoadFault (Image n)
  | 0, _, _ => .error .endless
  | fuel + 1, j, m =>
    if j < phdr.filesz then do
      let m ← storeWord phdr m j
      storeLoop phdr fuel (j + 4) m
    else .ok m

def storeSegment (phdr : Phdr) (m : Image n) : Except LoadFault (Image n) :=
  storeLoop phdr (2 ^ 30 + 1) 0 m

/-- Here no header is checked against the size of the file. -/
def storeHeader (buffer : FileBuffer) (ehdr : Ehdr) (m : Image n) (i : Nat) :
    Except LoadFault (Image n) :=
  let o := (ehdr.phdrOffset i).toNat
  if buffer.length < o + phdrSize then .error .fileRead
  else
    let phdr := buffer.phdrAt o
    if phdr.type ≠ ptLoad ∨ phdr.filesz = 0 then .ok m else storeSegment phdr m

def storeSegments (buffer : FileBuffer) (ehdr : Ehdr) (m : Image n) :
    Except LoadFault (Image n) :=
  (List.range ehdr.phnum.toNat).foldlM (storeHeader buffer ehdr) m

/-! ## Raw binaries -/

def storeFileWord (buffer : FileBuffer) (m : Image n) (q : Nat) : Except LoadFault (Image n) :=
  (gatherWord (fileByte buffer) (4 * q) buffer.length).map
    (m.writeWord (BitVec.ofNat 32 (4 * q)))

def storeFile (buffer : FileBuffer) (m : Image n) : Except LoadFault (Image n) :=
  (List.range ((buffer.length + 3) / 4)).foldlM (storeFileWord buffer) m

end Image

/-- The search of a raw binary for `lui sp` followed by a jump, from its end
down. `size` is the size of the file as an `int`. -/
def findEntry (buffer : FileBuffer) (size : Int) : List Nat → Except LoadFault Word
  | [] => .ok 0
  | i :: rest => do
    let word ← gatherWord (fileByte buffer) i size.toNat
    if word &&& 0x7f = 0x37 ∧ (word >>> 7) &&& 0x1f = 2 ∧ (i : Int) + 4 < size then
      let nextWord ← gatherWord (fileByte buffer) (i + 4) size.toNat
      if nextWord &&& 0x7f = 0x6f then .ok (BitVec.ofNat 32 i)
      else findEntry buffer size rest
    else findEntry buffer size rest

/-- The places it looks at. There are none in a file whose size is not a
nonnegative `int`. -/
def entryPlaces (size : Int) : List Nat :=
  (List.range ((size.toNat - 4) / 4)).map fun q => size.toNat - 8 - 4 * q

namespace Simulator
variable {N n : Nat}

/-- The end of what is cleared behind the program. -/
def bssEnd : Nat := 0x90000

def ddr (s : Simulator N n) : DDRMemory := s.hierarchy.l2Cache.memory

def withImage (s : Simulator N n) (m : Image n) : Simulator N n :=
  { s with
    memory := m.memory
    hierarchy := { s.hierarchy with l2Cache := ⟨s.hierarchy.l2Cache.cache, m.ddr⟩ } }

def invalidateCaches (s : Simulator N n) : Simulator N n :=
  { s with hierarchy := s.hierarchy.invalidateAll }

def setEntryPoint (s : Simulator N n) (entryPoint : Word) : Simulator N n :=
  if entryPoint ≠ 0 then { s with cores := fun i => (s.cores i).setPc entryPoint } else s

/-- What follows the writes of either kind of file. -/
def finishLoad (s : Simulator N n) (entryPoint maxLoadedAddr : Word) :
    Except LoadFault (Bool × Simulator N n) :=
  let s := s.invalidateCaches.setEntryPoint entryPoint
  if maxLoadedAddr.toNat < bssEnd then
    (zeroFill s.memory maxLoadedAddr.toNat (bssEnd - maxLoadedAddr.toNat)).map fun memory =>
      (true, { s with memory := memory }.invalidateCaches)
  else .ok (true, s)

/-- What follows the first pass. A `_start` symbol is preferred to the entry point
of the header. -/
def storeElf (s : Simulator N n) (buffer : FileBuffer) (r : ByteMemory n × Word) :
    Except LoadFault (Bool × Simulator N n) := do
  let symbolStart ← (buffer.findSymbolStart buffer.ehdr startName).mapError .symbols
  let m ← Image.storeSegments buffer buffer.ehdr ⟨r.1, s.ddr⟩
  (s.withImage m).finishLoad (if symbolStart ≠ 0 then symbolStart else buffer.ehdr.entry) r.2

def loadElf (s : Simulator N n) (buffer : FileBuffer) : Except LoadFault (Bool × Simulator N n) :=
  if buffer.length < ehdrSize then .ok (false, s)
  else if buffer.ehdr.identClass ≠ 1 then .ok (false, s)
  else Image.loadSegments buffer buffer.ehdr s.memory >>= s.storeElf buffer

/-- What follows the copy. The entry point that is found is not used: a raw binary
starts at 0. -/
def storeRaw (s : Simulator N n) (buffer : FileBuffer) (memory : ByteMemory n) :
    Except LoadFault (Bool × Simulator N n) := do
  let m ← Image.storeFile buffer ⟨memory, s.ddr⟩
  let size := (BitVec.ofNat 32 buffer.length).toInt
  let _ ← findEntry buffer size (entryPlaces size)
  (s.withImage m).finishLoad 0 (BitVec.ofNat 32 buffer.length)

def loadRaw (s : Simulator N n) (buffer : FileBuffer) : Except LoadFault (Bool × Simulator N n) :=
  if n < buffer.length then .ok (false, s)
  else copyFromFile buffer s.memory 0 0 buffer.length >>= s.storeRaw buffer

/-- The result says whether the program was loaded. -/
def loadProgram (s : Simulator N n) (buffer : FileBuffer) :
    Except LoadFault (Bool × Simulator N n) :=
  if buffer.isElf then s.loadElf buffer else s.loadRaw buffer

end Simulator
end RiscvEmulator.System
