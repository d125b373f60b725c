import RiscvEmulator.Memory.Word

/-! # The workspace of the TVM runtime

`memory.c` of the runtime hands out its static heap from a running offset and takes nothing
back. Sizes are 64-bit numbers, and where they wrap a block is given that is not there. -/
namespace RiscvEmulator.Software
open Memory

/-- `TVM_RISCV_HEAP_SIZE`. -/
def tvmHeapSize : Nat := 1024 * 1024

/-- The static variables beside `tvm_heap`. -/
structure TvmMemory where
  heapOffset : Word := 0
  memoryInitialized : Bool := false
deriving DecidableEq, Repr

structure DLDataType where
  code : BitVec 8
  bits : BitVec 8
  lanes : BitVec 16
deriving DecidableEq, Repr

structure DLDevice where
  deviceType : Word
  deviceId : Word
deriving DecidableEq, Repr

/-- `strides` is always null and `byte_offset` 0; `data` is an offset in `tvm_heap`. -/
structure DLTensor where
  data : Nat
  device : DLDevice
  ndim : Word
  shape : List (BitVec 64)
  dtype : DLDataType
deriving DecidableEq, Repr

inductive TVMRetValue where
  | success | errorGeneric | errorArgument
deriving DecidableEq, Repr

/-- The arguments of `TVMArrayAlloc`, with what its calls of `malloc` will say. -/
structure ArrayCall where
  shape : Option (List (BitVec 64))
  ndim : Word
  dtype : DLDataType
  dev : DLDevice
  /-- Whether `out` is not null. -/
  out : Bool
  mallocTensor : Bool
  mallocShape : Bool
  ndim_le : ∀ dims, shape = some dims → ndim.toInt ≤ dims.length

namespace TvmMemory

/-- `TVMInitMemory`. -/
def initMemory (s : TvmMemory) : TvmMemory :=
  if s.memoryInitialized then s else { heapOffset := 0, memoryInitialized := true }

/-- `TVMBackendAllocWorkspace`; a block is given by its offset in `tvm_heap`. -/
def backendAllocWorkspace (s : TvmMemory) (nbytes : BitVec 64) : Option Nat × TvmMemory :=
  let s := s.initMemory
  let alignedSize := (nbytes + 7) &&& ~~~7
  let heapEnd := s.heapOffset.setWidth 64 + alignedSize
  if tvmHeapSize < heapEnd.toNat then (none, s)
  else (some s.heapOffset.toNat, { s with heapOffset := heapEnd.setWidth 32 })

/-- A product of `int64_t`, undefined where it does not fit. -/
def mulInt64 (a b : Int) : Option Int :=
  if -2 ^ 63 ≤ a * b ∧ a * b < 2 ^ 63 then some (a * b) else none

def totalElements (shape : List (BitVec 64)) : Option Int :=
  shape.foldlM (fun total dim => mulInt64 total dim.toInt) 1

def totalBytes (shape : List (BitVec 64)) (dtype : DLDataType) : Option Int := do
  mulInt64 (← totalElements shape) ((dtype.bits.toNat + 7) / 8 : Nat)

/-- `TVMArrayAlloc`, with the tensor that `out` is given. -/
def arrayAlloc (s : TvmMemory) (call : ArrayCall) :
    Option (TVMRetValue × Option DLTensor × TvmMemory) :=
  match call.out, call.shape with
  | true, some dims => do
    let shape := dims.take call.ndim.toInt.toNat
    let totalBytes ← totalBytes shape call.dtype
    if !call.mallocTensor then return (.errorGeneric, none, s)
    if !call.mallocShape then return (.errorGeneric, none, s)
    match s.backendAllocWorkspace (BitVec.ofInt 64 totalBytes) with
    | (none, s) => return (.errorGeneric, none, s)
    | (some data, s) =>
      return (.success, some { data, device := call.dev, ndim := call.ndim, shape
                               dtype := call.dtype }, s)
  | _, _ => some (.errorArgument, none, s)

/-! ## Requests -/

inductive Request where
  | workspace (nbytes : BitVec 64)
  | array (call : ArrayCall)

/-- A block that was given: its place in `tvm_heap` and the bytes that were asked for. -/
structure Block where
  start : Nat
  size : Nat
deriving DecidableEq, Repr

namespace Block

def Inside (b : Block) : Prop := b.start + b.size ≤ tvmHeapSize
def Aligned (b : Block) : Prop := b.start % 8 = 0

/-- The blocks have no byte in common. -/
def Disjoint (b b' : Block) : Prop :=
  ∀ i, ¬((b.start ≤ i ∧ i < b.start + b.size) ∧ (b'.start ≤ i ∧ i < b'.start + b'.size))

end Block

/-- The bytes a request asks the workspace for: `none` where the product of the shape is
undefined, `some none` where nothing is asked. -/
def Request.bytes : Request → Option (Option (BitVec 64))
  | .workspace nbytes => some (some nbytes)
  | .array call =>
    match call.out, call.shape with
    | true, some dims => do
      let totalBytes ← totalBytes (dims.take call.ndim.toInt.toNat) call.dtype
      return if call.mallocTensor && call.mallocShape then some (BitVec.ofInt 64 totalBytes)
        else none
    | _, _ => some none

/-- What a request is given, with the bytes it asked for. -/
def serve (s : TvmMemory) (request : Request) : Option (Option Block × TvmMemory) :=
  match request with
  | .workspace nbytes =>
    let (start, s) := s.backendAllocWorkspace nbytes
    some (start.map (⟨·, nbytes.toNat⟩), s)
  | .array call => do
    let (_, tensor, s) ← s.arrayAlloc call
    let bytes ← (Request.array call).bytes
    return (tensor.map fun tensor => ⟨tensor.data, (bytes.map (·.toNat)).getD 0⟩, s)

/-- A block lies in the heap, begins at a multiple of 8 and has no byte of those before it;
without a block the next request finds what this one found. -/
structure Kept (earlier : List Block) (s : TvmMemory) (block : Option Block) (s' : TvmMemory) :
    Prop where
  inside : ∀ b, block = some b → b.Inside
  aligned : ∀ b, block = some b → b.Aligned
  disjoint : ∀ b, block = some b → ∀ b' ∈ earlier, b.Disjoint b'
  unchanged : block = none → s'.initMemory = s.initMemory

/-- Every request of a run is served so. -/
def RunKeeps (s : TvmMemory) (earlier : List Block) : List Request → Prop
  | [] => True
  | request :: requests => ∃ block s', s.serve request = some (block, s') ∧
    Kept earlier s block s' ∧ RunKeeps s' (earlier ++ block.toList) requests

/-- The end of the block, rounded up, is a 64-bit number. -/
def Bounded (s : TvmMemory) (request : Request) : Prop :=
  ∃ bytes, request.bytes = some bytes ∧
    ∀ nbytes, bytes = some nbytes → s.initMemory.heapOffset.toNat + nbytes.toNat + 7 < 2 ^ 64

/-- Every request of a run, with the offset it finds. -/
def RunBounded (s : TvmMemory) : List Request → Prop
  | [] => True
  | request :: requests => s.Bounded request ∧
    ∀ block s', s.serve request = some (block, s') → RunBounded s' requests

/-! ## The workspace -/

variable {s s' : TvmMemory} {nbytes : BitVec 64} {earlier : List Block}

/-- Rounding up to a multiple of 8, in 64 bits. -/
theorem alignedSize_toNat (nbytes : BitVec 64) :
    ((nbytes + 7) &&& ~~~7#64).toNat = (nbytes.toNat + 7) % 2 ^ 64 / 8 * 8 := by
  have hlow : ((nbytes + 7) &&& 7#64).toNat = (nbytes + 7).toNat % 8 := by
    rw [BitVec.toNat_and]
    exact Nat.and_two_pow_sub_one_eq_mod _ 3
  rw [toNat_and_not, hlow, BitVec.toNat_add]
  show (nbytes.toNat + 7) % 2 ^ 64 - (nbytes.toNat + 7) % 2 ^ 64 % 8 = _
  omega

/-- What is free begins inside the heap, at a multiple of 8 and behind every block. -/
structure Behind (earlier : List Block) (s : TvmMemory) : Prop where
  inside : s.initMemory.heapOffset.toNat ≤ tvmHeapSize
  aligned : s.initMemory.heapOffset.toNat % 8 = 0
  ends : ∀ b ∈ earlier, b.start + b.size ≤ s.initMemory.heapOffset.toNat

theorem initMemory_initialized (s : TvmMemory) : s.initMemory.memoryInitialized = true := by
  unfold initMemory
  split
  · assumption
  · rfl

theorem initMemory_of_initialized (h : s.memoryInitialized = true) : s.initMemory = s :=
  if_pos h

theorem heapEnd_toNat (s : TvmMemory) (nbytes : BitVec 64) :
    (s.initMemory.heapOffset.setWidth 64 + ((nbytes + 7) &&& ~~~7#64)).toNat =
      (s.initMemory.heapOffset.toNat + (nbytes.toNat + 7) % 2 ^ 64 / 8 * 8) % 2 ^ 64 := by
  rw [BitVec.toNat_add, alignedSize_toNat, BitVec.toNat_setWidth_of_le (by decide)]

/-- The two ends of the workspace: it is full, or the block ends where the free part begins. -/
theorem backendAllocWorkspace_cases (s : TvmMemory) (nbytes : BitVec 64) :
    let heapEnd := (s.initMemory.heapOffset.toNat + (nbytes.toNat + 7) % 2 ^ 64 / 8 * 8) % 2 ^ 64
    (tvmHeapSize < heapEnd ∧ s.backendAllocWorkspace nbytes = (none, s.initMemory)) ∨
    (heapEnd ≤ tvmHeapSize ∧ s.backendAllocWorkspace nbytes =
      (some s.initMemory.heapOffset.toNat,
        { heapOffset := BitVec.ofNat 32 heapEnd, memoryInitialized := true })) := by
  rw [← heapEnd_toNat]
  unfold backendAllocWorkspace
  dsimp only
  split
  · next hfull => exact Or.inl ⟨hfull, rfl⟩
  · next hroom =>
    refine Or.inr ⟨Nat.le_of_not_lt hroom, ?_⟩
    rw [initMemory_initialized]
    rfl

/-- A block whose end, rounded up, is a number is given where it fits. -/
theorem backendAllocWorkspace_bounded (h : Behind earlier s)
    (hbound : s.initMemory.heapOffset.toNat + nbytes.toNat + 7 < 2 ^ 64) {start : Option Nat}
    (halloc : s.backendAllocWorkspace nbytes = (start, s')) :
    Kept earlier s (start.map (⟨·, nbytes.toNat⟩)) s' ∧
      Behind (earlier ++ (start.map (⟨·, nbytes.toNat⟩)).toList) s' := by
  rcases backendAllocWorkspace_cases s nbytes with ⟨-, hnone⟩ | ⟨hroom, hsome⟩
  · obtain ⟨rfl, rfl⟩ := Prod.mk.inj (halloc.symm.trans hnone)
    have hinit := initMemory_of_initialized (initMemory_initialized s)
    refine ⟨⟨by simp, by simp, by simp, fun _ => hinit⟩, ?_⟩
    rw [Option.map_none, Option.toList_none, List.append_nil]
    exact ⟨by rw [hinit]; exact h.inside, by rw [hinit]; exact h.aligned,
      by rw [hinit]; exact h.ends⟩
  · obtain ⟨rfl, rfl⟩ := Prod.mk.inj (halloc.symm.trans hsome)
    obtain ⟨hinside, haligned, hends⟩ := h
    generalize s.initMemory.heapOffset.toNat = offset at *
    rw [Nat.mod_eq_of_lt (a := nbytes.toNat + 7) (by omega)] at hroom ⊢
    rw [Nat.mod_eq_of_lt (by omega)] at hroom ⊢
    -- The end is rounded up, so the bytes that were asked for lie before it.
    have hsize : nbytes.toNat ≤ (nbytes.toNat + 7) / 8 * 8 := by omega
    have hmul : (nbytes.toNat + 7) / 8 * 8 % 8 = 0 := Nat.mul_mod_left _ _
    generalize (nbytes.toNat + 7) / 8 * 8 = size at *
    have hend : (BitVec.ofNat 32 (offset + size)).toNat = offset + size := by
      unfold tvmHeapSize at hroom
      rw [BitVec.toNat_ofNat, Nat.mod_eq_of_lt (by omega)]
    have hinit : initMemory
        { heapOffset := BitVec.ofNat 32 (offset + size), memoryInitialized := true } =
        { heapOffset := BitVec.ofNat 32 (offset + size), memoryInitialized := true } := rfl
    have hblock : ∀ b : Block, some b = some ⟨offset, nbytes.toNat⟩ →
        b.start = offset ∧ b.size = nbytes.toNat := by
      rintro b ⟨⟩
      exact ⟨rfl, rfl⟩
    refine ⟨⟨?_, ?_, ?_, by simp⟩, ⟨?_, ?_, ?_⟩⟩
    · intro b hb
      obtain ⟨hstart, hbytes⟩ := hblock b hb.symm
      unfold Block.Inside
      omega
    · intro b hb
      obtain ⟨hstart, hbytes⟩ := hblock b hb.symm
      unfold Block.Aligned
      omega
    · intro b hb b' hb' i hi
      obtain ⟨hstart, hbytes⟩ := hblock b hb.symm
      have := hends b' hb'
      omega
    · rw [hinit, hend]
      exact hroom
    · rw [hinit, hend]
      omega
    · intro b hb
      rw [hinit, hend]
      rcases List.mem_append.mp hb with hb | hb
      · have := hends b hb
        omega
      · obtain ⟨hstart, hbytes⟩ := hblock b (Option.mem_toList.mp hb).symm
        omega

/-- A block whose end is none is given, and lies outside of the heap. -/
theorem backendAllocWorkspace_unbounded (h : Behind earlier s)
    (hbound : ¬s.initMemory.heapOffset.toNat + nbytes.toNat + 7 < 2 ^ 64) :
    ∃ b : Block, (s.backendAllocWorkspace nbytes).1.map (⟨·, nbytes.toNat⟩) = some b ∧
      ¬b.Inside := by
  obtain ⟨hinside, haligned, -⟩ := h
  have hlt := nbytes.isLt
  refine ⟨⟨s.initMemory.heapOffset.toNat, nbytes.toNat⟩, ?_, ?_⟩
  · rcases backendAllocWorkspace_cases s nbytes with ⟨hfull, -⟩ | ⟨-, hsome⟩
    · -- Either the size or the offset wraps, and the end is at most the offset.
      unfold tvmHeapSize at hfull hinside
      omega
    · rw [hsome]
      rfl
  · unfold Block.Inside tvmHeapSize
    unfold tvmHeapSize at hinside
    dsimp only
    omega

/-- What a request is given is what the workspace gives for its bytes, if it asks it. -/
theorem serve_eq (s : TvmMemory) (request : Request) : s.serve request =
    request.bytes.map fun bytes => match bytes with
      | none => (none, s)
      | some nbytes => ((s.backendAllocWorkspace nbytes).1.map (⟨·, nbytes.toNat⟩),
          (s.backendAllocWorkspace nbytes).2) := by
  cases request with
  | workspace nbytes => rfl
  | array call =>
    obtain ⟨shape, ndim, dtype, dev, out, mallocTensor, mallocShape, hndim⟩ := call
    unfold serve arrayAlloc Request.bytes
    cases out with
    | false => rfl
    | true =>
      cases shape with
      | none => rfl
      | some dims =>
        dsimp only
        cases totalBytes (dims.take ndim.toInt.toNat) dtype with
        | none => rfl
        | some total =>
          cases mallocTensor <;> cases mallocShape <;> try rfl
          rcases halloc : s.backendAllocWorkspace (BitVec.ofInt 64 total) with ⟨start, s'⟩
          cases start <;> simp [halloc]

/-! ## Runs -/

/-- One request is served well exactly if it is bounded. -/
theorem serve_kept_iff (h : Behind earlier s) (request : Request) :
    (∃ block s', s.serve request = some (block, s') ∧ Kept earlier s block s') ↔
      s.Bounded request := by
  rw [serve_eq]
  unfold Bounded
  cases request.bytes with
  | none => simp
  | some bytes =>
    cases bytes with
    | none =>
      refine iff_of_true ⟨none, s, rfl, ?_⟩ ⟨none, rfl, by simp⟩
      exact ⟨by simp, by simp, by simp, fun _ => rfl⟩
    | some nbytes =>
      constructor
      · rintro ⟨block, s', hserve, hkept⟩
        refine ⟨some nbytes, rfl, ?_⟩
        rintro _ ⟨⟩
        by_contra hbound
        obtain ⟨b, hb, hout⟩ := backendAllocWorkspace_unbounded h hbound
        obtain ⟨hblock, -⟩ := Prod.mk.inj (Option.some.inj hserve)
        exact hout (hkept.inside b (hblock.symm.trans hb))
      · rintro ⟨bytes, hbytes, hbound⟩
        have hbound := hbound nbytes (Option.some.inj hbytes).symm
        exact ⟨_, _, rfl, (backendAllocWorkspace_bounded h hbound rfl).1⟩

theorem serve_behind (h : Behind earlier s) {request : Request} (hbound : s.Bounded request)
    {block : Option Block} (hserve : s.serve request = some (block, s')) :
    Behind (earlier ++ block.toList) s' := by
  obtain ⟨bytes, hbytes, hbound⟩ := hbound
  rw [serve_eq, hbytes] at hserve
  cases bytes with
  | none =>
    obtain ⟨rfl, rfl⟩ := Prod.mk.inj (Option.some.inj hserve)
    rw [Option.toList_none, List.append_nil]
    exact h
  | some nbytes =>
    obtain ⟨rfl, rfl⟩ := Prod.mk.inj (Option.some.inj hserve)
    exact (backendAllocWorkspace_bounded h (hbound nbytes rfl) rfl).2

theorem runKeeps_iff (h : Behind earlier s) (requests : List Request) :
    s.RunKeeps earlier requests ↔ s.RunBounded requests := by
  induction requests generalizing s earlier with
  | nil => exact iff_of_true trivial trivial
  | cons request requests ih =>
    constructor
    · rintro ⟨block, s', hserve, hkept, hrest⟩
      have hbound := (serve_kept_iff h request).mp ⟨block, s', hserve, hkept⟩
      refine ⟨hbound, fun block₁ s₁ hserve₁ => ?_⟩
      obtain ⟨rfl, rfl⟩ := Prod.mk.inj (Option.some.inj (hserve.symm.trans hserve₁))
      exact (ih (serve_behind h hbound hserve)).mp hrest
    · rintro ⟨hbound, hrest⟩
      obtain ⟨block, s', hserve, hkept⟩ := (serve_kept_iff h request).mpr hbound
      exact ⟨block, s', hserve, hkept,
        (ih (serve_behind h hbound hserve)).mpr (hrest block s' hserve)⟩

theorem start_behind : Behind [] {} := ⟨by decide, by decide, by simp⟩

/-- The blocks of a run are where they should be exactly if no size wraps. -/
theorem workspace_run_iff (requests : List Request) :
    RunKeeps {} [] requests ↔ RunBounded {} requests := runKeeps_iff start_behind requests

/-- A request for 2^64 - 1 bytes is given a block. -/
theorem workspace_wraps : ¬∀ requests, RunKeeps {} [] requests := by
  intro h
  obtain ⟨block, s', hserve, hkept, -⟩ := h [.workspace (-1)]
  obtain ⟨rfl, -⟩ := Prod.mk.inj (Option.some.inj hserve)
  have hinside := hkept.inside ⟨0, 2 ^ 64 - 1⟩ rfl
  unfold Block.Inside at hinside
  exact absurd hinside (by decide)

end TvmMemory
end RiscvEmulator.Software
