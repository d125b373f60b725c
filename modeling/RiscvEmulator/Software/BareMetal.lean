import RiscvEmulator.Memory.Word

/-! # The bare-metal C library

The functions of `bare-metal.c` over the bytes of a 32-bit address space: pointers wrap at
its end, and the blocks of `memcpy` may overlap. -/
namespace RiscvEmulator.Software.BareMetal
open Memory

/-- What the software finds at each address. -/
abbrev Bytes := Word → Byte

/-- `*d++ = *s++` until `n` is 0. -/
def memcpyLoop (m : Bytes) (d s : Word) : Nat → Bytes
  | 0 => m
  | n + 1 => memcpyLoop (Function.update m d (m s)) (d + 1) (s + 1) n

/-- `memcpy`: what it returns and the memory. -/
def memcpy (m : Bytes) (dest src n : Word) : Word × Bytes :=
  (dest, memcpyLoop m dest src n.toNat)

def memsetLoop (m : Bytes) (p : Word) (value : Byte) : Nat → Bytes
  | 0 => m
  | num + 1 => memsetLoop (Function.update m p value) (p + 1) value num

def memset (m : Bytes) (ptr value num : Word) : Word × Bytes :=
  (ptr, memsetLoop m ptr (value.setWidth 8) num.toNat)

def memcmpLoop (m : Bytes) (p1 p2 : Word) : Nat → Int
  | 0 => 0
  | num + 1 =>
    if m p1 ≠ m p2 then (m p1).toNat - (m p2).toNat
    else memcmpLoop m (p1 + 1) (p2 + 1) num

def memcmp (m : Bytes) (ptr1 ptr2 num : Word) : Int := memcmpLoop m ptr1 ptr2 num.toNat

/-- The loop of `strlen`, which goes on for ever where no byte is 0. -/
def strlenLoop (m : Bytes) (str : Word) : Nat → Word → Option Word
  | 0, _ => none
  | fuel + 1, len => if m (str + len) ≠ 0 then strlenLoop m str fuel (len + 1) else some len

def strlen (fuel : Nat) (m : Bytes) (str : Word) : Option Word := strlenLoop m str fuel 0

def strcmp (m : Bytes) (str1 str2 : Word) : Nat → Option Int
  | 0 => none
  | fuel + 1 =>
    if m str1 ≠ 0 ∧ m str1 = m str2 then strcmp m (str1 + 1) (str2 + 1) fuel
    else some ((m str1).toNat - (m str2).toNat)

/-! ## Copies and fills -/

section Copies
variable {m : Bytes} {dest src n : Word}

theorem ofNat_add_one (p : Word) (k : Nat) :
    p + 1 + BitVec.ofNat 32 k = p + BitVec.ofNat 32 (k + 1) := by
  rw [BitVec.ofNat_add, BitVec.add_assoc, BitVec.add_comm 1]
  rfl

/-- The last turn of the loop, after all others. -/
theorem memcpyLoop_last (m : Bytes) (d s : Word) (n : Nat) :
    memcpyLoop m d s (n + 1) =
      Function.update (memcpyLoop m d s n) (d + BitVec.ofNat 32 n)
        (memcpyLoop m d s n (s + BitVec.ofNat 32 n)) := by
  induction n generalizing m d s with
  | zero => simp [memcpyLoop]
  | succ n ih =>
    have h := ih (Function.update m d (m s)) (d + 1) (s + 1)
    rw [ofNat_add_one, ofNat_add_one] at h
    exact h

theorem memsetLoop_last (m : Bytes) (p : Word) (value : Byte) (n : Nat) :
    memsetLoop m p value (n + 1) =
      Function.update (memsetLoop m p value n) (p + BitVec.ofNat 32 n) value := by
  induction n generalizing m p with
  | zero => simp [memsetLoop]
  | succ n ih =>
    have h := ih (Function.update m p value) (p + 1)
    rw [ofNat_add_one] at h
    exact h

/-- The place of an address behind another one, around the end of the address space. -/
theorem eq_add_iff (a p : Word) {k : Nat} (hk : k < 2 ^ 32) :
    a = p + BitVec.ofNat 32 k ↔ (a - p).toNat = k := by
  constructor
  · rintro rfl
    rw [add_sub_cancel_left, BitVec.toNat_ofNat, Nat.mod_eq_of_lt hk]
  · rintro rfl
    rw [BitVec.ofNat_toNat, BitVec.setWidth_eq, add_sub_cancel]

/-- What a turn finds at `*s`: an earlier turn was there exactly if the blocks overlap. -/
theorem behind_dest (dest src : Word) {k : Nat} (hk : k < 2 ^ 32) :
    (src + BitVec.ofNat 32 k - dest).toNat =
      if (dest - src).toNat ≤ k then k - (dest - src).toNat
      else 2 ^ 32 + k - (dest - src).toNat := by
  have hd := (dest - src).isLt
  have hsub : src + BitVec.ofNat 32 k - dest = BitVec.ofNat 32 k - (dest - src) := by
    rw [sub_sub_eq_add_sub, add_comm]
  rw [hsub, BitVec.toNat_sub, BitVec.toNat_ofNat, Nat.mod_eq_of_lt hk]
  split <;> omega

/-- Every byte after `n` turns: the block that was behind `src`, its first
`dest - src` bytes repeated where the copy runs into its own source. -/
theorem memcpyLoop_apply (m : Bytes) (dest src : Word) {n : Nat} (hn : n ≤ 2 ^ 32) (a : Word) :
    memcpyLoop m dest src n a =
      if (a - dest).toNat < n then
        m (src + BitVec.ofNat 32 ((a - dest).toNat % (dest - src).toNat))
      else m a := by
  induction n generalizing a with
  | zero => simp [memcpyLoop]
  | succ n ih =>
    have hlt : n < 2 ^ 32 := hn
    have ih := ih (Nat.le_of_succ_le hn)
    rw [memcpyLoop_last, Function.update_apply, ih a]
    by_cases ha : a = dest + BitVec.ofNat 32 n
    · have hplace := (eq_add_iff a dest hlt).mp ha
      rw [if_pos ha, ih, hplace, behind_dest dest src hlt, if_pos (Nat.lt_succ_self n)]
      by_cases hover : (dest - src).toNat ≤ n
      · rw [if_pos hover]
        rcases Nat.eq_zero_or_pos (dest - src).toNat with hsame | hpos
        · rw [hsame, Nat.sub_zero, if_neg (Nat.lt_irrefl n), Nat.mod_zero]
        · rw [if_pos (Nat.sub_lt_of_pos_le hpos hover), ← Nat.mod_eq_sub_mod hover]
      · -- The byte at `src` is one that the copy has not come to.
        have hlate : ¬2 ^ 32 + n - (dest - src).toNat < n := by
          have := (dest - src).isLt
          omega
        rw [if_neg hover, if_neg hlate, Nat.mod_eq_of_lt (Nat.lt_of_not_le hover)]
    · have hplace : (a - dest).toNat ≠ n := fun h => ha ((eq_add_iff a dest hlt).mpr h)
      rw [if_neg ha]
      have : (a - dest).toNat < n + 1 ↔ (a - dest).toNat < n := by omega
      simp only [this]

theorem memcpy_memory (m : Bytes) (dest src n : Word) :
    (memcpy m dest src n).2 = memcpyLoop m dest src n.toNat := rfl

/-- Where the destination begins inside the source, its bytes are those before it, over and
over. -/
theorem memcpy_inside (m : Bytes) (dest src : Word) {k : Nat} (hk : k < n.toNat) :
    (memcpy m dest src n).2 (dest + BitVec.ofNat 32 k) =
      m (src + BitVec.ofNat 32 (k % (dest - src).toNat)) := by
  have hn := n.isLt
  have hplace := (eq_add_iff (dest + BitVec.ofNat 32 k) dest (Nat.lt_trans hk hn)).mp rfl
  rw [memcpy_memory, memcpyLoop_apply m dest src hn.le, hplace, if_pos hk]

theorem memcpy_outside (m : Bytes) (dest src : Word) {a : Word}
    (ha : n.toNat ≤ (a - dest).toNat) : (memcpy m dest src n).2 a = m a := by
  rw [memcpy_memory, memcpyLoop_apply m dest src n.isLt.le, if_neg (Nat.not_lt_of_le ha)]

theorem memcpy_copied (h : dest = src ∨ n.toNat ≤ (dest - src).toNat) (k : Nat)
    (hk : k < n.toNat) :
    (memcpy m dest src n).2 (dest + BitVec.ofNat 32 k) = m (src + BitVec.ofNat 32 k) := by
  rw [memcpy_inside _ _ _ hk]
  rcases h with rfl | h
  · rw [sub_self, show (0 : Word).toNat = 0 from rfl, Nat.mod_zero]
  · rw [Nat.mod_eq_of_lt (Nat.lt_of_lt_of_le hk h)]

/-- `memcpy` copies, whatever memory holds, exactly if the destination does not begin
inside the source. -/
theorem memcpy_copies_iff (dest src n : Word) :
    (∀ m : Bytes, ∀ k < n.toNat,
      (memcpy m dest src n).2 (dest + BitVec.ofNat 32 k) = m (src + BitVec.ofNat 32 k)) ↔
      dest = src ∨ n.toNat ≤ (dest - src).toNat := by
  constructor
  · intro h
    by_contra hover
    obtain ⟨hne, hlt⟩ := not_or.mp hover
    have hlt : (dest - src).toNat < n.toNat := Nat.lt_of_not_le hlt
    -- The turn for `dest` itself reads the byte that the first turn has put there.
    have h := h (fun a => if a = src then 1 else 0) _ hlt
    rw [memcpy_inside _ _ _ hlt, Nat.mod_self, BitVec.ofNat_toNat, BitVec.setWidth_eq,
      add_sub_cancel, if_neg hne, if_pos (BitVec.add_zero src)] at h
    exact absurd h (by decide)
  · intro h m k hk
    exact memcpy_copied h k hk

theorem memsetLoop_apply (m : Bytes) (p : Word) (value : Byte) {n : Nat} (hn : n ≤ 2 ^ 32)
    (a : Word) :
    memsetLoop m p value n a = if (a - p).toNat < n then value else m a := by
  induction n with
  | zero => simp [memsetLoop]
  | succ n ih =>
    have hlast := eq_add_iff a p (Nat.lt_of_succ_le hn)
    rw [memsetLoop_last, Function.update_apply, ih (Nat.le_of_succ_le hn)]
    simp only [hlast, Nat.lt_succ_iff_lt_or_eq]
    by_cases hplace : (a - p).toNat = n
    · rw [if_pos hplace, if_pos (Or.inr hplace)]
    · simp only [hplace, if_false, or_false]

theorem memset_apply (m : Bytes) (ptr value num a : Word) :
    (memset m ptr value num).2 a =
      if (a - ptr).toNat < num.toNat then value.setWidth 8 else m a :=
  memsetLoop_apply m ptr _ num.isLt.le a

end Copies

/-! ## Comparisons -/

section Comparisons
variable {m : Bytes} {p1 p2 : Word}

/-- The sign of a result says how two sequences of bytes are ordered, as in a dictionary. -/
structure Orders (result : Int) (s t : List Byte) : Prop where
  less : result < 0 ↔ s < t
  same : result = 0 ↔ s = t
  greater : 0 < result ↔ t < s

theorem Orders.swap {x y : Int} {s t : List Byte} (h : Orders (x - y) s t) :
    Orders (y - x) t s where
  less := by rw [← h.greater, sub_neg, sub_pos]
  same := by rw [sub_eq_zero, eq_comm, ← sub_eq_zero, h.same, eq_comm]
  greater := by rw [← h.less, sub_neg, sub_pos]

theorem Orders.cons {result : Int} {s t : List Byte} (h : Orders result s t) (c : Byte) :
    Orders result (c :: s) (c :: t) where
  less := by rw [h.less, List.cons_lt_cons_self]
  same := by rw [h.same, List.cons.injEq, and_iff_right rfl]
  greater := by rw [h.greater, List.cons_lt_cons_self]

/-- The first bytes decide where they differ. -/
theorem Orders.of_ne {c c' : Byte} (h : c ≠ c') (s t : List Byte) :
    Orders (c.toNat - c'.toNat) (c :: s) (c' :: t) := by
  have hne : c.toNat ≠ c'.toNat := fun he => h (BitVec.eq_of_toNat_eq he)
  refine ⟨?_, ?_, ?_⟩
  · rw [List.cons_lt_cons_iff, BitVec.lt_def]
    simp only [h, false_and, or_false]
    omega
  · rw [List.cons.injEq]
    simp only [h, false_and, iff_false]
    omega
  · rw [List.cons_lt_cons_iff, BitVec.lt_def]
    simp only [h.symm, false_and, or_false]
    omega

/-- A string lies before those that go on where it ends. -/
theorem Orders.of_end {c : Byte} (h : c ≠ 0) (t : List Byte) :
    Orders ((0 : Byte).toNat - c.toNat) [] (c :: t) := by
  have hpos : c.toNat ≠ 0 := fun hz => h (BitVec.eq_of_toNat_eq hz)
  refine ⟨?_, ?_, ?_⟩
  · simp
    omega
  · simp
    omega
  · simp

/-- The bytes of a block. -/
def block (m : Bytes) (p : Word) : Nat → List Byte
  | 0 => []
  | num + 1 => m p :: block m (p + 1) num

theorem memcmpLoop_orders (m : Bytes) (p1 p2 : Word) (num : Nat) :
    Orders (memcmpLoop m p1 p2 num) (block m p1 num) (block m p2 num) := by
  induction num generalizing p1 p2 with
  | zero => exact ⟨by simp [memcmpLoop, block], by simp [memcmpLoop, block],
      by simp [memcmpLoop, block]⟩
  | succ num ih =>
    unfold memcmpLoop block
    by_cases h : m p1 = m p2
    · rw [if_neg (not_not.mpr h), h]
      exact (ih _ _).cons _
    · rw [if_pos h]
      exact Orders.of_ne h _ _

theorem memcmp_orders (m : Bytes) (ptr1 ptr2 num : Word) :
    Orders (memcmp m ptr1 ptr2 num) (block m ptr1 num.toNat) (block m ptr2 num.toNat) :=
  memcmpLoop_orders m ptr1 ptr2 num.toNat

/-- The string at an address, which ends with the first byte that is 0. -/
def IsString (m : Bytes) (p : Word) : List Byte → Prop
  | [] => m p = 0
  | c :: s => m p = c ∧ c ≠ 0 ∧ IsString m (p + 1) s

instance IsString.instDecidable (m : Bytes) (p : Word) : (s : List Byte) →
    Decidable (IsString m p s)
  | [] => inferInstanceAs (Decidable (m p = 0))
  | _ :: s => have := instDecidable m (p + 1) s; inferInstanceAs (Decidable (_ ∧ _ ∧ _))

theorem isString_bytes {s : List Byte} {p : Word} :
    IsString m p s ↔ (∀ k < s.length, m (p + BitVec.ofNat 32 k) = s.getD k 0) ∧
      m (p + BitVec.ofNat 32 s.length) = 0 ∧ ∀ c ∈ s, c ≠ 0 := by
  induction s generalizing p with
  | nil => simp [IsString]
  | cons c s ih =>
    rw [IsString, ih, List.length_cons, ofNat_add_one, List.forall_mem_cons]
    constructor
    · rintro ⟨hc, hne, hbytes, hend, hs⟩
      refine ⟨fun k hk => ?_, hend, hne, hs⟩
      cases k with
      | zero => simpa using hc
      | succ k =>
        rw [← ofNat_add_one, hbytes k (by omega)]
        rfl
    · rintro ⟨hbytes, hend, hne, hs⟩
      refine ⟨by simpa using hbytes 0 (by omega), hne, fun k hk => ?_, hend, hs⟩
      rw [ofNat_add_one, hbytes (k + 1) (by omega)]
      rfl

theorem strlenLoop_isString {s : List Byte} {str len : Word}
    (h : IsString m (str + len) s) {fuel : Nat} (hfuel : s.length < fuel) :
    strlenLoop m str fuel len = some (len + BitVec.ofNat 32 s.length) := by
  induction s generalizing fuel len with
  | nil =>
    obtain ⟨fuel, rfl⟩ := Nat.exists_eq_add_one_of_ne_zero (Nat.ne_zero_of_lt hfuel)
    have hend : m (str + len) = 0 := h
    unfold strlenLoop
    rw [if_neg (not_not.mpr hend)]
    simp
  | cons c s ih =>
    obtain ⟨fuel, rfl⟩ := Nat.exists_eq_add_one_of_ne_zero (Nat.ne_zero_of_lt hfuel)
    obtain ⟨hc, hne, hs⟩ := h
    unfold strlenLoop
    rw [if_pos (hc ▸ hne), ih (by rwa [← add_assoc]) (Nat.lt_of_succ_lt_succ hfuel),
      ofNat_add_one, List.length_cons]

theorem strlen_isString {s : List Byte} {str : Word} (h : IsString m str s) {fuel : Nat}
    (hfuel : s.length < fuel) : strlen fuel m str = some (BitVec.ofNat 32 s.length) := by
  unfold strlen
  rw [strlenLoop_isString (by rwa [add_zero]) hfuel, zero_add]

/-- A string that is copied with its last byte is there, unless the copy runs into it. -/
theorem memcpy_isString {s : List Byte} {dest src n : Word} (h : IsString m src s)
    (hn : n.toNat = s.length + 1) (hapart : dest = src ∨ n.toNat ≤ (dest - src).toNat) :
    IsString (memcpy m dest src n).2 dest s := by
  rw [isString_bytes] at h ⊢
  obtain ⟨hbytes, hend, hs⟩ := h
  refine ⟨fun k hk => ?_, ?_, hs⟩
  · rw [memcpy_copied hapart k (by omega), hbytes k hk]
  · rw [memcpy_copied hapart s.length (by omega), hend]

/-- `strcmp` returns on two strings, and orders them. -/
theorem strcmp_isString {s t : List Byte} {str1 str2 : Word} (hs : IsString m str1 s)
    (ht : IsString m str2 t) {fuel : Nat} (hfuel : s.length < fuel) :
    ∃ result, strcmp m str1 str2 fuel = some result ∧ Orders result s t := by
  induction s generalizing t str1 str2 fuel with
  | nil =>
    obtain ⟨fuel, rfl⟩ := Nat.exists_eq_add_one_of_ne_zero (Nat.ne_zero_of_lt hfuel)
    have hend : m str1 = 0 := hs
    refine ⟨_, by rw [strcmp, if_neg (by simp [hend])], ?_⟩
    rw [hend]
    cases t with
    | nil =>
      have hend' : m str2 = 0 := ht
      rw [hend']
      exact ⟨by simp, by simp, by simp⟩
    | cons c t =>
      obtain ⟨hc, hne, -⟩ := ht
      rw [hc]
      exact Orders.of_end hne t
  | cons c s ih =>
    obtain ⟨fuel, rfl⟩ := Nat.exists_eq_add_one_of_ne_zero (Nat.ne_zero_of_lt hfuel)
    obtain ⟨hc, hne, hs⟩ := hs
    cases t with
    | nil =>
      have hend : m str2 = 0 := ht
      refine ⟨_, by rw [strcmp, if_neg (by simp [hc, hend])], ?_⟩
      rw [hc, hend]
      exact (Orders.of_end hne s).swap
    | cons c' t =>
      obtain ⟨hc', hne', ht⟩ := ht
      by_cases heq : c = c'
      · obtain ⟨result, hresult, horders⟩ := ih hs ht (Nat.lt_of_succ_lt_succ hfuel)
        refine ⟨result, ?_, heq ▸ horders.cons c⟩
        rw [strcmp, if_pos ⟨by rwa [hc], by rw [hc, hc', heq]⟩, hresult]
      · refine ⟨_, by rw [strcmp, if_neg (by simp [hc, hc', heq])], ?_⟩
        rw [hc, hc']
        exact Orders.of_ne heq s t

theorem IsString.congr {m' : Bytes} {s : List Byte} {p : Word} (h : IsString m p s)
    (hm : ∀ k ≤ s.length, m' (p + BitVec.ofNat 32 k) = m (p + BitVec.ofNat 32 k)) :
    IsString m' p s := by
  rw [isString_bytes] at h ⊢
  obtain ⟨hbytes, hend, hs⟩ := h
  refine ⟨fun k hk => ?_, ?_, hs⟩
  · rw [hm k hk.le, hbytes k hk]
  · rw [hm s.length (Nat.le_refl _), hend]

/-- A string is copied with `strlen`, which returns, and `memcpy`. `strcmp` then tells the
copy from any string that was not written over as it would the original. -/
theorem copied_string_orders {s t : List Byte} {dest src other : Word} {fuel : Nat}
    (hs : IsString m src s) (ht : IsString m other t) (hfuel : s.length < fuel)
    (hsize : s.length + 1 < 2 ^ 32)
    (hapart : dest = src ∨ s.length + 1 ≤ (dest - src).toNat)
    (hkept : ∀ k ≤ t.length, s.length + 1 ≤ (other + BitVec.ofNat 32 k - dest).toNat) :
    ∃ len, strlen fuel m src = some len ∧ len.toNat = s.length ∧
      IsString (memcpy m dest src (len + 1)).2 dest s ∧
      ∃ result, strcmp (memcpy m dest src (len + 1)).2 dest other fuel = some result ∧
        Orders result s t := by
  have hlen : (BitVec.ofNat 32 s.length).toNat = s.length := by
    rw [BitVec.toNat_ofNat, Nat.mod_eq_of_lt (by omega)]
  have hbytes : (BitVec.ofNat 32 s.length + 1).toNat = s.length + 1 := by
    rw [BitVec.toNat_add, hlen]
    exact Nat.mod_eq_of_lt hsize
  have hcopy := memcpy_isString hs hbytes (hbytes.symm ▸ hapart)
  have hother := ht.congr fun k hk => memcpy_outside m dest src (hbytes.symm ▸ hkept k hk)
  exact ⟨_, strlen_isString hs hfuel, hlen, hcopy, strcmp_isString hcopy hother hfuel⟩

/-- "ab" at 0 is copied to 16 and compared with the "aab" at 8. -/
theorem copied_string_orders_ab :
    let m : Bytes := fun a =>
      if a.toNat ∈ [0, 8, 9] then 97 else if a.toNat ∈ [1, 10] then 98 else 0
    ∃ len, strlen 3 m 0 = some len ∧ len.toNat = 2 ∧
      IsString (memcpy m 16 0 (len + 1)).2 16 [97, 98] ∧
      ∃ result, strcmp (memcpy m 16 0 (len + 1)).2 16 8 3 = some result ∧
        Orders result [97, 98] [97, 97, 98] := by
  intro m
  exact @copied_string_orders m [97, 98] [97, 97, 98] 16 0 8 3 (by decide) (by decide) (by decide)
    (by decide) (by decide) (by decide)

end Comparisons

/-! ## The heap -/

/-- `HEAP_SIZE`. -/
def heapSize : Word := 8192

/-- `ENOMEM`. -/
def enomem : Int := 12

/-- `heap_ptr` and `errno`. -/
structure Heap where
  heapPtr : Word
  errno : Int := 0
deriving DecidableEq, Repr

/-- `_sbrk` with `heap` at an address. The sum of the comparison is the one the core
computes, modulo 2^32. -/
def sbrk (heap : Word) (s : Heap) (incr : Word) : Word × Heap :=
  if incr.slt 0 then (-1, { s with errno := enomem })
  else if heap + heapSize < s.heapPtr + incr then (-1, { s with errno := enomem })
  else (s.heapPtr, { s with heapPtr := s.heapPtr + incr })

/-- A block that was given, and the bytes that were asked for. -/
structure Block where
  start : Word
  size : Word
deriving DecidableEq, Repr

/-- The blocks of a run of calls: -1 is none. -/
def granted (heap : Word) (s : Heap) : List Word → List Block
  | [] => []
  | incr :: incrs =>
    let (prev, s') := sbrk heap s incr
    let rest := granted heap s' incrs
    if prev = -1 then rest else ⟨prev, incr⟩ :: rest

/-- The blocks lie in the heap from `low` on, one behind the other. -/
structure InOrder (heap : Word) (low : Nat) (blocks : List Block) : Prop where
  above : ∀ b ∈ blocks, low ≤ b.start.toNat
  inside : ∀ b ∈ blocks, b.start.toNat + b.size.toNat ≤ heap.toNat + heapSize.toNat
  apart : blocks.Pairwise fun b b' => b.start.toNat + b.size.toNat ≤ b'.start.toNat

section Heaps
variable {heap : Word} {s : Heap}

theorem InOrder.mono {low low' : Nat} {blocks : List Block} (h : InOrder heap low blocks)
    (hle : low' ≤ low) : InOrder heap low' blocks where
  above b hb := hle.trans (h.above b hb)
  inside := h.inside
  apart := h.apart

theorem InOrder.cons {low : Nat} {b : Block} {blocks : List Block}
    (h : InOrder heap (b.start.toNat + b.size.toNat) blocks) (hlow : low ≤ b.start.toNat)
    (hroom : b.start.toNat + b.size.toNat ≤ heap.toNat + heapSize.toNat) :
    InOrder heap low (b :: blocks) where
  above := by
    rw [List.forall_mem_cons]
    exact ⟨hlow, fun b' hb' => by have := h.above b' hb'; omega⟩
  inside := List.forall_mem_cons.mpr ⟨hroom, h.inside⟩
  apart := List.pairwise_cons.mpr ⟨h.above, h.apart⟩

/-- `heap_ptr` is in the heap or at its end. -/
def Heap.Within (heap : Word) (s : Heap) : Prop :=
  heap.toNat ≤ s.heapPtr.toNat ∧ s.heapPtr.toNat ≤ heap.toNat + heapSize.toNat

theorem slt_zero_iff (incr : Word) : incr.slt 0 = true ↔ 2 ^ 31 ≤ incr.toNat := by
  have hint := BitVec.toInt_eq_toNat_cond incr
  have hzero : (0 : Word).toInt = 0 := rfl
  have hlt := incr.isLt
  simp only [BitVec.slt, decide_eq_true_eq, hzero]
  omega

/-- Where no sum wraps, a call gives a block exactly if the bytes it asks for are left;
a negative number is never so small. -/
theorem sbrk_eq (hfit : heap.toNat + heapSize.toNat ≤ 2 ^ 31) (hs : s.Within heap)
    (incr : Word) :
    sbrk heap s incr =
      if s.heapPtr.toNat + incr.toNat ≤ heap.toNat + heapSize.toNat
      then (s.heapPtr, { s with heapPtr := s.heapPtr + incr })
      else (-1, { s with errno := enomem }) := by
  have hsize : heapSize.toNat = 8192 := rfl
  obtain ⟨hlow, hhigh⟩ := hs
  unfold sbrk
  by_cases hneg : incr.slt 0 = true
  · have hbig := (slt_zero_iff incr).mp hneg
    rw [if_pos hneg, if_neg (by omega)]
  · have hsmall := Nat.lt_of_not_le fun h => hneg ((slt_zero_iff incr).mpr h)
    have hend : (heap + heapSize).toNat = heap.toNat + heapSize.toNat :=
      BitVec.toNat_add_of_lt (by omega)
    have hsum : (s.heapPtr + incr).toNat = s.heapPtr.toNat + incr.toNat :=
      BitVec.toNat_add_of_lt (by omega)
    have hfull : heap + heapSize < s.heapPtr + incr ↔
        heap.toNat + heapSize.toNat < s.heapPtr.toNat + incr.toNat := by
      rw [BitVec.lt_def, hend, hsum]
    rw [if_neg hneg]
    by_cases hroom : s.heapPtr.toNat + incr.toNat ≤ heap.toNat + heapSize.toNat
    · rw [if_pos hroom, if_neg (fun h => Nat.not_lt_of_le hroom (hfull.mp h))]
    · rw [if_neg hroom, if_pos (hfull.mpr (Nat.lt_of_not_le hroom))]

theorem granted_inOrder (hfit : heap.toNat + heapSize.toNat ≤ 2 ^ 31) (hs : s.Within heap)
    (incrs : List Word) : InOrder heap s.heapPtr.toNat (granted heap s incrs) := by
  induction incrs generalizing s with
  | nil => exact ⟨by simp [granted], by simp [granted], by simp [granted]⟩
  | cons incr incrs ih =>
    unfold granted
    rw [sbrk_eq hfit hs]
    by_cases hroom : s.heapPtr.toNat + incr.toNat ≤ heap.toNat + heapSize.toNat
    · have hsum : (s.heapPtr + incr).toNat = s.heapPtr.toNat + incr.toNat :=
        BitVec.toNat_add_of_lt (by omega)
      -- The next block begins where this one ends, at the earliest.
      have hrest := ih (s := { s with heapPtr := s.heapPtr + incr })
        ⟨by dsimp only; rw [hsum]; exact hs.1.trans (Nat.le_add_right _ _),
          by dsimp only; rwa [hsum]⟩
      dsimp only at hrest
      rw [hsum] at hrest
      rw [if_pos hroom]
      dsimp only
      split
      · exact hrest.mono (Nat.le_add_right _ _)
      · exact hrest.cons (Nat.le_refl _) hroom
    · rw [if_neg hroom]
      exact ih (s := { s with errno := enomem }) hs

/-- Behind the whole heap, the sum for 2^31 - 1 bytes more is before its end again. -/
theorem granted_wrapped (hend : heap.toNat + heapSize.toNat < 2 ^ 32 - 1)
    (hwrap : ¬heap.toNat + heapSize.toNat ≤ 2 ^ 31) {most : Word}
    (hmost : most.toNat = 2 ^ 31 - 1) :
    ⟨heap + heapSize, most⟩ ∈ granted heap { heapPtr := heap } [heapSize, most] := by
  have hsize : heapSize.toNat = 8192 := rfl
  have htop : (heap + heapSize).toNat = heap.toNat + heapSize.toNat :=
    BitVec.toNat_add_of_lt (by omega)
  have hall : sbrk heap { heapPtr := heap } heapSize =
      (heap, { heapPtr := heap + heapSize }) := by
    have hpos : ¬heapSize.slt 0 = true := by
      rw [slt_zero_iff]
      omega
    rw [sbrk, if_neg hpos, if_neg (BitVec.lt_irrefl _)]
  have hmore : sbrk heap { heapPtr := heap + heapSize } most =
      (heap + heapSize, { heapPtr := heap + heapSize + most }) := by
    have hpos : ¬most.slt 0 = true := by
      rw [slt_zero_iff]
      omega
    have hbefore : ¬heap + heapSize < heap + heapSize + most := by
      rw [BitVec.lt_def, BitVec.toNat_add _ most, htop, hmost]
      omega
    rw [sbrk, if_neg hpos, if_neg hbefore]
  have hgiven : heap + heapSize ≠ -1 := by
    intro h
    have hnum := congrArg BitVec.toNat h
    rw [htop, BitVec.toNat_neg] at hnum
    have hone : (1 : Word).toNat = 1 := rfl
    omega
  unfold granted
  rw [hall]
  dsimp only
  unfold granted
  rw [hmore]
  dsimp only
  rw [if_neg hgiven]
  split
  · exact List.mem_cons_self
  · exact List.mem_cons_of_mem _ List.mem_cons_self

/-- The blocks of every run lie in the heap, one behind the other, exactly if no `int`
takes its end around the end of the address space. -/
theorem sbrk_blocks_iff (hend : heap.toNat + heapSize.toNat < 2 ^ 32 - 1) :
    (∀ incrs, InOrder heap heap.toNat (granted heap { heapPtr := heap } incrs)) ↔
      heap.toNat + heapSize.toNat ≤ 2 ^ 31 := by
  have hsize : heapSize.toNat = 8192 := rfl
  constructor
  · intro h
    by_contra hwrap
    -- The whole heap is asked for, and then 2^31 - 1 bytes more.
    obtain ⟨most, hmost⟩ : ∃ most : Word, most.toNat = 2 ^ 31 - 1 :=
      ⟨BitVec.ofNat 32 (2 ^ 31 - 1), BitVec.toNat_ofNat _ _⟩
    have hinside := (h [heapSize, most]).inside _ (granted_wrapped hend hwrap hmost)
    have htop : (heap + heapSize).toNat = heap.toNat + heapSize.toNat :=
      BitVec.toNat_add_of_lt (by omega)
    dsimp only at hinside
    omega
  · intro hfit incrs
    exact granted_inOrder (s := { heapPtr := heap }) hfit
      ⟨Nat.le_refl _, Nat.le_add_right _ _⟩ incrs

/-- Two halves of a heap that the linker puts into the RAM region: a negative number and
a byte too many are refused. -/
theorem sbrk_blocks_ram :
    InOrder 0x80000 (0x80000 : Word).toNat
      (granted 0x80000 { heapPtr := 0x80000 } [4096, -1, 4096, 1]) ∧
    granted 0x80000 { heapPtr := 0x80000 } [4096, -1, 4096, 1] =
      [⟨0x80000, 4096⟩, ⟨0x81000, 4096⟩] :=
  ⟨(sbrk_blocks_iff (by decide)).mpr (by decide) _, by decide⟩

end Heaps
end RiscvEmulator.Software.BareMetal
