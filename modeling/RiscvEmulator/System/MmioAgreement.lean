import RiscvEmulator.System.MmioRouting

/-! # Where the two ways to a device agree

The UART shows a narrow load its whole register from the core and a cut one from
the Simulator, the number of the core is known to the core only, and in the
window of the CLINT the Simulator leads narrow accesses to RAM. The alias of the
CLINT is moved by a wrong offset and comes out beyond all registers. -/
namespace RiscvEmulator.System
open Memory Cores Interrupt Device Isa

namespace Simulator
variable {N n m : Nat} {s : Simulator N n} {t : Simulator N m} {i : Fin N} {addr addr' : Word}

/-! ## The UART on both ways -/

/-- The window has 16 addresses at which the core finds the device. -/
theorem uart_base (h : inUart addr = true) :
    (uartBase == addr &&& 0xFFFFFFF0) = decide (addr.toNat < 0x10000010) := by
  obtain ⟨k, rfl⟩ := inUart_cases h
  revert k
  decide

theorem uart_offset (h : inUart addr = true) (hlow : addr.toNat < 0x10000010) :
    addr &&& 0xF = addr - uartBase := by
  obtain ⟨k, rfl⟩ := inUart_cases h
  revert k
  decide

theorem uart_high (h : inUart addr = true) (hhigh : ¬addr.toNat < 0x10000010) :
    16 ≤ (addr - uartBase).toNat := by
  obtain ⟨k, rfl⟩ := inUart_cases h
  revert k
  decide

/-- What is cut off a narrow store is not written to the UART. -/
theorem narrow_store_low (v : Word) : (v.setWidth 8).setWidth 32 &&& 0xFF = v &&& 0xFF ∧
    (v.setWidth 16).setWidth 32 &&& 0xFF = v &&& 0xFF := by
  have hmask : (0xFF : Word).toNat = 2 ^ 8 - 1 := rfl
  constructor
  · refine BitVec.eq_of_toNat_eq ?_
    simp only [BitVec.toNat_and, BitVec.toNat_setWidth, hmask, Nat.and_two_pow_sub_one_eq_mod]
    omega
  · refine BitVec.eq_of_toNat_eq ?_
    simp only [BitVec.toNat_and, BitVec.toNat_setWidth, hmask, Nat.and_two_pow_sub_one_eq_mod]
    omega

/-- Past the cache a load is cut out of what the device found shows. -/
theorem loadDirect_device {dev : Word × UART} (h : s.devices.find? (inDevice addr) = some dev)
    (op : LoadOp) : loadDirect op s addr = narrow op (dev.2.read (addr - dev.1)) := by
  cases op with
  | lb | lbu =>
    unfold loadDirect readByte
    rw [h]
    rfl
  | lh | lhu =>
    unfold loadDirect readHalfword
    rw [h]
    rfl
  | lw =>
    unfold loadDirect readWord
    rw [h]
    rfl

section
variable {u : UART} (hd : s.devices = [(uartBase, u)])
include hd

theorem find_uart (h : inUart addr = true) :
    s.devices.find? (inDevice addr) = some (uartBase, u) := by
  have hin : inDevice addr (uartBase, u) = true := h
  rw [hd, List.find?_cons, hin]

theorem find_none (h : inUart addr = false) : s.devices.find? (inDevice addr) = none := by
  have hin : inDevice addr (uartBase, u) = false := h
  rw [hd, List.find?_cons, hin]
  rfl

theorem any_uart : s.devices.any (inDevice addr) = inUart addr := by
  rw [hd]
  exact Bool.or_false _

/-- One device is there to be written, if it is the one looked for. -/
theorem writeDevice_uart (p : Word × UART → Bool) (write : Word × UART → UART) :
    s.writeDevice p write = { s with
      devices := [(uartBase, if p (uartBase, u) then write (uartBase, u) else u)] } := by
  unfold writeDevice
  rw [hd]
  cases hp : p (uartBase, u) with
  | true =>
    have hidx : [(uartBase, u)].findIdx p = 0 := by simp [List.findIdx_cons, hp]
    rw [hidx]
    rfl
  | false =>
    have hidx : [(uartBase, u)].findIdx p = 1 := by simp [List.findIdx_cons, hp]
    rw [hidx]
    rfl

theorem loadDirect_uart (h : inUart addr = true) (op : LoadOp) :
    loadDirect op s addr = narrow op (u.read (addr - uartBase)) :=
  loadDirect_device (find_uart hd h) op

/-- In the upper half no register is read, and the core finds no device either. -/
theorem routedLoad_uart (h : inUart addr = true) (op : LoadOp) (hid : addr ≠ coreIdAddr) :
    s.routedLoad i op addr = u.read (addr - uartBase) := by
  unfold routedLoad getDevice
  rw [if_neg hid, if_pos h, hd, List.find?_cons, uart_base h]
  by_cases hlow : addr.toNat < 0x10000010
  · rw [decide_eq_true hlow, uart_offset h hlow]
    rfl
  · rw [decide_eq_false hlow]
    exact (UART.read_other (by have := uart_high h hlow; omega) u).symm

theorem storeDirect_uart (h : inUart addr = true) (op : StoreOp) (v : Word) :
    storeDirect op s addr v =
      { s with devices := [(uartBase, u.write (addr - uartBase) v)] } := by
  have hin : inDevice addr (uartBase, u) = true := h
  obtain ⟨hbyte, hhalf⟩ := narrow_store_low v
  cases op with
  | sb =>
    unfold storeDirect writeByte
    simp only [any_uart hd, h, if_true, writeDevice_uart hd, hin, u.write_low hbyte]
  | sh =>
    unfold storeDirect writeHalfword
    simp only [any_uart hd, h, if_true, writeDevice_uart hd, hin, u.write_low hhalf]
  | sw =>
    unfold storeDirect writeWord
    simp only [any_uart hd, h, if_true, writeDevice_uart hd, hin]

theorem routedStore_uart (h : inUart addr = true) (op : StoreOp) (v : Word) :
    s.routedStore op addr v =
      { s with devices := [(uartBase, u.write (addr - uartBase) v)] } := by
  have hdata : (if op = .sw then v &&& 0xFF else v) &&& 0xFF = v &&& 0xFF := by
    split
    · rw [BitVec.and_assoc, BitVec.and_self]
    · rfl
  unfold routedStore
  simp only [h, if_true, writeDevice_uart hd, uart_base h, u.write_low hdata]
  by_cases hlow : addr.toNat < 0x10000010
  · rw [decide_eq_true hlow, uart_offset h hlow]
    rfl
  · have hhigh := uart_high h hlow
    have hkeep : u.write (addr - uartBase) v = u := UART.write_other (by omega) u v
    rw [decide_eq_false hlow, hkeep]
    rfl

end

/-! ## The CLINT on both ways -/

/-- A word of the CLINT, as both ways show it. -/
def clintWord (s : Simulator N n) (addr : Word) : Word :=
  (s.clint.read ((clintAddr addr).setWidth 64) 4).setWidth 32

def clintStore (s : Simulator N n) (addr v : Word) : CLINT N :=
  s.clint.write ((clintAddr addr).setWidth 64) (v.setWidth 64) 4

section
variable {u : UART} (hd : s.devices = [(uartBase, u)]) (h : inClint addr = true)
include hd h

theorem readWord_clint : s.readWord addr = s.clintWord addr := by
  unfold readWord
  rw [find_none hd (inClint_not_inUart h), if_pos h]
  rfl

theorem writeWord_clint (v : Word) :
    s.writeWord addr v = { s with clint := s.clintStore addr v } := by
  unfold writeWord
  simp only [any_uart hd, inClint_not_inUart h, h, if_true, Bool.false_eq_true, if_false]
  rfl

/-- The Simulator leads only words to the CLINT. -/
theorem loadDirect_clint (op : LoadOp) :
    loadDirect op s addr = if op = .lw then s.clintWord addr else ramLoad op s.memory addr := by
  have hfind := find_none hd (inClint_not_inUart h)
  cases op with
  | lb | lbu =>
    unfold loadDirect readByte
    rw [hfind]
    rfl
  | lh | lhu =>
    unfold loadDirect readHalfword
    rw [hfind]
    rfl
  | lw => exact readWord_clint hd h

theorem storeDirect_clint (op : StoreOp) (v : Word) :
    storeDirect op s addr v = if op = .sw then { s with clint := s.clintStore addr v }
      else { s with memory := ramStore op s.memory addr v } := by
  have hany : s.devices.any (inDevice addr) = false := by
    rw [any_uart hd]
    exact inClint_not_inUart h
  cases op with
  | sb =>
    unfold storeDirect writeByte
    simp only [hany, Bool.false_eq_true, if_false]
    rfl
  | sh =>
    unfold storeDirect writeHalfword
    simp only [hany, Bool.false_eq_true, if_false]
    rfl
  | sw => exact writeWord_clint hd h v

/-- The core loads 0 unless it loads a word. -/
theorem routedLoad_clint (op : LoadOp) :
    s.routedLoad i op addr = if op = .lw then s.clintWord addr else 0 := by
  have hid : addr ≠ coreIdAddr := by
    rintro rfl
    exact absurd h (by decide)
  have hu : ¬inUart addr = true := by rw [inClint_not_inUart h]; exact Bool.false_ne_true
  unfold routedLoad
  rw [if_neg hid, if_neg hu, readWord_clint hd h]

/-- The core stores words, whatever the width. -/
theorem routedStore_clint (op : StoreOp) (v : Word) :
    s.routedStore op addr v = { s with clint := s.clintStore addr v } := by
  have hu : ¬inUart addr = true := by rw [inClint_not_inUart h]; exact Bool.false_ne_true
  unfold routedStore
  rw [if_neg hu, writeWord_clint hd h]

end

/-! ## When the ways agree -/

/-- The MMU, if it is asked, leaves the address as it is. -/
def Unmoved (s : Simulator N n) (i : Fin N) (isWrite : Bool) (addr : Word) : Prop :=
  addr.toNat < n → (s.translate i addr isWrite false).1 = .ok addr

theorem Untranslated.unmoved (h : s.Untranslated i) (isWrite : Bool) (addr : Word) :
    s.Unmoved i isWrite addr := by
  intro _
  rw [h.translate_eq]

theorem Unmoved.loadOutcome (h : s.Unmoved i false addr) (op : LoadOp) :
    s.loadOutcome i op addr =
      .ok (if addr.toNat < n then loadDirect op s addr else s.routedLoad i op addr) := by
  unfold Simulator.loadOutcome
  split
  · next hlt =>
    rw [h hlt]
    rfl
  · rfl

theorem Unmoved.storeOutcome (h : s.Unmoved i true addr) (op : StoreOp) (v : Word) :
    s.storeOutcome i op addr v =
      .ok (if addr.toNat < n then storeDirect op s addr v else s.routedStore op addr v) := by
  unfold Simulator.storeOutcome
  split
  · next hlt =>
    rw [h hlt]
    rfl
  · rfl

/-- What a load of the CLINT gives: RAM below it shows through, unless a word is
loaded. -/
theorem Unmoved.loadOutcome_clint {u : UART} (h : s.Unmoved i false addr)
    (hd : s.devices = [(uartBase, u)]) (hc : inClint addr = true) (op : LoadOp) :
    s.loadOutcome i op addr =
      .ok (if op = .lw then s.clintWord addr else ramLoad op s.memory addr) := by
  rw [h.loadOutcome, loadDirect_clint hd hc, routedLoad_clint hd hc]
  split
  · rfl
  · next hge =>
    rw [ramLoad_beyond op s.memory (Nat.le_of_not_lt hge)]

/-- What a store does there: RAM below it is written, unless a word is stored. -/
def storeClint (s : Simulator N n) (op : StoreOp) (addr v : Word) : Simulator N n :=
  if op = .sw ∨ n ≤ addr.toNat then { s with clint := s.clintStore addr v }
  else { s with memory := ramStore op s.memory addr v }

theorem Unmoved.storeOutcome_clint {u : UART} (h : s.Unmoved i true addr)
    (hd : s.devices = [(uartBase, u)]) (hc : inClint addr = true) (op : StoreOp) (v : Word) :
    s.storeOutcome i op addr v = .ok (s.storeClint op addr v) := by
  unfold storeClint
  rw [h.storeOutcome, storeDirect_clint hd hc, routedStore_clint hd hc]
  by_cases hlt : addr.toNat < n
  · have hge : ¬n ≤ addr.toNat := by omega
    simp only [hlt, hge, if_true, or_false]
  · have hge : n ≤ addr.toNat := by omega
    simp only [hlt, hge, if_false, or_true, if_true]

theorem iff_cases {p q r : Prop} (h : p → (q ↔ r)) : q ↔ (p → r) ∧ (¬p → q) := by
  by_cases hp : p
  · simp [hp, h hp]
  · simp [hp]

/-- The conditions under which a load comes to the same in both machines. -/
def LoadRouted (s : Simulator N n) (t : Simulator N m) (i : Fin N) (u : UART) (op : LoadOp)
    (rd : Cores.Reg) (addr : Word) : Prop :=
  rd = 0 ∨
    if inClint addr then op = .lw ∨ ramLoad op s.memory addr = ramLoad op t.memory addr
    else (addr.toNat < n ↔ addr.toNat < m) ∨
      if addr = coreIdAddr then op = .lw → BitVec.ofNat 32 i.val = 0
      else narrow op (u.read (addr - uartBase)) = u.read (addr - uartBase)

/-- The store changes nothing: neither a register of the CLINT nor, if it goes there,
RAM. -/
def Idle (s : Simulator N n) (op : StoreOp) (addr v : Word) : Prop :=
  if op = .sw ∨ n ≤ addr.toNat then
    s.clint.Keeps ((clintAddr addr).setWidth 64) (v.setWidth 64) 4
  else ramStore op s.memory addr v = s.memory

def StoreRouted (s : Simulator N n) (t : Simulator N m) (op : StoreOp) (addr v : Word) : Prop :=
  inUart addr = true ∨ op = .sw ∨ (n ≤ addr.toNat ∧ m ≤ addr.toNat) ∨
    (s.Idle op addr v ∧ t.Idle op addr v)

def LoadAliased (s : Simulator N n) (op : LoadOp) (rd : Cores.Reg) (addr addr' : Word) : Prop :=
  rd = 0 ∨ if op = .lw then s.clintWord addr = s.clintWord addr'
    else ramLoad op s.memory addr = ramLoad op s.memory addr'

def StoreAliased (s : Simulator N n) (op : StoreOp) (addr addr' v : Word) : Prop :=
  s.Idle op addr v ∧ s.Idle op addr' v

theorem narrow_zero (op : LoadOp) : narrow op 0 = 0 := by
  cases op <;> decide

/-- The UART shows a load the same on both ways. -/
theorem uart_ways_iff {u : UART} (hd : s.devices = [(uartBase, u)]) (hu : inUart addr = true)
    (op : LoadOp) :
    narrow op (u.read (addr - uartBase)) = s.routedLoad i op addr ↔
      if addr = coreIdAddr then op = .lw → BitVec.ofNat 32 i.val = 0
      else narrow op (u.read (addr - uartBase)) = u.read (addr - uartBase) := by
  split
  · next hid =>
    subst hid
    have hzero : u.read (coreIdAddr - uartBase) = 0 := UART.read_other (by decide) u
    unfold routedLoad
    rw [hzero, narrow_zero, if_pos rfl]
    by_cases hop : op = .lw
    · rw [if_pos hop]
      exact ⟨fun h _ => h.symm, fun h => (h hop).symm⟩
    · simp [hop]
  · next hid =>
    rw [routedLoad_uart hd hu op hid]

theorem idle_iff (s : Simulator N n) (op : StoreOp) (addr v : Word) : s.Idle op addr v ↔
    (s.storeClint op addr v).clint = s.clint ∧ (s.storeClint op addr v).memory = s.memory := by
  unfold Idle storeClint
  split
  · exact (s.clint.write_eq_self_iff _ _ 4).symm.trans (and_iff_left rfl).symm
  · exact (and_iff_right rfl).symm

/-- If one of two stores goes to RAM, they come to the same only if both are idle. -/
theorem storeClint_agree_iff {op op' : StoreOp} {v : Word} (hclint : t.clint = s.clint)
    (hdev : t.devices = s.devices)
    (hram : ¬(op = .sw ∨ n ≤ addr.toNat) ∨ ¬(op' = .sw ∨ m ≤ addr'.toNat)) :
    StoresAgree s t (.ok (s.storeClint op addr v)) (.ok (t.storeClint op' addr' v)) ↔
      s.Idle op addr v ∧ t.Idle op' addr' v := by
  have hds : (s.storeClint op addr v).devices = s.devices := by
    unfold storeClint
    split <;> rfl
  have hdt : (t.storeClint op' addr' v).devices = t.devices := by
    unfold storeClint
    split <;> rfl
  rw [idle_iff, idle_iff]
  unfold StoresAgree
  simp only [hds, hdt, hdev, true_and]
  rcases hram with hram | hram
  · have hc : (s.storeClint op addr v).clint = s.clint := by
      unfold storeClint
      rw [if_neg hram]
    rw [hc, hclint]
    tauto
  · have hc : (t.storeClint op' addr' v).clint = t.clint := by
      unfold storeClint
      rw [if_neg hram]
    rw [hc, hclint, eq_comm (a := s.clint)]
    tauto

section
variable {u : UART} (h : SameMachine s t) (hd : s.devices = [(uartBase, u)])
include h hd

theorem loads_agree_iff (hs : s.Unmoved i false addr) (ht : t.Unmoved i false addr)
    (hw : inWindow addr = true) (op : LoadOp) (rd : Cores.Reg) :
    LoadsAgree rd (s.loadOutcome i op addr) (t.loadOutcome i op addr) ↔
      LoadRouted s t i u op rd addr := by
  have hd' : t.devices = [(uartBase, u)] := h.devices.trans hd
  unfold LoadRouted
  cases hc : inClint addr with
  | true =>
    have hword : t.clintWord addr = s.clintWord addr := by
      unfold clintWord
      rw [h.clint]
    rw [hs.loadOutcome_clint hd hc, ht.loadOutcome_clint hd' hc, hword]
    unfold LoadsAgree
    by_cases hop : op = .lw
    · simp [hop]
    · simp [hop]
  | false =>
    have hu : inUart addr = true := (Bool.or_eq_true_iff.mp hw).resolve_right
      (by rw [hc]; exact Bool.false_ne_true)
    have hrouted : t.routedLoad i op addr = s.routedLoad i op addr := by
      by_cases hid : addr = coreIdAddr
      · unfold routedLoad
        rw [if_pos hid, if_pos hid]
      · rw [routedLoad_uart hd hu op hid, routedLoad_uart hd' hu op hid]
    have hways := uart_ways_iff (i := i) hd hu op
    rw [hs.loadOutcome, ht.loadOutcome, loadDirect_uart hd hu, loadDirect_uart hd' hu, hrouted,
      if_neg Bool.false_ne_true]
    unfold LoadsAgree
    by_cases hn : addr.toNat < n
    · by_cases hm : addr.toNat < m
      · simp [hn, hm]
      · simp only [hn, hm, if_true, if_false, iff_false, not_true_eq_false, false_or, hways]
    · by_cases hm : addr.toNat < m
      · simp only [hn, hm, if_true, if_false, false_iff, not_true_eq_false, false_or,
          eq_comm (a := s.routedLoad i op addr), hways]
      · simp [hn, hm]

theorem stores_agree_iff (hs : s.Unmoved i true addr) (ht : t.Unmoved i true addr)
    (hw : inWindow addr = true) (op : StoreOp) (v : Word) :
    StoresAgree s t (s.storeOutcome i op addr v) (t.storeOutcome i op addr v) ↔
      StoreRouted s t op addr v := by
  have hd' : t.devices = [(uartBase, u)] := h.devices.trans hd
  unfold StoreRouted
  cases hu : inUart addr with
  | true =>
    rw [hs.storeOutcome, ht.storeOutcome, storeDirect_uart hd hu, storeDirect_uart hd' hu,
      routedStore_uart hd hu, routedStore_uart hd' hu, ite_self, ite_self]
    exact iff_of_true ⟨rfl, h.clint, rfl, rfl⟩ (.inl rfl)
  | false =>
    have hc : inClint addr = true := (Bool.or_eq_true_iff.mp hw).resolve_left
      (by rw [hu]; exact Bool.false_ne_true)
    rw [hs.storeOutcome_clint hd hc, ht.storeOutcome_clint hd' hc]
    by_cases hram : (op = .sw ∨ n ≤ addr.toNat) ∧ (op = .sw ∨ m ≤ addr.toNat)
    · have hclint : t.clintStore addr v = s.clintStore addr v := by
        unfold clintStore
        rw [h.clint]
      have hagree :
          StoresAgree s t (.ok (s.storeClint op addr v)) (.ok (t.storeClint op addr v)) := by
        unfold storeClint
        rw [if_pos hram.1, if_pos hram.2]
        exact ⟨h.devices, hclint, rfl, rfl⟩
      refine iff_of_true hagree (.inr ?_)
      tauto
    · rw [storeClint_agree_iff h.clint h.devices (not_and_or.mp hram)]
      constructor
      · exact fun hidle => .inr (.inr (.inr hidle))
      · rintro (hu' | hop | hsmall | hidle)
        · exact absurd hu' Bool.false_ne_true
        · exact absurd ⟨.inl hop, .inl hop⟩ hram
        · exact absurd ⟨.inr hsmall.1, .inr hsmall.2⟩ hram
        · exact hidle

end

/-! ## The registers of the UART -/

/-- The device and the offset in it that the core arrives at. -/
def coreRoute (s : Simulator N n) (addr : Word) : Option (Word × Word) :=
  (s.devices.find? (·.1 == addr &&& 0xFFFFFFF0)).map fun dev => (dev.1, addr &&& 0xF)

/-- The device and the offset in it that the Simulator arrives at. -/
def busRoute (s : Simulator N n) (addr : Word) : Option (Word × Word) :=
  (s.devices.find? (inDevice addr)).map fun dev => (dev.1, addr - dev.1)

/-- What a device returns for a route. -/
def routeRead (s : Simulator N n) (route : Word × Word) : Option Word :=
  (s.getDevice route.1).map (·.read route.2)

/-- The device that the Simulator finds is the first at its base. -/
theorem getDevice_inDevice {dev : Word × UART} (h : s.devices.find? (inDevice addr) = some dev) :
    s.getDevice dev.1 = some dev.2 := by
  obtain ⟨hin, before, after, hdevices, hbefore⟩ := List.find?_eq_some_iff_append.mp h
  have hfind : s.devices.find? (·.1 == dev.1) = some dev := by
    refine List.find?_eq_some_iff_append.mpr
      ⟨beq_self_eq_true _, before, after, hdevices, fun other hother => ?_⟩
    by_contra hbase
    have hbase : other.1 = dev.1 := by simpa using hbase
    have hsame : inDevice addr other = inDevice addr dev := by
      unfold inDevice
      rw [hbase]
    have hout := hbefore other hother
    rw [hsame, hin] at hout
    cases hout
  unfold getDevice
  rw [hfind]
  rfl

/-- The router of the core loads what its route leads to, and 0 if it leads nowhere. -/
theorem routedLoad_route (hu : inUart addr = true) (op : LoadOp) (hid : addr ≠ coreIdAddr) :
    s.routedLoad i op addr = ((s.coreRoute addr).bind s.routeRead).getD 0 := by
  unfold routedLoad coreRoute
  rw [if_neg hid, if_pos hu]
  cases hfind : s.devices.find? (·.1 == addr &&& 0xFFFFFFF0) with
  | none =>
    unfold getDevice
    rw [hfind]
    rfl
  | some dev =>
    have hbase : dev.1 = addr &&& 0xFFFFFFF0 := by simpa using List.find?_some hfind
    simp only [Option.map_some, Option.bind_some, routeRead, hbase]

/-- Past the cache a load is cut out of what the route of the Simulator leads to. -/
theorem loadDirect_route {route : Word × Word} (h : s.busRoute addr = some route) (op : LoadOp) :
    loadDirect op s addr = narrow op (((s.busRoute addr).bind s.routeRead).getD 0) := by
  unfold busRoute at h ⊢
  obtain ⟨dev, hfind, rfl⟩ := Option.map_eq_some_iff.mp h
  simp only [hfind, Option.map_some, Option.bind_some, routeRead, getDevice_inDevice hfind,
    Option.getD_some]
  exact loadDirect_device hfind op

theorem routes_agree_iff {u : UART} (hd : s.devices = [(uartBase, u)]) (hu : inUart addr = true) :
    s.coreRoute addr = s.busRoute addr ↔ addr.toNat < 0x10000010 := by
  have hbus : s.busRoute addr = some (uartBase, addr - uartBase) := by
    unfold busRoute
    rw [find_uart hd hu]
    rfl
  unfold coreRoute
  rw [hbus, hd, List.find?_cons, uart_base hu]
  by_cases hlow : addr.toNat < 0x10000010
  · rw [decide_eq_true hlow, uart_offset hu hlow]
    exact iff_of_true rfl hlow
  · rw [decide_eq_false hlow]
    exact iff_of_false nofun hlow

/-! ## The alias -/

/-- `addr` is in the window of the CLINT and `addr'` its alias. -/
structure Alias (addr addr' : Word) : Prop where
  low : 0x02000000 ≤ addr.toNat
  high : addr.toNat < 0x02010000
  alias_eq : addr'.toNat = addr.toNat + 0x1E000000

theorem clintAddr_low (h : addr.toNat < 0x20000000) : clintAddr addr = addr := by
  have h3 : (0x20000000 : Word).toNat = 0x20000000 := rfl
  unfold clintAddr
  rw [if_neg]
  simp only [Bool.and_eq_true, decide_eq_true_eq, BitVec.le_def, h3]
  omega

namespace Alias
variable (h : Alias addr addr')
include h

theorem inClint : inClint addr = true ∧ Simulator.inClint addr' = true := by
  obtain ⟨hlow, hhigh, heq⟩ := h
  exact ⟨inClint_iff.mpr (.inl ⟨hlow, hhigh⟩), inClint_iff.mpr (.inr (by omega))⟩

theorem inWindow : inWindow addr = true ∧ Simulator.inWindow addr' = true := by
  obtain ⟨hin, hin'⟩ := h.inClint
  exact ⟨Bool.or_eq_true_iff.mpr (.inr hin), Bool.or_eq_true_iff.mpr (.inr hin')⟩

/-- The offset goes to 0x3E000000, not to 0x02000000. -/
theorem clintAddr_toNat : (clintAddr addr').toNat = addr.toNat + 0x3C000000 := by
  obtain ⟨hlow, hhigh, heq⟩ := h
  have h3 : (0x20000000 : Word).toNat = 0x20000000 := rfl
  have h4 : (0x20010000 : Word).toNat = 0x20010000 := rfl
  have h5 : (0x1E000000 : Word).toNat = 0x1E000000 := rfl
  unfold clintAddr
  rw [if_pos, BitVec.toNat_add, h5]
  · omega
  · simp only [Bool.and_eq_true, decide_eq_true_eq, BitVec.le_def, BitVec.lt_def, h3, h4]
    omega

theorem offsets : ((clintAddr addr).setWidth 64 - CLINT.clintBase).toNat + 0x3C000000 =
    ((clintAddr addr').setWidth 64 - CLINT.clintBase).toNat := by
  have halias := h.clintAddr_toNat
  obtain ⟨hlow, hhigh, heq⟩ := h
  rw [clintAddr_low (by omega), CLINT.offset_toNat hlow, CLINT.offset_toNat (by omega), halias]
  omega

/-- The two never decode to one register. -/
theorem registers {r : CLINT.Register N}
    (hr : CLINT.register N ((clintAddr addr).setWidth 64) 4 = some r) :
    CLINT.register N ((clintAddr addr').setWidth 64) 4 ≠ some r := by
  intro hr'
  have hnear := CLINT.register_near hr' hr
  have hoff := h.offsets
  omega

/-- With room for the registers of all cores below the alias it decodes to none. -/
theorem register_none (hN : N * 8 + 0x4000 ≤ 0x3C000000) :
    CLINT.register N ((clintAddr addr').setWidth 64) 4 = none := by
  cases hr : CLINT.register N ((clintAddr addr').setWidth 64) 4 with
  | none => rfl
  | some r =>
    have hoff := h.offsets
    have hat := CLINT.register_at hr
    rw [← hoff] at hat
    cases r with
    | msip k =>
      have hk : k.val = _ := hat
      omega
    | mtimecmp k =>
      have hk := hat.2
      have hbase : CLINT.mtimecmpBase = 0x4000 := rfl
      omega
    | mtime => exact absurd hat.2 (by decide)

theorem loads_agree_iff {u : UART} (hd : s.devices = [(uartBase, u)])
    (hs : s.Unmoved i false addr) (hs' : s.Unmoved i false addr') (op : LoadOp)
    (rd : Cores.Reg) :
    LoadsAgree rd (s.loadOutcome i op addr) (s.loadOutcome i op addr') ↔
      s.LoadAliased op rd addr addr' := by
  rw [hs.loadOutcome_clint hd h.inClint.1, hs'.loadOutcome_clint hd h.inClint.2]
  unfold LoadsAgree LoadAliased
  by_cases hop : op = .lw
  · simp only [hop, if_true]
  · simp only [hop, if_false]

theorem stores_agree_iff {u : UART} (hd : s.devices = [(uartBase, u)])
    (hs : s.Unmoved i true addr) (hs' : s.Unmoved i true addr') (op : StoreOp) (v : Word) :
    StoresAgree s s (s.storeOutcome i op addr v) (s.storeOutcome i op addr' v) ↔
      s.StoreAliased op addr addr' v := by
  rw [hs.storeOutcome_clint hd h.inClint.1, hs'.storeOutcome_clint hd h.inClint.2]
  by_cases hram : (op = .sw ∨ n ≤ addr.toNat) ∧ (op = .sw ∨ n ≤ addr'.toNat)
  · unfold StoreAliased Idle storeClint
    rw [if_pos hram.1, if_pos hram.2, if_pos hram.1, if_pos hram.2, ←
      CLINT.write_eq_write_iff fun r => h.registers]
    constructor
    · exact fun hagree => hagree.2.1.symm
    · exact fun hclint => ⟨rfl, hclint.symm, rfl, rfl⟩
  · exact storeClint_agree_iff rfl rfl (not_and_or.mp hram)

end Alias

/-! ## All accesses -/

/-- What an access to a device comes to depends neither on the size of RAM nor on the
alias, exactly where the conditions hold. Where an MMU moves an address, what it is
moved to decides. -/
theorem mmio_routing_iff {u : UART} (h : SameMachine s t) (hd : s.devices = [(uartBase, u)]) :
    (∀ (instr : Load) addr, instr.address (s.cores i).regs = addr → inWindow addr = true →
      (SameEffect s t i instr.encode instr.encode ↔
        (s.Unmoved i false addr ∧ t.Unmoved i false addr →
          LoadRouted s t i u instr.op instr.rd addr) ∧
        (¬(s.Unmoved i false addr ∧ t.Unmoved i false addr) →
          LoadsAgree instr.rd (s.loadOutcome i instr.op addr) (t.loadOutcome i instr.op addr)))) ∧
    (∀ (instr : Store) addr v, instr.address (s.cores i).regs = addr → inWindow addr = true →
      (s.cores i).regs instr.rs2 = v →
      (SameEffect s t i instr.encode instr.encode ↔
        (s.Unmoved i true addr ∧ t.Unmoved i true addr → StoreRouted s t instr.op addr v) ∧
        (¬(s.Unmoved i true addr ∧ t.Unmoved i true addr) →
          StoresAgree s t (s.storeOutcome i instr.op addr v)
            (t.storeOutcome i instr.op addr v)))) ∧
    (∀ addr, inUart addr = true → (s.coreRoute addr = s.busRoute addr ↔
      addr.toNat < 0x10000010)) ∧
    (∀ (instr instr' : Load) addr addr', instr.address (s.cores i).regs = addr →
      instr'.address (s.cores i).regs = addr' → Alias addr addr' → instr'.op = instr.op →
      instr'.rd = instr.rd →
      (SameEffect s s i instr.encode instr'.encode ↔
        (s.Unmoved i false addr ∧ s.Unmoved i false addr' →
          s.LoadAliased instr.op instr.rd addr addr') ∧
        (¬(s.Unmoved i false addr ∧ s.Unmoved i false addr') →
          LoadsAgree instr.rd (s.loadOutcome i instr.op addr)
            (s.loadOutcome i instr.op addr')))) ∧
    (∀ (instr instr' : Store) addr addr' v, instr.address (s.cores i).regs = addr →
      instr'.address (s.cores i).regs = addr' → Alias addr addr' → instr'.op = instr.op →
      (s.cores i).regs instr.rs2 = v → (s.cores i).regs instr'.rs2 = v →
      (SameEffect s s i instr.encode instr'.encode ↔
        (s.Unmoved i true addr ∧ s.Unmoved i true addr' →
          s.StoreAliased instr.op addr addr' v) ∧
        (¬(s.Unmoved i true addr ∧ s.Unmoved i true addr') →
          StoresAgree s s (s.storeOutcome i instr.op addr v)
            (s.storeOutcome i instr.op addr' v)))) := by
  refine ⟨?_, ?_, fun addr hu => routes_agree_iff hd hu, ?_, ?_⟩
  · intro instr addr haddr hw
    rw [load_same_iff h haddr hw haddr hw rfl]
    exact iff_cases fun hmoved => loads_agree_iff h hd hmoved.1 hmoved.2 hw instr.op instr.rd
  · intro instr addr v haddr hw hv
    rw [store_same_iff h haddr hw haddr hw, hv]
    exact iff_cases fun hmoved => stores_agree_iff h hd hmoved.1 hmoved.2 hw instr.op v
  · intro instr instr' addr addr' haddr haddr' halias hop hrd
    have hw := halias.inWindow
    rw [load_same_iff (.refl s) haddr hw.1 haddr' hw.2 hrd, hop]
    exact iff_cases fun hmoved => halias.loads_agree_iff hd hmoved.1 hmoved.2 instr.op instr.rd
  · intro instr instr' addr addr' v haddr haddr' halias hop hv hv'
    have hw := halias.inWindow
    rw [store_same_iff (.refl s) haddr hw.1 haddr' hw.2, hop, hv, hv']
    exact iff_cases fun hmoved => halias.stores_agree_iff hd hmoved.1 hmoved.2 instr.op v

/-- Core 0 with pointers to the UART, to its register of the CLINT and to the alias of
that. -/
def aboutDevices (n : Nat) : Simulator 1 n :=
  loaded 1 n [] fun _ r => if r = 2 then 0x10000000 else if r = 3 then 0x02004000
    else if r = 4 then 0x20004000 else if r = 5 then 0x41 else 0

theorem aboutDevices_same (n m : Nat) : SameMachine (aboutDevices n) (aboutDevices m) :=
  ⟨rfl, rfl, rfl, rfl, rfl, rfl, rfl, rfl⟩

/-- RAM of 2 MiB, and RAM that covers all devices. -/
abbrev smallDevices : Simulator 1 0x200000 := aboutDevices 0x200000
abbrev largeDevices : Simulator 1 0x20010000 := aboutDevices 0x20010000

theorem aboutDevices_unmoved (n : Nat) (w : Bool) (addr addr' : Word) :
    (aboutDevices n).Unmoved core0 w addr ∧ (aboutDevices n).Unmoved core0 w addr' := by
  have h : (aboutDevices n).Untranslated core0 := rfl
  exact ⟨h.unmoved w addr, h.unmoved w addr'⟩

theorem compare_register : CLINT.register 1 ((clintAddr 0x02004000).setWidth 64) 4 =
    some (.mtimecmp core0) := CLINT.register_mtimecmp core0 (by decide) (by decide) (by decide)

/-- The compare register of the core is not idle. -/
theorem aboutDevices_busy (n : Nat) (v : Word) : ¬(aboutDevices n).Idle .sw 0x02004000 v := by
  intro h
  unfold Idle at h
  rw [if_pos (.inl rfl)] at h
  have hall : (0xFFFFFFFFFFFFFFFF : BitVec 64) = v.setWidth 64 :=
    h (.mtimecmp core0) compare_register
  have hlt : (v.setWidth 64).toNat < 2 ^ 32 := by
    rw [BitVec.toNat_setWidth]
    have := v.isLt
    omega
  rw [← hall] at hlt
  exact absurd hlt (by decide)

theorem compareAlias : Alias 0x02004000 0x20004000 := ⟨by decide, by decide, by decide⟩

/-- The alias of the register shows nothing. -/
theorem aboutDevices_alias (n : Nat) :
    ¬(aboutDevices n).LoadAliased .lw 1 0x02004000 0x20004000 := by
  have hnone : CLINT.register 1 ((clintAddr 0x20004000).setWidth 64) 4 = none :=
    compareAlias.register_none (by decide)
  rintro (h0 | hw)
  · cases h0
  · rw [if_pos rfl] at hw
    unfold clintWord at hw
    rw [CLINT.read_eq, CLINT.read_eq, hnone, compare_register] at hw
    have hval : (0xFFFFFFFFFFFFFFFF : BitVec 64).setWidth 32 = (0 : BitVec 64).setWidth 32 := hw
    exact absurd hval (by decide)

/-- LW and SW of the compare register, and through its alias. -/
def lwCompare : Load := ⟨.lw, 1, 3, 0⟩
def lwAlias : Load := ⟨.lw, 1, 4, 0⟩
def swCompare : Store := ⟨.sw, 5, 3, 0⟩
def swAlias : Store := ⟨.sw, 5, 4, 0⟩

theorem mmio_routing_devices :
    SameEffect smallDevices largeDevices core0 (Load.mk .lbu 1 2 5).encode
        (Load.mk .lbu 1 2 5).encode ∧
      SameEffect smallDevices largeDevices core0 (Store.mk .sb 5 2 0).encode
        (Store.mk .sb 5 2 0).encode ∧
      ¬smallDevices.coreRoute 0x10000010 = smallDevices.busRoute 0x10000010 ∧
      ¬SameEffect smallDevices smallDevices core0 lwCompare.encode lwAlias.encode ∧
      ¬SameEffect smallDevices smallDevices core0 swCompare.encode swAlias.encode := by
  obtain ⟨hload, hstore, hroute, haliasLoad, haliasStore⟩ :=
    mmio_routing_iff (i := core0) (u := {}) (aboutDevices_same 0x200000 0x20010000) rfl
  have hmoved := aboutDevices_unmoved 0x200000
  have hmoved' := aboutDevices_unmoved 0x20010000
  refine ⟨?_, ?_, ?_, ?_, ?_⟩
  · refine (hload _ 0x10000005 (by decide) (by decide)).mpr ⟨fun _ => .inr ?_, fun h => ?_⟩
    · rw [if_neg (by decide), if_neg (by decide)]
      exact .inr (by decide)
    · exact absurd ⟨(hmoved _ _ 0).1, (hmoved' _ _ 0).1⟩ h
  · refine (hstore _ 0x10000000 0x41 (by decide) (by decide) (by decide)).mpr
      ⟨fun _ => .inl (by decide), fun h => ?_⟩
    exact absurd ⟨(hmoved _ _ 0).1, (hmoved' _ _ 0).1⟩ h
  · intro hsame
    exact absurd ((hroute 0x10000010 (by decide)).mp hsame) (by decide)
  · intro hsame
    have hagree := ((haliasLoad lwCompare lwAlias 0x02004000 0x20004000 (by decide) (by decide)
      compareAlias rfl rfl).mp hsame).1 (hmoved ..)
    exact aboutDevices_alias _ hagree
  · intro hsame
    have hidle := ((haliasStore swCompare swAlias 0x02004000 0x20004000 0x41 (by decide)
      (by decide) compareAlias rfl (by decide) (by decide)).mp hsame).1 (hmoved ..)
    exact aboutDevices_busy _ _ hidle.1

/-- LB of the legacy flag register at offset 4, whose top bit is set, the upper half of
the UART and the alias of the CLINT. -/
theorem mmio_routing_differs :
    ¬SameEffect smallDevices largeDevices core0 (Load.mk .lb 1 2 4).encode
        (Load.mk .lb 1 2 4).encode ∧
      smallDevices.coreRoute 0x10000010 ≠ smallDevices.busRoute 0x10000010 ∧
      ¬SameEffect smallDevices smallDevices core0 lwCompare.encode lwAlias.encode := by
  have hmoved := aboutDevices_unmoved 0x200000
  have hmoved' := aboutDevices_unmoved 0x20010000
  refine ⟨?_, ?_, ?_⟩
  · intro hsame
    have haddr : (Load.mk .lb 1 2 4).address (smallDevices.cores core0).regs = 0x10000004 := by
      decide
    have hagree := (load_same_iff (aboutDevices_same ..) haddr rfl haddr rfl rfl).mp hsame
    rcases (loads_agree_iff (u := {}) (aboutDevices_same ..) rfl (hmoved _ _ 0).1
      (hmoved' _ _ 0).1 rfl _ _).mp hagree with h0 | hcut
    · cases h0
    · rw [if_neg (by decide), if_neg (by decide)] at hcut
      exact absurd hcut (by decide)
  · intro hsame
    exact absurd ((routes_agree_iff (u := {}) rfl (by decide)).mp hsame) (by decide)
  · intro hsame
    have haddr : lwCompare.address (smallDevices.cores core0).regs = 0x02004000 := by decide
    have haddr' : lwAlias.address (smallDevices.cores core0).regs = 0x20004000 := by decide
    have hagree := (load_same_iff (.refl smallDevices) haddr rfl haddr' rfl rfl).mp hsame
    exact aboutDevices_alias _ ((compareAlias.loads_agree_iff (u := {}) rfl (hmoved _ _ 0).1
      (hmoved _ _ 0).1 _ _).mp hagree)

end Simulator
end RiscvEmulator.System
