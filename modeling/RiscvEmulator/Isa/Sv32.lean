import Mathlib.Data.BitVec

/-! # Sv32

The two-level page table of the privileged specification: 4 KiB pages and 4 MiB
megapages. Of the accesses it refuses, `walk` refuses those whose address does
not translate; permissions are left to the caller. -/
namespace RiscvEmulator.Isa.Sv32

/-! ## Entries and addresses -/

section
variable (pte va : BitVec 32)

def valid : Bool := pte.getLsbD 0
def readable : Bool := pte.getLsbD 1
def writable : Bool := pte.getLsbD 2
def executable : Bool := pte.getLsbD 3
def ppn : BitVec 22 := pte.extractLsb' 10 22

def isLeaf : Bool := readable pte || executable pte

/-- Not valid, or of the reserved kind that is writable but not readable. -/
def refused : Bool := !valid pte || (writable pte && !readable pte)

/-- The part of the page number that has to be clear in a megapage. -/
def ppn0 : BitVec 10 := pte.extractLsb' 10 10
def ppn1 : BitVec 12 := pte.extractLsb' 20 12

def vpn1 : BitVec 10 := va.extractLsb' 22 10
def vpn0 : BitVec 10 := va.extractLsb' 12 10
def offset : BitVec 12 := va.extractLsb' 0 12

end

/-- Where an entry of a table stands. -/
def entryAddr (table : BitVec 22) (vpn : BitVec 10) : BitVec 34 := table ++ vpn ++ 0#2

/-! ## The walk -/

/-- An entry that ends the walk, and the address it gives. -/
structure Leaf where
  pte : BitVec 32
  physical : BitVec 34
deriving DecidableEq, Repr

/-- `none` is a page fault. Memory answers to the low 32 bits of an address. -/
def walk (mem : BitVec 32 → BitVec 32) (root : BitVec 22) (va : BitVec 32) : Option Leaf :=
  let pte1 := mem ((entryAddr root (vpn1 va)).setWidth 32)
  if refused pte1 then none
  else if isLeaf pte1 then
    if ppn0 pte1 = 0 then some ⟨pte1, ppn1 pte1 ++ va.extractLsb' 0 22⟩ else none
  else
    let pte0 := mem ((entryAddr (ppn pte1) (vpn0 va)).setWidth 32)
    if refused pte0 || !isLeaf pte0 then none
    else some ⟨pte0, ppn pte0 ++ offset va⟩

/-- The low 32 bits of the physical address, `none` if the address does not
translate or the access is a store to a page that is not writable. -/
def translate (mem : BitVec 32 → BitVec 32) (root : BitVec 22) (va : BitVec 32)
    (isWrite : Bool) : Option (BitVec 32) :=
  match walk mem root va with
  | none => none
  | some leaf =>
    if isWrite && !writable leaf.pte then none else some (leaf.physical.setWidth 32)

end RiscvEmulator.Isa.Sv32
