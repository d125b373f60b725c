import RiscvEmulator.Cores.State
import RiscvEmulator.Memory.Tlb

/-! # The rights of a page

An entry of the page table grants fetches, loads and stores, and may keep user
mode out. Translation asks for the right to store and for no other, and does not
know the privilege level; what it answers does not depend on whether an earlier
access has left the entry in the TLB. -/
namespace RiscvEmulator.System
open Memory Cores Lib.Memo

inductive AccessKind where
  | fetch | load | store
deriving DecidableEq, Repr

/-- How an access calls `translate_address`. -/
def AccessKind.call (kind : AccessKind) (vaddr : Word) : TranslateCall :=
  ⟨vaddr, kind = .store, kind = .fetch⟩

theorem AccessKind.call_kind (kind : AccessKind) (vaddr : Word) :
    ¬((kind.call vaddr).isWrite = true ∧ (kind.call vaddr).isInstruction = true) := by
  cases kind <;> simp [AccessKind.call]

/-- The right an access needs, and the one user mode needs. -/
def Grants (pte : PageTableEntry) (kind : AccessKind) (level : PrivilegeLevel) : Prop :=
  (match kind with
    | .fetch => pte.executable
    | .load => pte.readable
    | .store => pte.writable) = true ∧ (level = .user → pte.user = true)

instance (pte : PageTableEntry) (kind : AccessKind) (level : PrivilegeLevel) :
    Decidable (Grants pte kind level) := inferInstanceAs (Decidable (_ ∧ _))

/-- Translation succeeds only if the entry the walk ends at grants the access. -/
def RespectsRights {config : MMUConfig} (m : MMU config) (readWord : Word → Word)
    (kind : AccessKind) (level : PrivilegeLevel) (vaddr : Word) : Prop :=
  (∃ paddr, (m.ask readWord (kind.call vaddr)).1 = .ok paddr) →
    Grants (m.readPageTableEntry readWord vaddr) kind level

/-- The walk succeeds on a valid entry that grants a store, if it is one. -/
theorem walk_ok_iff {config : MMUConfig} {m : MMU config} (hon : m.pageTableBase ≠ 0)
    (readWord : Word → Word) (kind : AccessKind) (vaddr : Word) :
    (∃ paddr, m.walk readWord (kind.call vaddr) = .ok paddr) ↔
      (m.readPageTableEntry readWord vaddr).present = true ∧
        (kind = .store → (m.readPageTableEntry readWord vaddr).writable = true) := by
  have hbase : (m.pageTableBase == 0) = false := beq_eq_false_iff_ne.mpr hon
  unfold MMU.walk AccessKind.call
  rw [hbase]
  simp only [Bool.false_eq_true, if_false]
  generalize m.readPageTableEntry readWord vaddr = pte
  cases pte.present <;> cases pte.writable <;> cases kind <;> simp

/-- After any history of accesses, translation respects the rights of a page
exactly if a valid entry grants fetches or loads, when that is the access, and
access from user mode, when that is the level. A store to a page that is not
writable is refused before. -/
theorem translation_respects_rights_iff (config : MMUConfig) {base : Word} (hon : base ≠ 0)
    (readWord : Word → Word) (history : List TranslateCall) (kind : AccessKind)
    (level : PrivilegeLevel) (vaddr : Word) :
    let m := afterAsking (MMU.ask readWord) (MMU.start config base) history
    let pte := (MMU.start config base).readPageTableEntry readWord vaddr
    RespectsRights m readWord kind level vaddr ↔
      (pte.present = true → (kind = .store → pte.writable = true) →
        (kind = .fetch → pte.executable = true) ∧ (kind = .load → pte.readable = true) ∧
          (level = .user → pte.user = true)) := by
  intro m pte
  obtain ⟨hm, hbase⟩ := MMU.afterAsking_mirrors (MMU.start_mirrors config base readWord) history
  have hpte : m.readPageTableEntry readWord vaddr = pte :=
    MMU.readPageTableEntry_base hbase readWord vaddr
  have hok := walk_ok_iff (m := m) (hbase ▸ hon) readWord kind vaddr
  rw [hpte] at hok
  unfold RespectsRights
  rw [hm.ask_eq _ (kind.call_kind vaddr), hpte, hok]
  unfold Grants
  cases kind with
  | fetch | load => simp
  | store =>
    simp only [reduceCtorEq, false_implies, true_and, forall_const, and_imp]
    exact forall₂_congr fun _ hw => and_iff_right hw

/-- A page for loads that user mode may use. -/
theorem translation_respects_rights_load :
    RespectsRights (afterAsking (MMU.ask fun _ => 0x13) (MMU.start {} 0x1000)
      [⟨0x5000, false, true⟩]) (fun _ => 0x13) .load .user 0x5004 := by
  have hbase : (0x1000 : Word) ≠ 0 := by decide
  exact (translation_respects_rights_iff {} hbase (fun _ => 0x13) [⟨0x5000, false, true⟩] .load
    .user 0x5004).mpr (by decide)

/-- Instructions are fetched from a page for loads, also from user mode, which
the page keeps out. -/
theorem fetch_without_right :
    ¬RespectsRights (afterAsking (MMU.ask fun _ => 0x03) (MMU.start {} 0x1000) [])
      (fun _ => 0x03) .fetch .user 0x5000 := by
  intro h
  exact absurd (h ⟨0, by decide⟩).1 (by decide)

end RiscvEmulator.System
