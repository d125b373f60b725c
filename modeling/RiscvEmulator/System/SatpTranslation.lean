import RiscvEmulator.Memory.PageWalk
import RiscvEmulator.System.PageRights
import RiscvEmulator.System.SatpFrame

/-! # Translation under a value of `satp`

What a write of `satp` makes of translation, as long as no entry of the TLB is in
the way, and when one is: neither the write nor SFENCE.VMA drops the entries that
earlier tables have left. -/
namespace RiscvEmulator.System
open Memory Cores Isa

namespace Simulator
variable {N n : Nat} {s s' t u : Simulator N n} {i : Fin N}

/-! ## The table `satp` names -/

/-- The root page number of `satp`. -/
def satpRoot (satp : Word) : BitVec 22 := satp.extractLsb' 0 22

theorem satpBase_on {satp : Word} (hmode : satp.getLsbD 31 = true) :
    satpBase satp = (satpRoot satp).setWidth 32 <<< 12 := by
  have hbit : (satp >>> 31) &&& 0x1 = (satp.extractLsb' 31 1).setWidth 32 :=
    shift_mask_eq_field satp 31 1 (by decide)
  have hroot : satp &&& 0x3FFFFF = (satpRoot satp).setWidth 32 := by
    have h := shift_mask_eq_field satp 0 22 (by decide)
    rwa [BitVec.ushiftRight_zero] at h
  have hone : satp.extractLsb' 31 1 = 1 := by
    refine BitVec.eq_of_getLsbD_eq fun j hj => ?_
    obtain rfl : j = 0 := by omega
    simpa [BitVec.getLsbD_extractLsb'] using hmode
  unfold satpBase
  rw [hbit, hone, hroot]
  rfl

theorem updateMmuFromSatp_base (s : Simulator N n) (i : Fin N) (satp : Word) :
    ((s.updateMmuFromSatp i satp).mmus i).pageTableBase = satpBase satp := by
  unfold updateMmuFromSatp MMU.setPageTableBase
  simp only [Function.update_self]
  rfl

/-- With translation on and no entry in the TLB, an address translates as in Sv32
exactly under `WalksRight`. -/
theorem satp_translation_iff (s : Simulator N n) (i : Fin N) {satp : Word}
    (hmode : satp.getLsbD 31 = true) (mem : Word → Word) {va : Word}
    (hmiss : (((s.updateMmuFromSatp i satp).mmus i).findTlbEntry va).1 = none)
    (isWrite isInstruction : Bool) :
    (((s.updateMmuFromSatp i satp).mmus i).translateAddress mem va isWrite
        isInstruction).1.toOption = Sv32.translate mem (satpRoot satp) va isWrite ↔
      WalksRight mem (satpRoot satp) va isWrite :=
  MMU.ask_iff_walksRight rfl ((updateMmuFromSatp_base s i satp).trans (satpBase_on hmode)) hmiss
    isWrite isInstruction

/-- A page of the second 4 MiB: a pointer in the root at 0x10000, and a table at
0x11000. -/
theorem satp_translation_pointer :
    (((((init 1 0 ⟨fun _ => 0⟩).updateMmuFromSatp 0 0x80000010).mmus 0).translateAddress
        (fun a => if a = 0x10004 then 0x4401 else if a = 0x11004 then 0x13C0F else 0)
        0x00401004 false false).1.toOption) =
      Sv32.translate (fun a => if a = 0x10004 then 0x4401 else if a = 0x11004 then 0x13C0F else 0)
        (satpRoot 0x80000010) 0x00401004 false := by
  have hmode : (0x80000010 : Word).getLsbD 31 = true := by decide
  exact (satp_translation_iff (init 1 0 ⟨fun _ => 0⟩) 0 hmode _ (by decide) false false).mpr
    (by decide)

/-- A megapage that is not walked as one. -/
theorem megapage_faults :
    ¬(((((init 1 0 ⟨fun _ => 0⟩).updateMmuFromSatp 0 0x80000100).mmus 0).translateAddress
        (fun a => if a = 0x100004 then 0x004000CF else 0) 0x00400123 false false).1.toOption) =
      Sv32.translate (fun a => if a = 0x100004 then 0x004000CF else 0) (satpRoot 0x80000100)
        0x00400123 false := by
  decide

/-! ## After a switch of tables -/

/-- A state in which an access of the step from `t` is translated: nothing but
accesses through the caches has happened since the gates before the fetch. -/
def Accessing (i : Fin N) (t u : Simulator N n) : Prop :=
  ∃ t₁, t.prepare i = .ok (true, t₁) ∧ CacheAccessed t₁ u

theorem Accessing.keepsSatp (h : Accessing i t u) : KeepsSatp i t u ∧ u.memory = t.memory := by
  obtain ⟨t₁, hp, hu⟩ := h
  obtain ⟨hkeep, hmem⟩ := prepare_keepsSatp hp
  exact ⟨hkeep.trans hu.toAccessed.keepsSatp, hu.memory.trans hmem⟩

/-- SFENCE.VMA with both registers `x0`. -/
def sfenceVma : Word := 0x12000073

/-- In every run, from a state where `satp` names the table of the MMU, an access
after a value of `satp` has been set and SFENCE.VMA executed is translated by that
value and by memory exactly if translation is off or the entry that the TLB has
for the page, if any, agrees with the one the walk ends at. -/
theorem translate_after_switch_iff {before after : List Word} (hs : s.InSync i)
    (hbefore : Executes i s before s') (hafter : Executes i s' (sfenceVma :: after) t)
    (hno : ∀ instr ∈ after, ¬WritesSatp instr) (hu : Accessing i t u) (kind : AccessKind)
    (vaddr : Word) :
    let satp := (s'.cores i).csrRegisters 0x180
    let m := MMU.start mmuConfig (satpBase satp)
    let call := kind.call vaddr
    (u.translate i vaddr call.isWrite call.isInstruction).1 = m.walk t.memory.readWord call ↔
      satpBase satp = 0 ∨ ∀ e, ((u.mmus i).findTlbEntry vaddr).1 = some e →
        e.Agrees mmuConfig (m.readPageTableEntry t.memory.readWord vaddr) call.isWrite := by
  intro satp m call
  have hkeep : KeepsSatp i s' t := hafter.keepsSatp fun instr h => by
    rcases List.mem_cons.mp h with rfl | h
    · decide
    · exact hno instr h
  obtain ⟨hacc, hmem⟩ := hu.keepsSatp
  have hsync : u.InSync i := (hkeep.trans hacc).inSync (hbefore.inSync hs)
  have hbase : (u.mmus i).pageTableBase = m.pageTableBase := by
    rw [hsync, (hkeep.trans hacc).satp]
    rfl
  have hwalk : (u.mmus i).walk u.memory.readWord call = m.walk t.memory.readWord call := by
    unfold MMU.walk
    rw [hbase, MMU.readPageTableEntry_base hbase, hmem]
  show ((u.mmus i).ask u.memory.readWord call).1 = _ ↔ _
  rw [← hwalk]
  by_cases hoff : satpBase satp = 0
  · -- without a table nothing is looked up
    have hzero : ((u.mmus i).pageTableBase == 0) = true := beq_iff_eq.mpr (hbase.trans hoff)
    refine iff_of_true ?_ (.inl hoff)
    unfold MMU.ask MMU.translateAddress MMU.walk
    rw [hzero]
    rfl
  · rw [MMU.ask_eq_walk_iff (fun h => hoff (hbase.symm.trans h)) call (kind.call_kind vaddr),
      or_iff_right hoff, MMU.readPageTableEntry_base hbase, hmem]
    rfl

/-- Two tables, at 0x10000 and 0x11000, that map the first page to itself and the
page of 0x4F000 to 0x4F000 and 0x8E000; the program uses both. -/
def switching : Simulator 1 0x100000 :=
  let s := loaded 1 0x100000 [0x18049073, 0x0002A383, 0x18031073, sfenceVma, 0x0002A403] fun _ r =>
    if r = 5 then 0x4F000 else if r = 6 then 0x80000011 else if r = 9 then 0x80000010 else 0
  { s with memory := s.memory |>.writeWord 0x10000 0x0F |>.writeWord 0x1013C 0x13C0F
      |>.writeWord 0x11000 0x0F |>.writeWord 0x1113C 0x2380F
      |>.writeWord 0x4F000 1 |>.writeWord 0x8E000 2 }

/-- The states after three and four of its steps. -/
def switched : Simulator 1 0x100000 := ((switching.stepped core0).stepped core0).stepped core0
def fenced : Simulator 1 0x100000 := switched.stepped core0

theorem switching_switched :
    Executes 0 switching [0x18049073, 0x0002A383, 0x18031073] switched := by
  refine .cons (by decide +kernel) (by decide +kernel) (by decide +kernel) ?_
  refine .cons (by decide +kernel) (by decide +kernel) (by decide +kernel) ?_
  exact .cons (by decide +kernel) (by decide +kernel) (by decide +kernel) (.nil _)

theorem switched_fenced : Executes 0 switched [sfenceVma] fenced :=
  .cons (by decide +kernel) (by decide +kernel) (by decide +kernel) (.nil _)

theorem fenced_accessing : Accessing 0 fenced ((fenced.handleInterrupt 0).fetchPc 0).2 :=
  ⟨_, Running.prepare_eq (by decide +kernel), fetch_accessed ..⟩

/-- The first page is found where both tables have it. -/
theorem translate_after_switch_first_page :
    (((fenced.handleInterrupt 0).fetchPc 0).2.translate 0 0x10 false true).1 =
      (MMU.start mmuConfig (satpBase ((switched.cores 0).csrRegisters 0x180))).walk
        fenced.memory.readWord (AccessKind.fetch.call 0x10) := by
  have hsync : switching.InSync 0 := by decide +kernel
  have hfind : ((((fenced.handleInterrupt 0).fetchPc 0).2.mmus 0).findTlbEntry 0x10).1 =
      some ⟨0, 0, true, false, true⟩ := by decide +kernel
  refine (translate_after_switch_iff hsync switching_switched switched_fenced
    (fun _ h => nomatch h) fenced_accessing .fetch 0x10).mpr (.inr fun e he => ?_)
  rw [hfind] at he
  obtain rfl := Option.some.inj he
  decide +kernel

/-- The page of 0x4F000 is still found where the first table had it. -/
theorem stale_entry_after_switch : ∃ s' t u : Simulator 1 0x100000,
    Executes 0 switching [0x18049073, 0x0002A383, 0x18031073] s' ∧
      Executes 0 s' [sfenceVma] t ∧ Accessing 0 t u ∧
        (u.translate 0 0x4F000 false false).1 ≠
          (MMU.start mmuConfig (satpBase ((s'.cores 0).csrRegisters 0x180))).walk
            t.memory.readWord (AccessKind.load.call 0x4F000) :=
  ⟨switched, fenced, _, switching_switched, switched_fenced, fenced_accessing, by decide +kernel⟩

end Simulator
end RiscvEmulator.System
