import RiscvEmulator.Cores.MulDiv
import RiscvEmulator.System.DataStep

/-! # Steps of the M extension

Which steps that fetch an encoded multiplication or division leave the registers
as the M extension defines, and for which choices of registers all of them do. -/
namespace RiscvEmulator.System
open Memory Cores Isa

namespace Simulator
variable {N n : Nat} {s s₁ : Simulator N n} {i : Fin N} {instr : Word}

/-- A step of OP retires what its switch makes of the core. -/
theorem Fetches.step_op (h : s.Fetches i s₁ instr) (hop : opcode instr = 0x33#7) :
    s.step i = (((s₁.fetchPc i).2.cores i).op instr).map fun c =>
      retire i (.done ((s₁.fetchPc i).2.setCore i c)) := by
  rw [h.step_eq]
  unfold execute
  simp only [hop]
  cases ((s₁.fetchPc i).2.cores i).op instr <;> rfl

/-- The step has a result, and its registers are the defined ones. -/
def Meets (s : Simulator N n) (i : Fin N) (instr : RvM) : Prop :=
  ∃ s', s.step i = .ok s' ∧ (s'.cores i).regs = (instr.exec (s.cores i).isaState).regs

theorem Fetches.meets_iff {instr : RvM} (h : s.Fetches i s₁ instr.encode)
    (hx0 : (s.cores i).regs 0 = 0) : s.Meets i instr ↔
      MulDivRight instr ((s.cores i).regs instr.rs1) ((s.cores i).regs instr.rs2) := by
  have hstep := h.step_op (rType_fields ..).1
  rw [Core.op_mulDiv, h.regs] at hstep
  have hcomp := aluOp_mulDiv_iff instr.op instr.rs2 ((s.cores i).regs instr.rs1)
    ((s.cores i).regs instr.rs2)
  unfold MulDivRight
  rcases aluOp_mulDiv_cases instr.op instr.rs2 ((s.cores i).regs instr.rs1)
      ((s.cores i).regs instr.rs2) with ⟨ho, ha, hb, he⟩ | ⟨hno, v, hv⟩
  · -- the host fails
    rw [he] at hstep
    refine iff_of_false ?_ fun hr => hr.1 ⟨ho, ha, hb⟩
    rintro ⟨s', hs', _⟩
    rw [hstep] at hs'
    cases hs'
  · rw [hv] at hstep hcomp
    rw [← hcomp, Except.ok.injEq, Option.some.injEq, and_iff_right hno]
    have hregs := (retire_finish (s₁.fetchPc i).2 i instr.rd v (h.regs ▸ hx0)).regs
    have hwrite : ((((s₁.fetchPc i).2.cores i).isaState).write instr.rd v).regs =
        ((s.cores i).isaState.write instr.rd v).regs := by
      simp only [State.write, Core.isaState, h.regs]
    rw [hwrite] at hregs
    have hmeets : s.Meets i instr ↔ ((s.cores i).isaState.write instr.rd v).regs =
        (instr.exec (s.cores i).isaState).regs := by
      unfold Meets
      rw [hstep, ← hregs]
      constructor
      · rintro ⟨s', hs', hr⟩
        cases hs'
        exact hr
      · intro hr
        exact ⟨_, rfl, hr⟩
    rw [hmeets]
    simp only [RvM.exec, State.goto, State.write, Core.isaState]
    by_cases hrd : instr.rd = 0
    · rw [if_pos hrd, if_pos hrd]
      exact iff_of_true rfl (.inl hrd)
    · rw [if_neg hrd, if_neg hrd, or_iff_right hrd]
      exact (Function.update_injective _ _).eq_iff

/-- Every step that fetches the instruction meets its definition, whatever the
operands. -/
def AlwaysMeets (instr : RvM) : Prop :=
  ∀ (N n : Nat) (s s₁ : Simulator N n) (i : Fin N), (s.cores i).regs 0 = 0 →
    s.Fetches i s₁ instr.encode → s.Meets i instr

theorem alwaysMeets_iff (instr : RvM) : AlwaysMeets instr ↔ RightForAll instr := by
  rw [rightForAll_iff]
  constructor
  · intro h regs h0
    obtain ⟨s₁, hf⟩ := loaded_fetches 1 0x100000 (fun _ => regs) 0 instr.encode
    exact (hf.meets_iff h0).mp (h 1 0x100000 _ s₁ 0 h0 hf)
  · intro h N n s s₁ i h0 hf
    exact (hf.meets_iff h0).mpr (h (s.cores i).regs h0)

/-- A multiplication or division has the defined result exactly if its operands,
and for the high products its registers, are of the right ones, and it has it
for all operands exactly under the right choices of registers. -/
theorem step_mulDiv_iff (instr : RvM) (hx0 : (s.cores i).regs 0 = 0)
    (h : s.Fetches i s₁ instr.encode) :
    (s.Meets i instr ↔
      MulDivRight instr ((s.cores i).regs instr.rs1) ((s.cores i).regs instr.rs2)) ∧
    (AlwaysMeets instr ↔ RightForAll instr) :=
  ⟨h.meets_iff hx0, alwaysMeets_iff instr⟩

/-- One core about to execute `instr`, `x5` and `x6` set. -/
def aboutOperands (instr : RvM) (a b : Word) : Simulator 1 0x100000 :=
  loaded 1 0x100000 [instr.encode] fun _ r => if r = 5 then a else if r = 6 then b else 0

theorem step_mulDiv_div : (aboutOperands ⟨.div, 7, 5, 6⟩ 0x80000000 0xFFFFFFFF).Meets 0
      ⟨.div, 7, 5, 6⟩ ∧ RightForAll ⟨.div, 7, 5, 6⟩ := by
  obtain ⟨s₁, hf⟩ := loaded_fetches 1 0x100000
    (fun _ r => if r = 5 then 0x80000000 else if r = 6 then 0xFFFFFFFF else 0) 0
    (RvM.encode ⟨.div, 7, 5, 6⟩)
  obtain ⟨h1, h2⟩ := step_mulDiv_iff ⟨.div, 7, 5, 6⟩ rfl hf
  exact ⟨h1.mpr ⟨fun h => (nomatch h.1), .inr trivial⟩, trivial⟩

/-- MULHU of 2^16 and 2^16 gives 0, since the switch compares them, and REM of the
least integer and -1 is a division the host leaves undefined. -/
theorem mulhu_compares :
    ¬(aboutOperands ⟨.mulhu, 7, 5, 6⟩ 0x10000 0x10000).Meets 0 ⟨.mulhu, 7, 5, 6⟩ ∧
      ¬(aboutOperands ⟨.rem, 7, 5, 6⟩ 0x80000000 0xFFFFFFFF).Meets 0 ⟨.rem, 7, 5, 6⟩ := by
  constructor
  · have hcode : ((aboutOperands ⟨.mulhu, 7, 5, 6⟩ 0x10000 0x10000).step 0).toOption.map
        (fun s => (s.cores 0).regs 7) = some 0 := by decide +kernel
    rintro ⟨s', hs', hregs⟩
    have hspec : (s'.cores 0).regs 7 = 1 := (congrFun hregs 7).trans (by decide +kernel)
    rw [hs'] at hcode
    have heq : (s'.cores 0).regs 7 = 0 := Option.some.inj hcode
    rw [hspec] at heq
    exact absurd heq (by decide)
  · have hcode : ((aboutOperands ⟨.rem, 7, 5, 6⟩ 0x80000000 0xFFFFFFFF).step 0).toOption.isNone =
        true := by decide +kernel
    rintro ⟨s', hs', _⟩
    rw [hs'] at hcode
    cases hcode

end Simulator
end RiscvEmulator.System
