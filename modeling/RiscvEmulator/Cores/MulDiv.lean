import RiscvEmulator.Cores.Compute
import RiscvEmulator.Isa.RvM

/-! # The M extension in the switch of OP

The low product and the divisions are right. The high products are looked for
under `funct3` 1 alone, by the number of the register `rs2`; the codes the
specification gives to two of them compare. -/
namespace RiscvEmulator.Cores
open Memory Isa

/-! ## High products -/

theorem highWord_ofInt (z : Int) : highWord (BitVec.ofInt 64 z) = BitVec.ofInt 32 (z / 2 ^ 32) := by
  apply BitVec.eq_of_toNat_eq
  unfold highWord
  rw [BitVec.toNat_setWidth, BitVec.toNat_ushiftRight, BitVec.toNat_ofInt, BitVec.toNat_ofInt,
    Nat.shiftRight_eq_div_pow]
  omega

theorem setWidth_eq_ofInt (b : Word) : b.setWidth 64 = BitVec.ofInt 64 b.toNat := by
  rw [BitVec.ofInt_natCast, BitVec.ofNat_toNat]

theorem mulh_eq (a b : Word) : mulh a b = MulDivOp.mulh.eval a b := by
  simp only [mulh, MulDivOp.eval]
  rw [← highWord_ofInt, BitVec.ofInt_mul]
  rfl

theorem mulhsu_eq (a b : Word) : mulhsu a b = MulDivOp.mulhsu.eval a b := by
  simp only [mulhsu, MulDivOp.eval]
  rw [← highWord_ofInt, BitVec.ofInt_mul, setWidth_eq_ofInt]
  rfl

theorem mulhu_eq (a b : Word) : mulhu a b = MulDivOp.mulhu.eval a b := by
  simp only [mulhu, MulDivOp.eval]
  rw [← highWord_ofInt, BitVec.ofInt_mul, setWidth_eq_ofInt, setWidth_eq_ofInt]

/-- Reading `b` as unsigned adds `2 ^ 32` to it if it is negative. -/
theorem toNat_eq_toInt_add (b : Word) :
    (b.toNat : Int) = b.toInt + (if b.msb then 1 else 0) * 2 ^ 32 := by
  rw [BitVec.toInt_eq_msb_cond]
  split <;> omega

theorem mulhsu_eq_mulh_add (a b : Word) :
    MulDivOp.mulhsu.eval a b = MulDivOp.mulh.eval a b + (if b.msb then a else 0) := by
  have h : a.toInt * b.toNat / 2 ^ 32 =
      a.toInt * b.toInt / 2 ^ 32 + a.toInt * (if b.msb then 1 else 0) := by
    rw [toNat_eq_toInt_add, Int.mul_add, ← Int.mul_assoc, Int.add_mul_ediv_right _ _ (by decide)]
  simp only [MulDivOp.eval]
  rw [h, BitVec.ofInt_add]
  split <;> simp

theorem mulhu_eq_mulh_add (a b : Word) :
    MulDivOp.mulhu.eval a b =
      MulDivOp.mulh.eval a b + ((if a.msb then b else 0) + (if b.msb then a else 0)) := by
  have h : (a.toNat : Int) * b.toNat / 2 ^ 32 =
      a.toInt * b.toNat / 2 ^ 32 + (if a.msb then 1 else 0) * b.toNat := by
    rw [toNat_eq_toInt_add a, Int.add_mul, Int.mul_right_comm _ (2 ^ 32),
      Int.add_mul_ediv_right _ _ (by decide)]
  have hm := mulhsu_eq_mulh_add a b
  rw [BitVec.add_comm (if a.msb then b else 0), ← BitVec.add_assoc, ← hm]
  simp only [MulDivOp.eval]
  rw [h, BitVec.ofInt_add]
  split <;> simp

/-! ## Divisions -/

theorem overflows_iff (a b : Word) :
    MulDivOp.Overflows a b ↔ a = 0x80000000 ∧ b = 0xFFFFFFFF := by
  unfold MulDivOp.Overflows
  rw [← BitVec.toInt_inj (x := a), ← BitVec.toInt_inj (x := b)]
  rfl

theorem div_eq (a b : Word) : div a b = MulDivOp.div.eval a b := by
  unfold div MulDivOp.eval
  simp only [← overflows_iff]
  split
  · rfl
  · split
    · rfl
    · apply BitVec.eq_of_toInt_eq
      rw [BitVec.toInt_sdiv, BitVec.toInt_ofInt]

theorem divu_eq (a b : Word) : divu a b = MulDivOp.divu.eval a b := by
  unfold divu MulDivOp.eval
  split
  · rfl
  · apply BitVec.eq_of_toNat_eq
    rw [BitVec.toNat_udiv, BitVec.toNat_ofNat, Nat.mod_eq_of_lt]
    exact Nat.lt_of_le_of_lt (Nat.div_le_self ..) a.isLt

theorem remu_eq (a b : Word) : remu a b = MulDivOp.remu.eval a b := by
  unfold remu MulDivOp.eval
  split
  · rfl
  · apply BitVec.eq_of_toNat_eq
    rw [BitVec.toNat_umod, BitVec.toNat_ofNat]
    exact (Nat.mod_eq_of_lt (Nat.lt_of_le_of_lt (Nat.mod_le ..) a.isLt)).symm

/-- The remainder is right where the host computes it. -/
theorem rem_eq (a b : Word) : rem a b =
    if a = 0x80000000 ∧ b = 0xFFFFFFFF then .error .undefinedDivision
    else .ok (MulDivOp.rem.eval a b) := by
  unfold rem MulDivOp.eval
  simp only [← overflows_iff]
  by_cases hb : b = 0
  · have ho : ¬ MulDivOp.Overflows a b := by
      rintro ⟨_, h⟩
      rw [hb] at h
      exact absurd h (by decide)
    rw [if_pos hb, if_neg ho, if_pos hb]
  · rw [if_neg hb, if_neg hb]
    by_cases ho : MulDivOp.Overflows a b
    · rw [if_pos ho, if_pos ho]
    · rw [if_neg ho, if_neg ho, if_neg ho]
      rw [← BitVec.toInt_srem, BitVec.ofInt_toInt]

/-! ## The dispatch -/

/-- When the switch computes what the M extension defines. -/
def ComputesMulDiv (op : MulDivOp) (rs2 : Reg) (a b : Word) : Prop :=
  match op with
  | .mul | .div | .divu | .remu => True
  | .rem => ¬(a = 0x80000000 ∧ b = 0xFFFFFFFF)
  | .mulh =>
    if rs2 = 1 then True
    else if rs2 = 2 then b.msb → a = 0
    else if rs2 = 3 then (if a.msb then b else 0) + (if b.msb then a else 0) = 0
    else (a.toNat * 2 ^ (b.toNat % 32) : Int) % 2 ^ 32 = a.toInt * b.toInt / 2 ^ 32 % 2 ^ 32
  | .mulhsu => a.toInt * b.toNat / 2 ^ 32 = if a.toInt < b.toInt then 1 else 0
  | .mulhu => a.toNat * b.toNat / 2 ^ 32 = if a.toNat < b.toNat then 1 else 0

instance (op : MulDivOp) (rs2 : Reg) (a b : Word) : Decidable (ComputesMulDiv op rs2 a b) :=
  match op with
  | .mul | .div | .divu | .remu => inferInstanceAs (Decidable True)
  | .rem | .mulh | .mulhsu | .mulhu => by
    unfold ComputesMulDiv
    infer_instance

theorem shiftLeft_eq_ofInt_iff (a : Word) (k : Nat) (z : Int) :
    a <<< k = BitVec.ofInt 32 z ↔ (a.toNat * 2 ^ k : Int) % 2 ^ 32 = z % 2 ^ 32 := by
  have hcast : ((a.toNat * 2 ^ k : Nat) : Int) = a.toNat * 2 ^ k := by push_cast; rfl
  rw [← BitVec.toNat_inj, BitVec.toNat_shiftLeft, BitVec.toNat_ofInt, Nat.shiftLeft_eq, ← hcast]
  omega

theorem mulh_dispatch_iff (rs2 : Reg) (a b : Word) :
    aluOp 0x1 0x01 rs2 a b = .ok (some (MulDivOp.mulh.eval a b)) ↔
      ComputesMulDiv .mulh rs2 a b := by
  have hcode : aluOp 0x1 0x01 rs2 a b = .ok (some (
      if rs2 = 1 then mulh a b else if rs2 = 2 then mulhsu a b else if rs2 = 3 then mulhu a b
      else a <<< (b.toNat % 32))) := by
    rw [← toNat_and_31]
    simp only [apply_ite some]
    rfl
  rw [hcode, mulh_eq, mulhsu_eq, mulhu_eq, mulhsu_eq_mulh_add, mulhu_eq_mulh_add]
  simp only [Except.ok.injEq, Option.some.injEq, ComputesMulDiv]
  split
  · exact iff_of_true rfl trivial
  · split
    · rw [BitVec.add_right_eq_self]
      cases b.msb <;> simp
    · split
      · exact BitVec.add_right_eq_self
      · exact shiftLeft_eq_ofInt_iff ..

/-- A comparison is a high product of that value. -/
theorem flag_eq_ofInt_iff {p : Prop} [Decidable p] {z : Int} (h0 : -2 ^ 31 ≤ z) (h1 : z < 2 ^ 32) :
    (if p then 1 else 0 : Word) = BitVec.ofInt 32 z ↔ z = if p then 1 else 0 := by
  rw [← BitVec.toNat_inj, BitVec.toNat_ofInt]
  split
  · rw [show (1 : Word).toNat = 1 from rfl]
    omega
  · rw [show (0 : Word).toNat = 0 from rfl]
    omega

theorem high_product_bounds {a : Int} (ha0 : -2 ^ 31 ≤ a) (ha1 : a < 2 ^ 32) (b : Word) :
    -2 ^ 31 ≤ a * b.toNat / 2 ^ 32 ∧ a * b.toNat / 2 ^ 32 < 2 ^ 32 := by
  have hb : (b.toNat : Int) < 2 ^ 32 := by exact_mod_cast b.isLt
  have hb0 : (0 : Int) ≤ b.toNat := Int.natCast_nonneg _
  constructor
  · have h : -2 ^ 31 * (b.toNat : Int) ≤ a * b.toNat := Int.mul_le_mul_of_nonneg_right ha0 hb0
    exact Int.le_ediv_of_mul_le (by decide) (by omega)
  · have h : a * b.toNat ≤ 2 ^ 32 * (b.toNat : Int) :=
      Int.mul_le_mul_of_nonneg_right (Int.le_of_lt ha1) hb0
    exact Int.ediv_lt_of_lt_mul (by decide) (by omega)

theorem aluOp_mulDiv_iff (op : MulDivOp) (rs2 : Reg) (a b : Word) :
    aluOp op.funct3 0x01 rs2 a b = .ok (some (op.eval a b)) ↔ ComputesMulDiv op rs2 a b := by
  cases op with
  | mul =>
    refine iff_of_true ?_ trivial
    simp only [MulDivOp.eval, BitVec.ofInt_mul, BitVec.ofInt_toInt]
    rfl
  | mulh => exact mulh_dispatch_iff rs2 a b
  | mulhsu =>
    have ha0 : -2 ^ 31 ≤ a.toInt := a.le_toInt
    have ha1 : a.toInt < 2 ^ 31 := a.toInt_lt
    obtain ⟨h0, h1⟩ := high_product_bounds ha0 (by omega) b
    show Except.ok (some (signedLess a b)) = _ ↔ _
    rw [signedLess_eq, Except.ok.injEq, Option.some.injEq]
    exact flag_eq_ofInt_iff h0 h1
  | mulhu =>
    have ha : (a.toNat : Int) < 2 ^ 32 := by exact_mod_cast a.isLt
    obtain ⟨h0, h1⟩ := high_product_bounds (by omega) ha b
    show Except.ok (some (if a.toNat < b.toNat then (1 : Word) else 0)) = _ ↔ _
    rw [Except.ok.injEq, Option.some.injEq]
    refine (flag_eq_ofInt_iff h0 h1).trans ?_
    have hcast : (a.toNat : Int) * b.toNat / 2 ^ 32 = (a.toNat * b.toNat / 2 ^ 32 : Nat) := by
      push_cast
      rfl
    rw [hcast]
    unfold ComputesMulDiv
    generalize a.toNat * b.toNat / 2 ^ 32 = z
    split <;> omega
  | div => exact iff_of_true (congrArg (Except.ok ∘ some) (div_eq a b)) trivial
  | divu => exact iff_of_true (congrArg (Except.ok ∘ some) (divu_eq a b)) trivial
  | rem =>
    show (rem a b).map some = _ ↔ _
    rw [rem_eq]
    unfold ComputesMulDiv
    split <;> simp_all [Except.map]
  | remu => exact iff_of_true (congrArg (Except.ok ∘ some) (remu_eq a b)) trivial

/-- The switch stores something, unless the host division fails. -/
theorem aluOp_mulDiv_cases (op : MulDivOp) (rs2 : Reg) (a b : Word) :
    (op = .rem ∧ a = 0x80000000 ∧ b = 0xFFFFFFFF ∧
      aluOp op.funct3 0x01 rs2 a b = .error .undefinedDivision) ∨
    (¬(op = .rem ∧ a = 0x80000000 ∧ b = 0xFFFFFFFF) ∧
      ∃ v, aluOp op.funct3 0x01 rs2 a b = .ok (some v)) := by
  cases op with
  | mul | mulhsu | mulhu | div | divu | remu => exact .inr ⟨fun h => (nomatch h.1), _, rfl⟩
  | mulh =>
    refine .inr ⟨fun h => (nomatch h.1), if rs2 = 1 then mulh a b else if rs2 = 2 then mulhsu a b
      else if rs2 = 3 then mulhu a b else a <<< (b &&& 0x1f).toNat, ?_⟩
    simp only [apply_ite some]
    rfl
  | rem =>
    have hcode : aluOp MulDivOp.rem.funct3 0x01 rs2 a b = (rem a b).map some := rfl
    rw [hcode, rem_eq]
    by_cases h : a = 0x80000000 ∧ b = 0xFFFFFFFF
    · rw [if_pos h]
      exact .inl ⟨rfl, h.1, h.2, rfl⟩
    · rw [if_neg h]
      exact .inr ⟨fun h' => h h'.2, _, rfl⟩

/-- When a step with operands `a` and `b` has the defined result. The host
evaluates the remainder also for `x0`. -/
def MulDivRight (instr : RvM) (a b : Word) : Prop :=
  ¬(instr.op = .rem ∧ a = 0x80000000 ∧ b = 0xFFFFFFFF) ∧
    (instr.rd = 0 ∨ ComputesMulDiv instr.op instr.rs2 a b)

theorem Core.op_mulDiv (c : Core) (instr : RvM) : c.op instr.encode =
    (aluOp instr.op.funct3 0x01 instr.rs2 (c.regs instr.rs1) (c.regs instr.rs2)).map
      (c.writeback instr.rd) := by
  obtain ⟨_, hrd, h3, h1, h2, h7⟩ :=
    rType_fields 0x01 instr.rs2 instr.rs1 instr.op.funct3 instr.rd 0x33
  unfold Core.op rdOf funct3Of rs1Of rs2Of funct7Of RvM.encode
  simp only [hrd, h3, h1, h2, h7]

/-! ## Choices of registers -/

/-- The choices of registers for which all operands have the defined result. -/
def RightForAll (instr : RvM) : Prop :=
  match instr.op with
  | .mul | .div | .divu | .remu => True
  | .rem => instr.rs1 = 0 ∨ instr.rs2 = 0 ∨ instr.rs1 = instr.rs2
  | .mulh => instr.rd = 0 ∨ instr.rs1 = 0 ∨ instr.rs2 = 1
  | .mulhsu => instr.rd = 0 ∨ (instr.rs1 = 0 ∧ instr.rs2 = 0)
  | .mulhu => instr.rd = 0 ∨ instr.rs2 = 0

/-- Two registers can have any two values, but for `x0` and equal registers. -/
theorem exists_regs {rs1 rs2 : Reg} {a b : Word} (heq : rs1 = rs2 → a = b)
    (h1 : rs1 = 0 → a = 0) (h2 : rs2 = 0 → b = 0) :
    ∃ regs : Reg → Word, regs 0 = 0 ∧ regs rs1 = a ∧ regs rs2 = b := by
  refine ⟨fun r => if r = rs1 then a else if r = rs2 then b else 0, ?_, if_pos rfl, ?_⟩
  · by_cases h : 0 = rs1
    · simp only [if_pos h, h1 h.symm]
    · by_cases h' : 0 = rs2
      · simp only [if_neg h, if_pos h', h2 h'.symm]
      · simp only [if_neg h, if_neg h']
  · by_cases h : rs2 = rs1
    · simp only [if_pos h, heq h.symm]
    · simp only [if_neg h, if_true]

/-- A zero factor has the right high product under every number of `rs2`. -/
theorem computes_mulh_zero (rs2 : Reg) (b : Word) : ComputesMulDiv .mulh rs2 0 b := by
  simp only [ComputesMulDiv]
  split
  · trivial
  · split
    · exact fun _ => trivial
    · split
      · simp
      · simp

theorem rightForAll_right {instr : RvM} (h : RightForAll instr) {regs : Reg → Word}
    (h0 : regs 0 = 0) : MulDivRight instr (regs instr.rs1) (regs instr.rs2) := by
  obtain ⟨op, rd, rs1, rs2⟩ := instr
  cases op with
  | mul | div | divu | remu => exact ⟨fun h => (nomatch h.1), .inr trivial⟩
  | rem =>
    have hno : ¬(regs rs1 = 0x80000000 ∧ regs rs2 = 0xFFFFFFFF) := by
      rintro ⟨ha, hb⟩
      rcases h with h | h | h <;> simp only at h
      · rw [h, h0] at ha
        exact absurd ha (by decide)
      · rw [h, h0] at hb
        exact absurd hb (by decide)
      · rw [h, hb] at ha
        exact absurd ha (by decide)
    exact ⟨fun h => hno h.2, .inr hno⟩
  | mulh =>
    refine ⟨fun h => (nomatch h.1), ?_⟩
    rcases h with h | h | h <;> simp only at h
    · exact .inl h
    · rw [h, h0]
      exact .inr (computes_mulh_zero rs2 _)
    · rw [h]
      exact .inr trivial
  | mulhsu =>
    refine ⟨fun h => (nomatch h.1), ?_⟩
    rcases h with h | ⟨h1, h2⟩
    · exact .inl h
    · simp only at h1 h2
      have hzero : ComputesMulDiv .mulhsu 0 0 0 := by decide +kernel
      rw [h1, h2, h0]
      exact .inr hzero
  | mulhu =>
    refine ⟨fun h => (nomatch h.1), ?_⟩
    rcases h with h | h <;> simp only at h
    · exact .inl h
    · rw [h, h0]
      refine .inr ?_
      simp [ComputesMulDiv]

/-- Operands for which a wrong choice of registers shows. -/
theorem exists_wrong_operands {instr : RvM} (h : ¬RightForAll instr) : ∃ a b : Word,
    (instr.rs1 = instr.rs2 → a = b) ∧ (instr.rs1 = 0 → a = 0) ∧ (instr.rs2 = 0 → b = 0) ∧
      ¬MulDivRight instr a b := by
  obtain ⟨op, rd, rs1, rs2⟩ := instr
  cases op with
  | mul | div | divu | remu => exact absurd trivial h
  | rem =>
    simp only [RightForAll, not_or] at h
    obtain ⟨h1, h2, hne⟩ := h
    exact ⟨0x80000000, 0xFFFFFFFF, fun he => absurd he hne, fun he => absurd he h1,
      fun he => absurd he h2, fun hr => hr.1 ⟨rfl, rfl, rfl⟩⟩
  | mulh =>
    simp only [RightForAll, not_or] at h
    obtain ⟨hrd, h1, hone⟩ := h
    by_cases h2 : rs2 = 0
    · have hshift : ¬ComputesMulDiv .mulh 0 1 0 := by decide +kernel
      rw [h2]
      exact ⟨1, 0, fun he => absurd he h1, fun h => absurd h h1, fun _ => rfl,
        fun hr => hr.2.elim hrd hshift⟩
    · have hwrong : ∀ rs2 : Reg, rs2 ≠ 0 → rs2 ≠ 1 →
          ¬ComputesMulDiv .mulh rs2 (-1) (-1) ∧ ¬ComputesMulDiv .mulh rs2 1 (-1) := by
        decide +kernel
      by_cases he : rs1 = rs2
      · exact ⟨-1, -1, fun _ => rfl, fun h => absurd h h1, fun h => absurd h h2,
          fun hr => hr.2.elim hrd (hwrong rs2 h2 hone).1⟩
      · exact ⟨1, -1, fun h => absurd h he, fun h => absurd h h1, fun h => absurd h h2,
          fun hr => hr.2.elim hrd (hwrong rs2 h2 hone).2⟩
  | mulhsu =>
    simp only [RightForAll, not_or] at h
    obtain ⟨hrd, h12⟩ := h
    have hwrong : ∀ rs2 : Reg, ¬ComputesMulDiv .mulhsu rs2 (-1) (-1) ∧
        ¬ComputesMulDiv .mulhsu rs2 (-1) 0 ∧ ¬ComputesMulDiv .mulhsu rs2 0 1 := by
      decide +kernel
    by_cases h2 : rs2 = 0
    · have h1 : rs1 ≠ 0 := fun h1 => h12 ⟨h1, h2⟩
      exact ⟨-1, 0, fun he => absurd (he.trans h2) h1, fun h => absurd h h1, fun _ => rfl,
        fun hr => hr.2.elim hrd (hwrong rs2).2.1⟩
    · by_cases he : rs1 = rs2
      · exact ⟨-1, -1, fun _ => rfl, fun h => absurd (he.symm.trans h) h2,
          fun h => absurd h h2, fun hr => hr.2.elim hrd (hwrong rs2).1⟩
      · exact ⟨0, 1, fun h => absurd h he, fun _ => rfl, fun h => absurd h h2,
          fun hr => hr.2.elim hrd (hwrong rs2).2.2⟩
  | mulhu =>
    simp only [RightForAll, not_or] at h
    obtain ⟨hrd, h2⟩ := h
    have hwrong : ∀ rs2 : Reg,
        ¬ComputesMulDiv .mulhu rs2 (-1) (-1) ∧ ¬ComputesMulDiv .mulhu rs2 0 1 := by
      decide +kernel
    by_cases he : rs1 = rs2
    · exact ⟨-1, -1, fun _ => rfl, fun h => absurd (he.symm.trans h) h2, fun h => absurd h h2,
        fun hr => hr.2.elim hrd (hwrong rs2).1⟩
    · exact ⟨0, 1, fun h => absurd h he, fun _ => rfl, fun h => absurd h h2,
        fun hr => hr.2.elim hrd (hwrong rs2).2⟩

/-- The choices of registers with the right result for all operands. -/
theorem rightForAll_iff (instr : RvM) : RightForAll instr ↔
    ∀ regs : Reg → Word, regs 0 = 0 →
      MulDivRight instr (regs instr.rs1) (regs instr.rs2) := by
  refine ⟨fun h regs h0 => rightForAll_right h h0, ?_⟩
  intro h
  by_contra hwrong
  obtain ⟨a, b, heq, h1, h2, hab⟩ := exists_wrong_operands hwrong
  obtain ⟨regs, h0, ha, hb⟩ := exists_regs heq h1 h2
  have := h regs h0
  rw [ha, hb] at this
  exact hab this

end RiscvEmulator.Cores
