import Mathlib.Data.Fintype.Card
import Mathlib.Data.Fintype.Prod
import Mathlib.Data.Finset.Max
import Mathlib.Tactic.Linarith

/-! # Positions in rows of one length

A position is written as a row and a place in the row. The first part is one
digit of a mixed-radix number; a number of several digits applies it once a
digit. The second part asks when the rows may begin anywhere: `q` rows of `k`
places, where place `i` lies `x i` behind the row's start. If the positions,
counted modulo some number above `q * k`, are distinct and all below `q * k`,
then no place lies outside its row. -/
namespace RiscvEmulator.Lib.MixedRadix

theorem index_lt {a b i j : ℕ} (hi : i < a) (hj : j < b) : i * b + j < a * b := by
  have hrow : (i + 1) * b ≤ a * b := Nat.mul_le_mul_right b hi
  rw [Nat.succ_mul] at hrow
  omega

theorem index_inj {b i j i' j' : ℕ} (hj : j < b) (hj' : j' < b)
    (h : i * b + j = i' * b + j') : i = i' ∧ j = j' := by
  have hmod := congrArg (· % b) h
  simp only [Nat.mul_add_mod_self_right, Nat.mod_eq_of_lt hj, Nat.mod_eq_of_lt hj'] at hmod
  have hdiv := congrArg (· / b) h
  simp only [Nat.mul_comm _ b, Nat.mul_add_div (Nat.zero_lt_of_lt hj), Nat.div_eq_of_lt hj,
    Nat.div_eq_of_lt hj', Nat.add_zero] at hdiv
  exact ⟨hdiv, hmod⟩

section Rows

variable {ι : Type} [Fintype ι] {x : ι → ℕ} {q m : ℕ}

/-- Where place `p.2` of row `p.1` lies. -/
def place (x : ι → ℕ) (q : ℕ) (p : Fin q × ι) : ℕ := p.1 * Fintype.card ι + x p.2

/-- As many positions as places: every position is some place's. -/
theorem exists_place (hinj : Function.Injective fun p => place x q p % m)
    (hlt : ∀ p, place x q p % m < q * Fintype.card ι) {v : ℕ} (hv : v < q * Fintype.card ι) :
    ∃ p, place x q p % m = v := by
  have hsurj : Function.Surjective fun p =>
      (⟨place x q p % m, hlt p⟩ : Fin (q * Fintype.card ι)) := by
    refine ((Fintype.bijective_iff_injective_and_card _).mpr ⟨?_, by simp⟩).surjective
    intro p p' h
    exact hinj (congrArg Fin.val h)
  obtain ⟨p, hp⟩ := hsurj ⟨v, hv⟩
  exact ⟨p, congrArg Fin.val hp⟩

/-- A place that passes the modulus lies at least as far into its row as the
modulus lies behind the last row. -/
theorem gap_le_offset (hlt : ∀ p, place x q p % m < q * Fintype.card ι) {i : ι}
    (hi : Fintype.card ι ≤ x i) (hx : x i < q * Fintype.card ι) :
    m ≤ q * Fintype.card ι + x i % Fintype.card ι := by
  have hk : 0 < Fintype.card ι := Fintype.card_pos_iff.mpr ⟨i⟩
  have hrow : 1 ≤ x i / Fintype.card ι := (Nat.one_le_div_iff hk).mpr hi
  have hrows : x i / Fintype.card ι < q := Nat.div_lt_of_lt_mul (by rwa [Nat.mul_comm])
  have hplace : place x q (⟨q - x i / Fintype.card ι, by omega⟩, i)
      = q * Fintype.card ι + x i % Fintype.card ι := by
    have hsplit := Nat.div_add_mod' (x i) (Fintype.card ι)
    have hsub : (q - x i / Fintype.card ι) * Fintype.card ι + x i / Fintype.card ι * Fintype.card ι
        = q * Fintype.card ι := by
      rw [← Nat.add_mul, Nat.sub_add_cancel hrows.le]
    simp only [place]
    omega
  by_contra hlast
  have h := hlt (⟨q - x i / Fintype.card ι, by omega⟩, i)
  rw [hplace, Nat.mod_eq_of_lt (by omega)] at h
  omega

/-- Of the places outside their rows, take one that lies furthest into its row:
the position as far into the first row has no place left. -/
theorem offset_lt (hm : q * Fintype.card ι < m) (hx : ∀ i, x i < q * Fintype.card ι)
    (hinj : Function.Injective fun p => place x q p % m)
    (hlt : ∀ p, place x q p % m < q * Fintype.card ι) (i : ι) : x i < Fintype.card ι := by
  classical
  by_contra hout
  obtain ⟨i, hi, hmax⟩ := Finset.exists_max_image
    (Finset.univ.filter fun i => Fintype.card ι ≤ x i) (fun i => x i % Fintype.card ι)
    ⟨i, by simpa using hout⟩
  simp only [Finset.mem_filter_univ] at hi hmax
  have hk : 0 < Fintype.card ι := Fintype.card_pos_iff.mpr ⟨i⟩
  have hrow : 1 ≤ x i / Fintype.card ι := (Nat.one_le_div_iff hk).mpr hi
  have hrows : x i / Fintype.card ι < q := Nat.div_lt_of_lt_mul (by rw [Nat.mul_comm]; exact hx i)
  have hfirst : x i % Fintype.card ι < Fintype.card ι := Nat.mod_lt _ hk
  have hsome : Fintype.card ι ≤ q * Fintype.card ι := Nat.le_mul_of_pos_left _ (by omega)
  obtain ⟨⟨r, j⟩, hr⟩ := exists_place hinj hlt (Nat.lt_of_lt_of_le hfirst hsome)
  have hsplit := Nat.div_add_mod' (x i) (Fintype.card ι)
  by_cases hwrap : place x q (r, j) < m
  · -- The position is not counted around: row 0 holds it, and place i's row holds place j too.
    rw [Nat.mod_eq_of_lt hwrap] at hr
    have hj : (r : ℕ) * Fintype.card ι + x j = x i % Fintype.card ι := hr
    have hr0 : (r : ℕ) = 0 := by
      by_contra hne
      have := Nat.le_mul_of_pos_left (Fintype.card ι) (Nat.pos_of_ne_zero hne)
      omega
    rw [hr0, Nat.zero_mul, Nat.zero_add] at hj
    have hsame : place x q (⟨x i / Fintype.card ι, hrows⟩, j) = place x q (⟨0, by omega⟩, i) := by
      simp only [place, hj, Nat.zero_mul, Nat.zero_add]
      exact hsplit
    have heq := hinj (congrArg (· % m) hsame)
    have hzero : x i / Fintype.card ι = 0 := congrArg (fun p => (p.1 : ℕ)) heq
    omega
  · -- It is counted around once: then place j lies further into its row than place i.
    have hpos : place x q (r, j) = (r : ℕ) * Fintype.card ι + x j := rfl
    have hrq : (r + 1 : ℕ) * Fintype.card ι ≤ q * Fintype.card ι := Nat.mul_le_mul_right _ r.isLt
    rw [Nat.succ_mul] at hrq
    have hxj := hx j
    rw [Nat.mod_eq_sub_mod (by omega), Nat.mod_eq_of_lt (by omega)] at hr
    have hj : Fintype.card ι ≤ x j := by omega
    have hgap := gap_le_offset hlt hj hxj
    have hlejr : x j % Fintype.card ι ≤ x i % Fintype.card ι := hmax j hj
    have hsplitj := Nat.div_add_mod' (x j) (Fintype.card ι)
    have hover : (r + x j / Fintype.card ι) * Fintype.card ι < (q + 1) * Fintype.card ι := by
      rw [Nat.add_mul, Nat.succ_mul]
      omega
    have hle : r + x j / Fintype.card ι ≤ q :=
      Nat.lt_succ_iff.mp (Nat.lt_of_mul_lt_mul_right hover)
    have hlast := Nat.mul_le_mul_right (Fintype.card ι) hle
    rw [Nat.add_mul] at hlast
    omega

end Rows

end RiscvEmulator.Lib.MixedRadix
