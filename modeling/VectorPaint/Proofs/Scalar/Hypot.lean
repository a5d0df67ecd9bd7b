import VectorPaint.Proofs.Scalar.Denoted

/-!
The length of a vector with a side of half a unit. A length is taken from the squares of the sides,
or from the ratio of the sides where their squares could leave the range; in neither way is it
rounded to less than the half.
-/
namespace VectorPaint.Binary64

variable {x y large small : Float} {p q : ℝ}

theorem half_le_stored (le : 1 / 2 ≤ p) : ((1 / 2 : ℝ) : EReal) ≤ stored p := by
  rw [← denotes_half.stored_eq]
  exact stored_mono le

theorem denotes_quarter : Denotes 0.25 (1 / 4) :=
  denotes_of_decode (show decode 0.25 = .finite false (2 ^ 52) (-54) by decide +kernel)
    (by norm_num [signed])

/-- The bound up to which squares are taken. -/
theorem exists_denotes_bound : ∃ bound, Denotes 1e150 bound ∧ bound < 2 ^ 499 := by
  have read : decode 1e150 = .finite false 5503284107318959 446 := by decide +kernel
  refine ⟨_, denotes_of_decode read rfl, ?_⟩
  calc ((signed false 5503284107318959 : ℤ) * 2 ^ (446 : ℤ) : ℝ)
      < 2 ^ 53 * 2 ^ 446 := by
        rw [show (446 : ℤ) = (446 : ℕ) from rfl, zpow_natCast]
        gcongr
        norm_num [signed]
    _ = 2 ^ 499 := (pow_add ..).symm

private theorem square_lt {k : ℕ} (small : |p| < 2 ^ k) : |p * p| < 2 ^ (k + k) := by
  rw [abs_mul, pow_add]
  exact mul_lt_mul'' small small (abs_nonneg p) (abs_nonneg p)

private theorem two_pow_lt {j k : ℕ} (less : j < k) (small : |p| < 2 ^ j) : |p| < 2 ^ k :=
  small.trans (pow_lt_pow_right₀ one_lt_two less)

/-- The squares of sides that are not too long can be stored. -/
theorem half_le_sqrt_squares (first : Denotes x p) (second : Denotes y q) (p_small : |p| < 2 ^ 499)
    (q_small : |q| < 2 ^ 499) (tall : 1 / 2 ≤ |q|) :
    ((1 / 2 : ℝ) : EReal) ≤ number (x * x + y * y).sqrt := by
  have p_square := square_lt p_small
  have q_square := square_lt q_small
  have p_stored := (first.mul first).denotes (two_pow_lt (by decide) p_square)
  have q_stored := (second.mul second).denotes (two_pow_lt (by decide) q_square)
  have p_nonneg : 0 ≤ rounded (p * p) := rounded_nonneg (mul_self_nonneg p)
  have quarter : 1 / 4 ≤ rounded (q * q) := by
    refine denotes_quarter.le_rounded ?_
    rw [← abs_mul_abs_self]
    nlinarith
  have sum_small : |rounded (p * p) + rounded (q * q)| < 2 ^ 1000 := by
    have bounds := add_lt_add (abs_rounded_lt p_square) (abs_rounded_lt q_square)
    refine (abs_add_le _ _).trans_lt (bounds.trans_eq ?_)
    rw [← mul_two, ← pow_succ]
  have sum := (p_stored.add q_stored).denotes (two_pow_lt (by decide) sum_small)
  have sum_quarter : 1 / 4 ≤ rounded (rounded (p * p) + rounded (q * q)) :=
    denotes_quarter.le_rounded (by linarith)
  have root := sum.sqrt (by linarith)
  rw [root.number_eq]
  refine half_le_stored (Real.le_sqrt_of_sq_le ?_)
  linarith

/-- The ratio of the sides only makes the longer side longer. -/
theorem half_le_scaled (first : Denotes large p) (second : Denotes small q) (tall : 1 / 2 ≤ p)
    (nonneg : 0 ≤ q) (le : q ≤ p) :
    ((1 / 2 : ℝ) : EReal) ≤
      number (large * (1 + small / large * (small / large)).sqrt) := by
  have within {r : ℝ} (low : 0 ≤ r) (high : r ≤ 4) : |r| < 2 ^ 64 := by
    rw [abs_of_nonneg low]
    linarith
  have p_pos : 0 < p := one_half_pos.trans_le tall
  have ratio_nonneg : 0 ≤ q / p := by positivity
  have ratio_le : q / p ≤ 1 := (div_le_one p_pos).mpr le
  have ratio := (second.div first p_pos.ne').denotes_of_lt (within ratio_nonneg (by linarith))
  set r := rounded (q / p)
  have r_nonneg : 0 ≤ r := rounded_nonneg ratio_nonneg
  have r_le : r ≤ 1 := denotes_one.rounded_le ratio_le
  have square_nonneg : 0 ≤ r * r := by positivity
  have square_le : r * r ≤ 1 := mul_le_one₀ r_le r_nonneg r_le
  have square := (ratio.mul ratio).denotes_of_lt (within square_nonneg (by linarith))
  set s := rounded (r * r)
  have s_nonneg : 0 ≤ s := rounded_nonneg square_nonneg
  have s_le : s ≤ 1 := denotes_one.rounded_le square_le
  have sum := (denotes_one.add square).denotes_of_lt (within (by linarith) (by linarith))
  have sum_ge : 1 ≤ rounded (1 + s) := denotes_one.le_rounded (by linarith)
  have sum_small : |1 + s| < 2 ^ 2 := by
    rw [abs_of_nonneg (by linarith)]
    linarith
  have sum_lt : rounded (1 + s) < 2 ^ 3 := (le_abs_self _).trans_lt (abs_rounded_lt sum_small)
  have root_ge : 1 ≤ √(rounded (1 + s)) := Real.one_le_sqrt.mpr sum_ge
  have root_le : √(rounded (1 + s)) ≤ 4 := by
    rw [Real.sqrt_le_left (by norm_num)]
    linarith
  have root := (sum.sqrt (by linarith)).denotes_of_lt (within (by linarith) root_le)
  have scaled := first.mul root
  rw [scaled.number_eq]
  refine half_le_stored ?_
  have factor : 1 ≤ rounded √(rounded (1 + s)) := denotes_one.le_rounded root_ge
  nlinarith

section Finite

variable (x_finite : ¬ x.abs.isInf = true) (y_finite : ¬ y.abs.isInf = true)

include x_finite y_finite

/-- The three ways to a length that are not for infinite sides. -/
theorem hypot_of_not_isInf : ∃ longer shorter,
    longer = (if x.abs < y.abs then y.abs else x.abs) ∧
    shorter = (if x.abs < y.abs then x.abs else y.abs) ∧
    hypot x y =
      if 1e-140 < longer && longer < 1e150 then (x * x + y * y).sqrt
      else if longer == 0 then x.abs + y.abs
      else longer * (1 + shorter / longer * (shorter / longer)).sqrt :=
  ⟨_, _, rfl, rfl, by rw [hypot, if_neg x_finite, if_neg y_finite]⟩

/-- A side that is indeterminate makes the length indeterminate. -/
theorem determinate_of_hypot (determinate : Determinate (hypot x y)) :
    Determinate x ∧ Determinate y := by
  obtain ⟨longer, shorter, longer_eq, shorter_eq, same⟩ := hypot_of_not_isInf x_finite y_finite
  rw [same] at determinate
  split at determinate
  · obtain ⟨first, second⟩ := determinate.of_sqrt.of_add
    exact ⟨first.of_mul.1, second.of_mul.1⟩
  split at determinate
  · obtain ⟨first, second⟩ := determinate.of_add
    exact ⟨first.of_abs, second.of_abs⟩
  · obtain ⟨shorter, longer⟩ := determinate.of_mul.2.of_sqrt.of_add.2.of_mul.1.of_div
    rw [shorter_eq] at shorter
    rw [longer_eq] at longer
    split at longer
    · rename_i less
      rw [if_pos less] at shorter
      exact ⟨shorter.of_abs, longer.of_abs⟩
    · rename_i not_less
      rw [if_neg not_less] at shorter
      exact ⟨longer.of_abs, shorter.of_abs⟩

/-- A vector with a side of at least one half is at least one half long. -/
theorem Denotes.half_le_hypot (first : Denotes x p) (second : Denotes y q) (tall : 1 / 2 ≤ |q|) :
    ((1 / 2 : ℝ) : EReal) ≤ number (hypot x y) := by
  obtain ⟨longer, shorter, longer_eq, shorter_eq, same⟩ := hypot_of_not_isInf x_finite y_finite
  have greatest := longer_eq ▸ first.abs.larger second.abs
  have least := shorter_eq ▸ first.abs.smaller second.abs
  have longer_tall := tall.trans (le_max_right |p| |q|)
  rw [same]
  split
  · rename_i bounded
    obtain ⟨bound, bound_denotes, bound_lt⟩ := exists_denotes_bound
    rw [Bool.and_eq_true, decide_eq_true_iff, decide_eq_true_iff] at bounded
    have below := (greatest.lt_iff bound_denotes).mp bounded.2
    obtain ⟨p_small, q_small⟩ := max_lt_iff.mp (below.trans bound_lt)
    exact half_le_sqrt_squares first second p_small q_small tall
  split
  · -- The longer side is no zero.
    rename_i zero
    have none := (greatest.beq_iff denotes_zero).mp zero
    linarith
  · exact half_le_scaled greatest least longer_tall (le_min (abs_nonneg p) (abs_nonneg q))
      min_le_max

end Finite

/-- It is at least one half long whatever the other side, unless its length is indeterminate. -/
theorem half_le_hypot (tall : ∀ q, Denotes y q → 1 / 2 ≤ |q|)
    (determinate : Determinate (hypot x y)) :
    ((1 / 2 : ℝ) : EReal) ≤ number (hypot x y) := by
  by_cases x_infinite : x.abs.isInf = true
  · rw [hypot, if_pos x_infinite, number_abs_of_isInf x_infinite]
    exact le_top
  by_cases y_infinite : y.abs.isInf = true
  · rw [hypot, if_neg x_infinite, if_pos y_infinite, number_abs_of_isInf y_infinite]
    exact le_top
  · obtain ⟨first, second⟩ := determinate_of_hypot x_infinite y_infinite determinate
    obtain ⟨p, first⟩ := first.exists_denotes (by simpa using x_infinite)
    obtain ⟨q, second⟩ := second.exists_denotes (by simpa using y_infinite)
    exact first.half_le_hypot x_infinite y_infinite second (tall q second)

end VectorPaint.Binary64
