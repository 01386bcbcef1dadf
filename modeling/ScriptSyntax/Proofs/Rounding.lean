import Mathlib.Algebra.Order.Field.Rat
import Mathlib.Tactic.Linarith
import Mathlib.Tactic.Positivity
import ScriptSyntax.Proofs.Numerals

/-! Rounding a quotient of units gives the nearest magnitude, of two equally near ones the one with
an even last bit. Near a quotient the magnitudes are the multiples of one gap, from a power of two
to the next one; farther down they are closer to each other, but farther away. -/
namespace ScriptSyntax
variable {num den n w m : Nat}

/-! Integers. -/

/-- A quotient is an integer and a part behind the point. The remainder tells the part from a half.
-/
theorem exists_part (hden : 0 < den) (num : Nat) : ∃ part : ℚ,
    (num / den : ℚ) = (num / den : Nat) + part ∧ 0 ≤ part ∧ part < 1 ∧
      (2 * (num % den) < den ↔ part < 1 / 2) ∧ (den < 2 * (num % den) ↔ 1 / 2 < part) := by
  have hpos : (0 : ℚ) < den := Nat.cast_pos.2 hden
  refine ⟨(num % den : Nat) / den, ?_, ?_, ?_, ?_, ?_⟩
  · rw [div_eq_iff hpos.ne', add_mul, div_mul_cancel₀ _ hpos.ne', ← Nat.cast_mul, ← Nat.cast_add,
      Nat.mul_comm, Nat.div_add_mod]
  · exact div_nonneg (Nat.cast_nonneg _) hpos.le
  · rw [div_lt_one hpos]
    exact Nat.cast_lt.2 (Nat.mod_lt _ hden)
  · rw [div_lt_iff₀ hpos, ← Nat.cast_lt (α := ℚ), Nat.cast_mul, Nat.cast_ofNat]
    constructor <;> intro h <;> linarith
  · rw [lt_div_iff₀ hpos, ← Nat.cast_lt (α := ℚ), Nat.cast_mul, Nat.cast_ofNat]
    constructor <;> intro h <;> linarith

/-- The nearest integer is a half away at most, and where it is a half away it is even. -/
theorem abs_sub_roundQuotient (hden : 0 < den) (num : Nat) :
    |(num / den : ℚ) - roundQuotient num den| ≤ 1 / 2 ∧
      (|(num / den : ℚ) - roundQuotient num den| = 1 / 2 → roundQuotient num den % 2 = 0) := by
  obtain ⟨part, hquotient, hnonneg, hlt, hbelow, habove⟩ := exists_part hden num
  rw [hquotient, roundQuotient]
  generalize num / den = quotient
  split
  · next h =>
    have hhalf := hbelow.1 h
    rw [add_sub_cancel_left, abs_of_nonneg hnonneg]
    exact ⟨hhalf.le, fun heq => absurd heq hhalf.ne⟩
  · next hlow =>
    split
    · next h =>
      have hhalf := habove.1 h
      have hdistance : (quotient : ℚ) + part - (quotient + 1 : Nat) = -(1 - part) := by
        push_cast
        ring
      rw [hdistance, abs_neg, abs_of_pos (by linarith)]
      exact ⟨by linarith, fun heq => absurd heq (by linarith)⟩
    · next hhigh =>
      have hhalf : part = 1 / 2 :=
        le_antisymm (not_lt.1 (mt habove.2 hhigh)) (not_lt.1 (mt hbelow.2 hlow))
      rcases Nat.mod_two_eq_zero_or_one quotient with heven | hodd
      · rw [heven, Nat.add_zero, add_sub_cancel_left, hhalf]
        exact ⟨by norm_num, fun _ => heven⟩
      · have hdistance : (quotient : ℚ) + part - (quotient + 1 : Nat) = -(1 / 2) := by
          rw [hhalf]
          push_cast
          ring
        rw [hodd, hdistance]
        exact ⟨by norm_num, fun _ => by omega⟩

/-! Gaps. -/

theorem unitGap_dvd_unitGap (h : n.log2 ≤ w.log2) : unitGap n ∣ unitGap w :=
  Nat.pow_dvd_pow 2 (Nat.sub_le_sub_right h 52)

theorem unitGap_dvd_two_pow (h : n.log2 ≤ m) : unitGap n ∣ 2 ^ m :=
  Nat.pow_dvd_pow 2 ((Nat.sub_le _ _).trans h)

/-- There is one gap from a power of two to the next one, and up from zero. -/
theorem unitGap_eq (hlow : n = 0 ∨ 2 ^ n.log2 ≤ w) (hhigh : w < 2 ^ (n.log2 + 1)) :
    unitGap w = unitGap n := by
  have hlog : w.log2 = n.log2 := by
    by_cases hw : w = 0
    · have hn : n = 0 := hlow.resolve_right (by rw [hw]; exact (Nat.pow_pos (by decide)).not_ge)
      rw [hw, hn]
    · rcases hlow with rfl | hlow
      · have hone : w = 1 := by
          rw [Nat.log2_zero] at hhigh
          omega
        rw [hone]
        decide
      · exact (Nat.log2_eq_iff hw).2 ⟨hlow, hhigh⟩
  rw [unitGap, hlog, unitGap]

/-- The last bit of a magnitude, taken with the gap below the next power of two: that power itself
has an even last bit either way. -/
theorem significand_mod_two (hlow : n = 0 ∨ 2 ^ n.log2 ≤ w) (hhigh : w ≤ 2 ^ (n.log2 + 1)) :
    w / unitGap w % 2 = w / unitGap n % 2 := by
  rcases hhigh.lt_or_eq with hlt | rfl
  · rw [unitGap_eq hlow hlt]
  · have heven {k : Nat} (hk : k < n.log2 + 1) : 2 ^ (n.log2 + 1) / 2 ^ k % 2 = 0 := by
      rw [Nat.pow_div hk.le (by decide)]
      obtain ⟨j, hj⟩ := Nat.exists_eq_add_one.2 (Nat.sub_pos_of_lt hk)
      rw [hj, Nat.pow_succ, Nat.mul_mod_left]
    have hnext : unitGap (2 ^ (n.log2 + 1)) = 2 ^ (n.log2 + 1 - 52) := by
      rw [unitGap, Nat.log2_two_pow]
      rfl
    rw [hnext, heven (by omega)]
    exact (heven (by omega)).symm

/-! Magnitudes. -/

/-- A multiple of a gap that is half the gap away at most is nearest. Another one is as near only if
it is a neighbour and both are half the gap away. -/
theorem nearest_multiple {gap x : ℚ} {i j : ℤ} (hgap : 0 < gap)
    (hnear : |x - gap * j| ≤ gap / 2) : |x - gap * j| ≤ |x - gap * i| ∧
      (i ≠ j → |x - gap * i| ≤ |x - gap * j| → |x - gap * j| = gap / 2 ∧ |i - j| = 1) := by
  by_cases hij : i = j
  · rw [hij]
    exact ⟨le_refl _, fun h => absurd rfl h⟩
  have hone : (1 : ℚ) ≤ |((i - j : ℤ) : ℚ)| := by
    rw [← Int.cast_abs]
    exact_mod_cast Int.one_le_abs (sub_ne_zero.2 hij)
  have htriangle : gap * |((i - j : ℤ) : ℚ)| ≤ |x - gap * i| + |x - gap * j| := by
    have hbetween : gap * ((i - j : ℤ) : ℚ) = (x - gap * j) - (x - gap * i) := by
      push_cast
      ring
    calc
      gap * |((i - j : ℤ) : ℚ)| = |(x - gap * j) - (x - gap * i)| := by
        rw [← hbetween, abs_mul, abs_of_pos hgap]
      _ ≤ |x - gap * j| + |x - gap * i| := abs_sub _ _
      _ = |x - gap * i| + |x - gap * j| := add_comm _ _
  have hwide : gap ≤ gap * |((i - j : ℤ) : ℚ)| := le_mul_of_one_le_right hgap.le hone
  refine ⟨by linarith, fun _ htie => ⟨by linarith, ?_⟩⟩
  have hle : gap * |((i - j : ℤ) : ℚ)| ≤ gap * 1 := by linarith
  have heq := le_antisymm (le_of_mul_le_mul_left hle hgap) hone
  rw [← Int.cast_abs] at heq
  exact_mod_cast heq

section
variable (hden : 0 < den)
include hden

/-- What is rounded is half a gap away at most, and half a gap only from an even multiple. -/
theorem abs_sub_roundUnits (num : Nat) :
    |(num / den : ℚ) - roundUnits num den| ≤ unitGap (num / den) / 2 ∧
      (|(num / den : ℚ) - roundUnits num den| = unitGap (num / den) / 2 →
        roundUnits num den / unitGap (num / den) % 2 = 0) := by
  have hgap := unitGap_pos (num / den)
  obtain ⟨hnear, heven⟩ := abs_sub_roundQuotient (Nat.mul_pos hden hgap) num
  rw [roundUnits]
  generalize unitGap (num / den) = gap at *
  have hpos : (0 : ℚ) < gap := Nat.cast_pos.2 hgap
  have hscale : |(num / den : ℚ) - (roundQuotient num (den * gap) * gap : Nat)| =
      |(num / (den * gap : Nat) : ℚ) - roundQuotient num (den * gap)| * gap := by
    have hdistance : (num / den : ℚ) - (roundQuotient num (den * gap) * gap : Nat) =
        (num / (den * gap : Nat) - roundQuotient num (den * gap)) * gap := by
      rw [sub_mul, Nat.cast_mul, Nat.cast_mul, ← div_div, div_mul_cancel₀ _ hpos.ne']
    rw [hdistance, abs_mul, abs_of_pos hpos]
  rw [hscale, Nat.mul_div_cancel _ hgap]
  constructor
  · calc
      _ ≤ 1 / 2 * (gap : ℚ) := mul_le_mul_of_nonneg_right hnear hpos.le
      _ = gap / 2 := by ring
  · intro heq
    apply heven
    rw [← mul_left_inj' hpos.ne', heq]
    ring

/-- A multiple of the gap is not nearer, and in a tie its last bit is the other one. -/
theorem nearest_of_unitGap_dvd (hm : unitGap (num / den) ∣ m) :
    |(num / den : ℚ) - roundUnits num den| ≤ |(num / den : ℚ) - m| ∧
      (m ≠ roundUnits num den → |(num / den : ℚ) - m| ≤ |(num / den : ℚ) - roundUnits num den| →
        roundUnits num den / unitGap (num / den) % 2 = 0 ∧
        m / unitGap (num / den) % 2 = 1) := by
  have hgap := unitGap_pos (num / den)
  obtain ⟨hnear, heven⟩ := abs_sub_roundUnits hden num
  obtain ⟨i, rfl⟩ := hm
  obtain ⟨j, hj⟩ : unitGap (num / den) ∣ roundUnits num den := ⟨_, Nat.mul_comm _ _⟩
  rw [hj] at hnear heven ⊢
  rw [Nat.mul_div_cancel_left _ hgap] at heven
  rw [Nat.mul_div_cancel_left _ hgap, Nat.mul_div_cancel_left _ hgap]
  rw [Nat.cast_mul] at hnear heven ⊢
  rw [Nat.cast_mul]
  obtain ⟨hle, htie⟩ := nearest_multiple (i := i) (j := j) (Nat.cast_pos.2 hgap) hnear
  refine ⟨hle, fun hne hnearer => ?_⟩
  have hij : (i : ℤ) ≠ j := fun h => hne (congrArg _ (Int.ofNat_inj.1 h))
  obtain ⟨hhalf, hneighbour⟩ := htie hij hnearer
  have hlast := heven hhalf
  refine ⟨hlast, ?_⟩
  rcases (abs_eq Int.one_nonneg).1 hneighbour with hnext | hnext <;> omega

/-- A quotient stands between two powers of two, if it is one at least. -/
theorem two_pow_le_quotient (hone : num / den ≠ 0) : (2 ^ (num / den).log2 : ℚ) ≤ num / den := by
  rw [le_div_iff₀ (Nat.cast_pos.2 hden)]
  exact_mod_cast (Nat.le_div_iff_mul_le hden).1 (Nat.log2_self_le hone)

theorem quotient_lt_two_pow (num : Nat) : (num / den : ℚ) < 2 ^ ((num / den).log2 + 1) := by
  rw [div_lt_iff₀ (Nat.cast_pos.2 hden)]
  exact_mod_cast (Nat.div_lt_iff_lt_mul hden).1 Nat.lt_log2_self

/-- Rounding does not go beyond the next power of two. -/
theorem roundUnits_le_two_pow (num : Nat) : roundUnits num den ≤ 2 ^ ((num / den).log2 + 1) := by
  have hlt := quotient_lt_two_pow hden num
  have hnear := (nearest_of_unitGap_dvd (m := 2 ^ ((num / den).log2 + 1)) hden
    (unitGap_dvd_two_pow (Nat.le_succ _))).1
  rw [Nat.cast_pow, Nat.cast_ofNat, abs_of_neg (sub_neg.2 hlt), neg_sub] at hnear
  have hle := (abs_le.1 hnear).1
  have hcast : (roundUnits num den : ℚ) ≤ 2 ^ ((num / den).log2 + 1) := by linarith
  exact_mod_cast hcast

omit hden in
theorem zero_or_le_roundUnits (num den : Nat) :
    num / den = 0 ∨ 2 ^ (num / den).log2 ≤ roundUnits num den :=
  or_iff_not_imp_left.2 two_pow_log2_le_roundUnits

/-- The nearest magnitude, in range or not. One that is as near has another last bit. -/
theorem roundUnits_nearest (num : Nat) (hw : unitGap w ∣ w) :
    |(num / den : ℚ) - roundUnits num den| ≤ |(num / den : ℚ) - w| ∧
      (w ≠ roundUnits num den → |(num / den : ℚ) - w| ≤ |(num / den : ℚ) - roundUnits num den| →
        roundUnits num den / unitGap (roundUnits num den) % 2 = 0 ∧ w / unitGap w % 2 = 1) := by
  have hbelow := quotient_lt_two_pow hden num
  by_cases hlow : num / den = 0 ∨ 2 ^ (num / den).log2 ≤ w
  · have hdvd : unitGap (num / den) ∣ w := by
      rcases hlow with hzero | hlow
      · rw [hzero]
        exact one_dvd w
      · have hne : w ≠ 0 := ((Nat.pow_pos (by decide)).trans_le hlow).ne'
        exact (unitGap_dvd_unitGap ((Nat.le_log2 hne).2 hlow)).trans hw
    obtain ⟨hnear, htie⟩ := nearest_of_unitGap_dvd hden hdvd
    refine ⟨hnear, fun hne hnearer => ?_⟩
    have hhigh : w ≤ 2 ^ ((num / den).log2 + 1) := by
      -- what is farther up is farther away than the power of two
      by_contra hlt
      have hpower : (2 : ℚ) ^ ((num / den).log2 + 1) < w := by exact_mod_cast not_le.1 hlt
      have hnext := (nearest_of_unitGap_dvd (m := 2 ^ ((num / den).log2 + 1)) hden
        (unitGap_dvd_two_pow (Nat.le_succ _))).1
      rw [Nat.cast_pow, Nat.cast_ofNat, abs_of_neg (sub_neg.2 hbelow)] at hnext
      rw [abs_of_neg (sub_neg.2 (hbelow.trans hpower))] at hnearer
      linarith
    rw [significand_mod_two hlow hhigh,
      significand_mod_two (zero_or_le_roundUnits num den) (roundUnits_le_two_pow hden num)]
    exact htie hne hnearer
  · -- what is farther down is farther away than the power of two
    obtain ⟨hone, hlt⟩ := not_or.1 hlow
    have habove := two_pow_le_quotient hden hone
    have hpower : (w : ℚ) < 2 ^ (num / den).log2 := by exact_mod_cast not_le.1 hlt
    have hnext := (nearest_of_unitGap_dvd (m := 2 ^ (num / den).log2) hden
      (unitGap_dvd_two_pow (Nat.le_refl _))).1
    rw [Nat.cast_pow, Nat.cast_ofNat, abs_of_nonneg (sub_nonneg.2 habove)] at hnext
    rw [abs_of_pos (sub_pos.2 (hpower.trans_le habove))]
    exact ⟨by linarith, fun _ hnearer => by linarith⟩

/-- What is rounded is a magnitude, but for the range. -/
theorem unitGap_dvd_roundUnits (num : Nat) : unitGap (roundUnits num den) ∣ roundUnits num den := by
  rcases (roundUnits_le_two_pow hden num).lt_or_eq with hlt | heq
  · rw [unitGap_eq (zero_or_le_roundUnits num den) hlt]
    exact ⟨_, Nat.mul_comm _ _⟩
  · rw [heq]
    exact unitGap_dvd_two_pow (Nat.le_of_eq Nat.log2_two_pow)

theorem representable_roundUnits_iff (num : Nat) :
    Representable (roundUnits num den) ↔ roundUnits num den < unitLimit :=
  and_iff_left (Nat.mod_eq_zero_of_dvd (unitGap_dvd_roundUnits hden num))

end

/-! The range. -/

section
variable (exponent : Nat)

theorem unitGap_two_pow : unitGap (2 ^ (exponent + 54)) = 2 ^ (exponent + 2) := by
  rw [unitGap, Nat.log2_two_pow]
  rfl

/-- The gap below a power of two. -/
theorem unitGap_below (hlow : 2 ^ (exponent + 53) ≤ w) (hhigh : w < 2 ^ (exponent + 54)) :
    unitGap w = 2 ^ (exponent + 1) := by
  have hne : w ≠ 0 := ((Nat.pow_pos (by decide)).trans_le hlow).ne'
  rw [unitGap, (Nat.log2_eq_iff hne).2 ⟨hlow, hhigh⟩]
  rfl

/-- The largest magnitude below a power of two. -/
theorem unitGap_dvd_largest :
    unitGap (2 ^ (exponent + 54) - 2 ^ (exponent + 1)) ∣
      2 ^ (exponent + 54) - 2 ^ (exponent + 1) := by
  have hpos : 0 < 2 ^ exponent := Nat.pow_pos (by decide)
  rw [unitGap_below exponent (by rw [Nat.pow_add, Nat.pow_add, Nat.pow_add]; omega)
    (Nat.sub_lt (Nat.pow_pos (by decide)) (Nat.pow_pos (by decide)))]
  exact Nat.dvd_sub (Nat.pow_dvd_pow 2 (by omega)) (Nat.dvd_refl _)

theorem le_largest (hw : unitGap w ∣ w) (hhigh : w < 2 ^ (exponent + 54)) :
    w ≤ 2 ^ (exponent + 54) - 2 ^ (exponent + 1) := by
  by_cases hlow : 2 ^ (exponent + 53) ≤ w
  · rw [unitGap_below exponent hlow hhigh] at hw
    obtain ⟨count, rfl⟩ := hw
    have hall : 2 ^ (exponent + 54) = 2 ^ (exponent + 1) * 2 ^ 53 := by rw [← Nat.pow_add]
    rw [hall] at hhigh ⊢
    have hcount : count + 1 ≤ 2 ^ 53 := Nat.lt_of_mul_lt_mul_left hhigh
    apply Nat.le_sub_of_add_le
    calc
      2 ^ (exponent + 1) * count + 2 ^ (exponent + 1) = 2 ^ (exponent + 1) * (count + 1) := by ring
      _ ≤ 2 ^ (exponent + 1) * 2 ^ 53 := Nat.mul_le_mul_left _ hcount
  · rw [Nat.pow_add] at hlow ⊢
    rw [Nat.pow_add]
    omega

/-- A quotient rounds to a number below a power of two if it is below the middle between that and
the largest magnitude that is less. In the middle the power has the even last bit. -/
theorem roundUnits_lt_two_pow_iff (hden : 0 < den) (num : Nat) :
    roundUnits num den < 2 ^ (exponent + 54) ↔
      (num / den : ℚ) < 2 ^ (exponent + 54) - 2 ^ exponent := by
  have hcast : ((2 ^ (exponent + 54) - 2 ^ (exponent + 1) : Nat) : ℚ) =
      2 ^ (exponent + 54) - 2 * 2 ^ exponent := by
    rw [Nat.cast_sub (Nat.pow_le_pow_right (by decide) (by omega)), Nat.cast_pow, Nat.cast_pow,
      Nat.cast_ofNat, pow_succ' 2 exponent]
  have hpos : (0 : ℚ) < 2 ^ exponent := by positivity
  constructor
  · intro hlt
    have hle : (roundUnits num den : ℚ) ≤ 2 ^ (exponent + 54) - 2 * 2 ^ exponent := by
      rw [← hcast]
      exact_mod_cast le_largest exponent (unitGap_dvd_roundUnits hden num) hlt
    have hpower : unitGap (2 ^ (exponent + 54)) ∣ 2 ^ (exponent + 54) := by
      rw [unitGap_two_pow]
      exact Nat.pow_dvd_pow 2 (by omega)
    have htie := (roundUnits_nearest hden num hpower).2 hlt.ne'
    rw [unitGap_two_pow, Nat.pow_div (by omega) (by decide), Nat.add_sub_add_left] at htie
    by_contra hmiddle
    -- the power is as near as the largest magnitude, but has no odd last bit
    have hnearer : |(num / den : ℚ) - (2 ^ (exponent + 54) : Nat)| ≤
        |(num / den : ℚ) - roundUnits num den| := by
      have habove : (0 : ℚ) < num / den - roundUnits num den := by linarith
      rw [Nat.cast_pow, Nat.cast_ofNat, abs_of_pos habove]
      apply abs_le.2
      constructor <;> linarith
    exact absurd (htie hnearer).2 (by decide)
  · intro hlt
    obtain ⟨hnear, -⟩ := roundUnits_nearest hden num (unitGap_dvd_largest exponent)
    by_contra hhigh
    have hpower : (2 ^ (exponent + 54) : ℚ) ≤ roundUnits num den := by
      exact_mod_cast not_lt.1 hhigh
    rw [hcast, abs_of_neg (by linarith : (num / den : ℚ) - roundUnits num den < 0)] at hnear
    rcases le_total (num / den : ℚ) (2 ^ (exponent + 54) - 2 * 2 ^ exponent) with hle | hle
    · rw [abs_of_nonpos (sub_nonpos.2 hle)] at hnear
      linarith
    · rw [abs_of_nonneg (sub_nonneg.2 hle)] at hnear
      linarith

end

end ScriptSyntax
