import ScriptSyntax.Proofs.Rounding

/-! The number nearest to a value. A numeral has it as long as the value is below the middle between
the largest number and the power of two above it, and has none from there on. -/
namespace ScriptSyntax.Double
variable {x y : Double} {num den : Nat}

/-- The exact value. Both zeros have the same. -/
def value (x : Double) : ℚ := (if x.negative then -(x.units : ℚ) else x.units) / unitsPerOne

/-- The magnitude in units of its last place. -/
def significand (x : Double) : Nat := x.units / unitGap x.units

/-- No number is nearer to a value. If others are as near, this is the one with an even last bit.
The sign is that of the value, so a zero has it too. -/
structure Nearest (x : Double) (exact : ℚ) : Prop where
  sign : x.negative = decide (exact < 0)
  nearest : ∀ y : Double, |exact - x.value| ≤ |exact - y.value|
  even : ∀ y : Double, y.value ≠ x.value → |exact - y.value| = |exact - x.value| →
    x.significand % 2 = 0

theorem cast_unitsPerOne : (unitsPerOne : ℚ) = 2 ^ unitExponent := by
  rw [unitsPerOne_eq, Nat.cast_pow, Nat.cast_ofNat]

private theorem unitsPerOne_pos : (0 : ℚ) < unitsPerOne := by
  rw [cast_unitsPerOne]
  positivity

/-! Distances in units. -/

theorem distance_eq (x : Double) (exact : ℚ) : |exact / unitsPerOne - x.value| =
    |exact - if x.negative then -(x.units : ℚ) else x.units| / unitsPerOne := by
  rw [value, ← sub_div, abs_div, abs_of_pos unitsPerOne_pos]

/-- Without a sign a number is the distance of its magnitude away. -/
theorem distance_of_not_negative (h : x.negative = false) (exact : ℚ) :
    |exact / unitsPerOne - x.value| = |exact - x.units| / unitsPerOne := by
  rw [distance_eq, h, if_neg Bool.false_ne_true]

/-- A sign takes a number farther away from what has none. -/
theorem le_distance {exact : ℚ} (hexact : 0 ≤ exact) (x : Double) :
    |exact - x.units| / unitsPerOne ≤ |exact / unitsPerOne - x.value| := by
  rw [distance_eq]
  apply div_le_div_of_nonneg_right _ unitsPerOne_pos.le
  split
  · have hunits : (0 : ℚ) ≤ x.units := Nat.cast_nonneg _
    rw [sub_neg_eq_add, abs_of_nonneg (add_nonneg hexact hunits)]
    apply abs_le.2
    constructor <;> linarith
  · exact le_refl _

/-! The number that a quotient of units is rounded to. -/

section
variable (hden : 0 < den) (hsign : x.negative = false) (hunits : x.units = roundUnits num den)
include hden hunits

theorem units_nearest (y : Double) :
    |(num / den : ℚ) - x.units| ≤ |(num / den : ℚ) - y.units| ∧
      (y.units ≠ x.units → |(num / den : ℚ) - y.units| ≤ |(num / den : ℚ) - x.units| →
        x.significand % 2 = 0 ∧ y.significand % 2 = 1) := by
  rw [significand, significand, hunits]
  exact roundUnits_nearest hden num (Nat.dvd_of_mod_eq_zero y.representable.2)

/-- Only zero is as near with a sign as it is without. -/
theorem units_eq_zero {negative : Double} (hnegative : negative.negative = true)
    (hsame : negative.units = x.units)
    (htie : |(num / den : ℚ) / unitsPerOne - negative.value| ≤
      |(num / den : ℚ) - x.units| / unitsPerOne) : x.units = 0 := by
  have hnonneg : (0 : ℚ) ≤ num / den := by positivity
  have hle : (num / den : ℚ) + x.units ≤ num / den := by
    have hzero := (units_nearest hden hunits (zero false)).1
    rw [distance_eq, hnegative, if_pos rfl, hsame, sub_neg_eq_add,
      abs_of_nonneg (add_nonneg hnonneg (Nat.cast_nonneg _))] at htie
    have htie := (div_le_div_iff_of_pos_right unitsPerOne_pos).1 htie
    calc
      (num / den : ℚ) + x.units ≤ |(num / den : ℚ) - x.units| := htie
      _ ≤ |(num / den : ℚ) - (0 : Nat)| := hzero
      _ = num / den := by rw [Nat.cast_zero, sub_zero, abs_of_nonneg hnonneg]
  have hunits : (x.units : ℚ) ≤ 0 := by linarith
  exact Nat.le_zero.1 (by exact_mod_cast hunits)

include hsign in
theorem nearest_of_units : x.Nearest (num / den / unitsPerOne) := by
  have hnonneg : (0 : ℚ) ≤ num / den := by positivity
  have hdistance := distance_of_not_negative hsign (num / den)
  constructor
  case sign =>
    rw [hsign, eq_comm, decide_eq_false_iff_not, not_lt]
    exact div_nonneg hnonneg unitsPerOne_pos.le
  case nearest =>
    intro y
    rw [hdistance]
    calc
      _ ≤ |(num / den : ℚ) - y.units| / unitsPerOne :=
        div_le_div_of_nonneg_right (units_nearest hden hunits y).1 unitsPerOne_pos.le
      _ ≤ _ := le_distance hnonneg y
  case even =>
    intro y hne htie
    rw [hdistance] at htie
    have hnear := (le_distance hnonneg y).trans htie.le
    have hnear := (div_le_div_iff_of_pos_right unitsPerOne_pos).1 hnear
    by_cases hsame : y.units = x.units
    · -- then they differ in the sign, and the tie is at zero
      have hnegative : y.negative = true := by
        by_contra hpositive
        rw [value, value, hsame, hsign, Bool.eq_false_iff.2 hpositive] at hne
        exact hne rfl
      rw [significand, units_eq_zero hden hunits hnegative hsame htie.le]
      rfl
    · exact ((units_nearest hden hunits y).2 hsame hnear).1

include hsign in
/-- There is one nearest number. -/
theorem nearest_iff : y.Nearest (num / den / unitsPerOne) ↔ y = x := by
  have hx := nearest_of_units hden hsign hunits
  constructor
  · intro hy
    have hsame : y.negative = x.negative := hy.sign.trans hx.sign.symm
    have htie := le_antisymm (hx.nearest y) (hy.nearest x)
    have hunitsTie := htie
    rw [distance_of_not_negative hsign, distance_of_not_negative (hsame.trans hsign),
      div_left_inj' unitsPerOne_pos.ne'] at hunitsTie
    have heq : y.units = x.units := by
      by_contra hne
      obtain ⟨-, hodd⟩ := (units_nearest hden hunits y).2 hne hunitsTie.ge
      have hvalue : x.value ≠ y.value := by
        rw [value, value, hsame, hsign, if_neg Bool.false_ne_true, if_neg Bool.false_ne_true,
          Ne, div_left_inj' unitsPerOne_pos.ne', Nat.cast_inj]
        exact Ne.symm hne
      have heven := hy.even x hvalue htie
      omega
    obtain ⟨_, _, _⟩ := x
    obtain ⟨_, _, _⟩ := y
    obtain rfl : _ = _ := heq
    obtain rfl : _ = _ := hsame
    rfl
  · rintro rfl
    exact hx

end

/-! The number that a numeral spells. -/

/-- The numbers up to the middle above the largest one, in units. -/
theorem roundUnits_lt_unitLimit_iff (hden : 0 < den) (num : Nat) :
    roundUnits num den < unitLimit ↔
      (num / den / unitsPerOne : ℚ) < 2 ^ 1024 - 2 ^ 970 := by
  have hexponent : unitExponent + rangeExponent = 2044 + 54 := rfl
  rw [unitLimit_eq, hexponent, roundUnits_lt_two_pow_iff 2044 hden, div_lt_iff₀ unitsPerOne_pos,
    cast_unitsPerOne, sub_mul, ← pow_add, ← pow_add]
  rfl

/-- A numeral gives the number nearest to its value, whatever its length, up to the middle above
the largest number, and none from there on. -/
theorem toDouble?_nearest (digits places : Nat) :
    ((digits / 10 ^ places : ℚ) < 2 ^ 1024 - 2 ^ 970 →
      ∃ x, (Numeral.mk false digits (-(places : Int))).toDouble? = some x ∧
        ∀ y : Double, y.Nearest (digits / 10 ^ places) ↔ y = x) ∧
    ((2 ^ 1024 - 2 ^ 970 : ℚ) ≤ digits / 10 ^ places →
      (Numeral.mk false digits (-(places : Int))).toDouble? = none) := by
  have hden : 0 < 10 ^ places := Nat.pow_pos (by decide)
  have hexact : ((digits * unitsPerOne : Nat) / (10 ^ places : Nat) / unitsPerOne : ℚ) =
      digits / 10 ^ places := by
    rw [Nat.cast_mul, div_right_comm, mul_div_cancel_right₀ _ unitsPerOne_pos.ne', Nat.cast_pow,
      Nat.cast_ofNat]
  have hrange := roundUnits_lt_unitLimit_iff hden (digits * unitsPerOne)
  rw [toDouble?_eq, ← hexact, ← not_lt]
  constructor
  · intro hlt
    have hx := (representable_roundUnits_iff hden _).2 (hrange.2 hlt)
    exact ⟨_, dif_pos hx, fun y => nearest_iff (x := ⟨false, _, hx⟩) hden rfl rfl⟩
  · intro hlt
    exact dif_neg fun hx => hlt (hrange.1 hx.1)

end ScriptSyntax.Double
