import Mathlib.Data.List.TakeWhile
import Mathlib.Data.Nat.Prime.Basic
import Mathlib.Tactic.Ring
import ScriptSyntax.Lexeme
import ScriptSyntax.Number.Shortest

/-! The decimal text of a number reads back as the number, whatever number it is. -/
namespace ScriptSyntax

/-! Rounding a quotient. -/

private theorem roundQuotient_scale {c : Nat} (hc : 0 < c) (num den : Nat) :
    roundQuotient (num * c) (den * c) = roundQuotient num den := by
  have htwice : 2 * (num % den * c) = 2 * (num % den) * c := by ring
  simp only [roundQuotient, Nat.mul_div_mul_right _ _ hc, Nat.mul_mod_mul_right, htwice,
    Nat.mul_lt_mul_right hc]

/-- Rounding looks at the quotient alone. -/
theorem roundUnits_scale {c : Nat} (hc : 0 < c) (num den : Nat) :
    roundUnits (num * c) (den * c) = roundUnits num den := by
  have hden : ∀ gap, den * c * gap = den * gap * c := fun gap => by ring
  simp only [roundUnits, Nat.mul_div_mul_right _ _ hc, hden, roundQuotient_scale hc]

private theorem roundQuotient_zero_right (num : Nat) {den : Nat} (h : num % den = 0)
    (hden : 0 < den) : roundQuotient num den = num / den := by
  rw [roundQuotient, h]
  exact if_pos hden

private theorem two_pow_pos (exponent : Nat) : 0 < Nat.pow 2 exponent := Nat.pow_pos (by decide)

theorem unitGap_pos (units : Nat) : 0 < unitGap units := two_pow_pos _

theorem unitLimit_pos : 0 < unitLimit := by
  unfold unitLimit
  exact two_pow_pos _

/-- A magnitude rounds to itself. -/
theorem roundUnits_self {units : Nat} (h : Representable units) : roundUnits units 1 = units := by
  have hgap : roundQuotient units (1 * unitGap units) = units / unitGap units := by
    rw [Nat.one_mul, roundQuotient_zero_right _ h.2 (unitGap_pos _)]
  rw [roundUnits, Nat.div_one, hgap]
  exact Nat.div_mul_cancel (Nat.dvd_of_mod_eq_zero h.2)

/-- What is less than half a unit rounds to none. -/
theorem roundUnits_tiny {num den : Nat} (h : 2 * num < den) : roundUnits num den = 0 := by
  have hlt : num < den := by omega
  have hgap : unitGap 0 = 1 := by decide
  have hround : roundQuotient num den = 0 := by
    rw [roundQuotient, Nat.mod_eq_of_lt hlt, if_pos h, Nat.div_eq_of_lt hlt]
  rw [roundUnits, Nat.div_eq_of_lt hlt, hgap, Nat.mul_one, Nat.mul_one, hround]

private theorem div_le_roundQuotient (num den : Nat) : num / den ≤ roundQuotient num den := by
  rw [roundQuotient]
  split
  · exact Nat.le_refl _
  · split <;> omega

/-- Rounding does not go below a power of two. -/
theorem two_pow_log2_le_roundUnits {num den : Nat} (h : num / den ≠ 0) :
    2 ^ (num / den).log2 ≤ roundUnits num den := by
  have hlog := Nat.log2_self_le h
  obtain ⟨count, hcount⟩ : unitGap (num / den) ∣ 2 ^ (num / den).log2 :=
    Nat.pow_dvd_pow 2 (Nat.sub_le _ _)
  have hgap := unitGap_pos (num / den)
  have hdiv : count ≤ num / (den * unitGap (num / den)) := by
    rw [← Nat.div_div_eq_div_mul, Nat.le_div_iff_mul_le hgap, Nat.mul_comm, ← hcount]
    exact hlog
  calc
    2 ^ (num / den).log2 = count * unitGap (num / den) := by rw [hcount, Nat.mul_comm]
    _ ≤ roundUnits num den :=
      Nat.mul_le_mul_right _ (hdiv.trans (div_le_roundQuotient _ _))

/-- What is out of range is so after rounding. -/
theorem unitLimit_le_roundUnits {num den : Nat} (hden : 0 < den) (h : unitLimit * den ≤ num) :
    unitLimit ≤ roundUnits num den := by
  have hle : unitLimit ≤ num / den := (Nat.le_div_iff_mul_le hden).2 h
  have hne : num / den ≠ 0 := Nat.ne_of_gt (unitLimit_pos.trans_le hle)
  unfold unitLimit at hle ⊢
  generalize unitExponent + rangeExponent = exponent at hle ⊢
  have hexponent : exponent ≤ (num / den).log2 := (Nat.le_log2 hne).2 hle
  exact (Nat.pow_le_pow_right (by decide) hexponent).trans (two_pow_log2_le_roundUnits hne)

/-! The decimal that is shown. -/
namespace Double

private theorem gcd_mul_two_pow {total : Nat} (exponent : Nat) (htotal : total = Nat.pow 2 exponent)
    (units : Nat) : Nat.gcd units total * 2 ^ (total / Nat.gcd units total).log2 = total := by
  have hdvd : Nat.gcd units total ∣ total := Nat.gcd_dvd_right _ _
  have hquotient : total / Nat.gcd units total ∣ Nat.pow 2 exponent :=
    htotal ▸ Nat.div_dvd_of_dvd hdvd
  obtain ⟨k, -, hk⟩ := (Nat.dvd_prime_pow Nat.prime_two).1 hquotient
  rw [hk, Nat.log2_two_pow, ← hk, Nat.mul_div_cancel' hdvd]

/-- The reduced denominator is two to the number of places. -/
theorem gcd_mul_two_pow_places (x : Double) :
    Nat.gcd x.units unitsPerOne * 2 ^ x.places = unitsPerOne :=
  gcd_mul_two_pow unitExponent (by delta unitsPerOne; rfl) x.units

/-- The exact decimal is exact. -/
theorem decimal_mul (x : Double) :
    x.decimal * unitsPerOne = x.units * 10 ^ x.places := by
  obtain ⟨odd, hodd⟩ : Nat.gcd x.units unitsPerOne ∣ x.units := Nat.gcd_dvd_left _ _
  refine Nat.div_mul_cancel ⟨odd * 5 ^ x.places, ?_⟩
  have hten : Nat.pow 10 x.places = 2 ^ x.places * 5 ^ x.places := by
    rw [← Nat.mul_pow]
    rfl
  calc
    x.units * Nat.pow 10 x.places
      = Nat.gcd x.units unitsPerOne * 2 ^ x.places * (odd * 5 ^ x.places) := by
        conv_lhs => rw [hodd, hten]
        ring
    _ = unitsPerOne * (odd * 5 ^ x.places) := by rw [gcd_mul_two_pow_places]

theorem readsBack_decimal (x : Double) : x.readsBack x.decimal = true := by
  have hround : roundUnits (x.units * 10 ^ x.places) (1 * 10 ^ x.places) = x.units :=
    (roundUnits_scale (Nat.pow_pos (by decide)) _ _).trans (roundUnits_self x.representable)
  rw [readsBack, decimal_mul, decide_eq_true_eq]
  rw [Nat.one_mul] at hround
  exact hround

theorem onGrid?_readsBack {x : Double} {grid decimal : Nat} (h : x.onGrid? grid = some decimal) :
    x.readsBack decimal = true := by
  simp only [onGrid?, Bool.and_eq_true] at h
  split at h
  · next hlower =>
    rw [← Option.some.inj h]
    exact hlower.1
  · split at h
    · next hupper =>
      rw [← Option.some.inj h]
      exact hupper
    · cases h

/-- The shortest decimal rounds to the number that it is the shortest of. -/
theorem readsBack_shortest (x : Double) : x.readsBack x.shortest = true := by
  rw [shortest]
  cases hfound : (List.range' 1 17).findSome? fun count =>
      x.onGrid? (Nat.pow 10 ((Nat.toDigits 10 x.decimal).length - count)) with
  | none => exact x.readsBack_decimal
  | some decimal =>
    obtain ⟨count, -, hcount⟩ := List.exists_of_findSome?_eq_some hfound
    exact onGrid?_readsBack hcount

end Double

/-! Positional text. -/

private theorem dropWhile_replicate (cs : List Char) : ∃ zeros,
    cs = (cs.reverse.dropWhile (· = '0')).reverse ++ List.replicate zeros '0' := by
  refine ⟨(cs.reverse.takeWhile (· = '0')).length, ?_⟩
  have hzeros : cs.reverse.takeWhile (· = '0') =
      List.replicate (cs.reverse.takeWhile (· = '0')).length '0' := by
    refine List.eq_replicate_iff.2 ⟨rfl, fun c hc => ?_⟩
    simpa using List.mem_takeWhile_imp hc
  have hsplit := congrArg List.reverse
    (List.takeWhile_append_dropWhile (p := (· = '0')) (l := cs.reverse))
  rw [List.reverse_append, List.reverse_reverse, hzeros, List.reverse_replicate] at hsplit
  exact hsplit.symm

namespace Double

/-- All places of a decimal behind the point. -/
def fraction (places decimal : Nat) : List Char :=
  (Nat.toDigits 10 (decimal % Nat.pow 10 places)).leftpad places '0'

/-- The places that are shown. -/
def shown (places decimal : Nat) : List Char :=
  ((fraction places decimal).reverse.dropWhile (· = '0')).reverse

/-- The digits behind the point with the point, which is not shown without them. -/
def pointed (fraction : List Char) : List Char := if fraction = [] then [] else '.' :: fraction

variable (places decimal : Nat)

theorem positional_eq : positional places decimal =
    Nat.toDigits 10 (decimal / 10 ^ places) ++
      pointed (shown places decimal) := rfl

theorem fraction_digits : ∀ c ∈ fraction places decimal, c.isDigit = true := by
  intro c hc
  rcases List.mem_append.1 hc with hc | hc
  · rw [List.eq_of_mem_replicate hc]
    rfl
  · exact Nat.isDigit_of_mem_toDigits (by decide) (by decide) hc

theorem shown_digits : ∀ c ∈ shown places decimal, c.isDigit = true := by
  obtain ⟨zeros, hzeros⟩ := dropWhile_replicate (fraction places decimal)
  intro c hc
  apply fraction_digits places decimal c
  rw [hzeros]
  exact List.mem_append_left _ hc

variable {places} in
theorem length_fraction (hplaces : 0 < places) : (fraction places decimal).length = places := by
  have hle : (Nat.toDigits 10 (decimal % Nat.pow 10 places)).length ≤ places :=
    (Nat.length_toDigits_le_iff (by decide) hplaces).2 (Nat.mod_lt _ (Nat.pow_pos (by decide)))
  rw [fraction, List.leftpad, List.length_append, List.length_replicate]
  omega

theorem length_shown_le : (shown places decimal).length ≤ places := by
  cases places with
  | zero => simp [shown, fraction, List.leftpad, Nat.mod_one]
  | succ n =>
    calc
      (shown (n + 1) decimal).length ≤ (fraction (n + 1) decimal).reverse.length := by
        rw [shown, List.length_reverse]
        exact List.length_dropWhile_le _ _
      _ = n + 1 := by rw [List.length_reverse, length_fraction decimal n.succ_pos]

/-- The value of the shown places is that of all places. -/
theorem shown_value : Nat.ofDigitChars 10 (shown places decimal) 0 * 10 ^ places =
    decimal % 10 ^ places * 10 ^ (shown places decimal).length := by
  cases places with
  | zero => simp [shown, fraction, List.leftpad, Nat.mod_one]
  | succ n =>
    obtain ⟨zeros, hzeros⟩ := dropWhile_replicate (fraction (n + 1) decimal)
    rw [← shown] at hzeros
    have hlength : (shown (n + 1) decimal).length + zeros = n + 1 := by
      have hfraction := length_fraction decimal n.succ_pos
      rw [hzeros, List.length_append, List.length_replicate] at hfraction
      exact hfraction
    have hvalue : Nat.ofDigitChars 10 (fraction (n + 1) decimal) 0 = decimal % 10 ^ (n + 1) := by
      rw [fraction, List.leftpad, Nat.ofDigitChars_append, Nat.ofDigitChars_replicate_zero,
        Nat.mul_zero, Nat.ofDigitChars_ten_toDigits]
      rfl
    rw [hzeros, Nat.ofDigitChars_append, Nat.ofDigitChars_replicate_zero] at hvalue
    have hpow : 10 ^ (n + 1) = 10 ^ (shown (n + 1) decimal).length * 10 ^ zeros := by
      rw [← Nat.pow_add, hlength]
    rw [← hvalue, hpow]
    ring

/-- The value of all digits that are written. -/
theorem positional_value :
    Nat.ofDigitChars 10 (Nat.toDigits 10 (decimal / 10 ^ places) ++ shown places decimal) 0 *
      10 ^ places = decimal * 10 ^ (shown places decimal).length := by
  rw [Nat.ofDigitChars_append, Nat.ofDigitChars_ten_toDigits,
    Nat.ofDigitChars_eq_ofDigitChars_zero, Nat.add_mul, shown_value]
  generalize (shown places decimal).length = length
  conv_rhs => rw [← Nat.div_add_mod decimal (10 ^ places)]
  ring

/-! Reading the text. -/

private theorem takeWhile_digits {cs rest : List Char} (h : ∀ c ∈ cs, c.isDigit = true)
    (hrest : ∀ c ∈ rest.head?, c.isDigit = false) :
    (cs ++ rest).takeWhile Char.isDigit = cs ∧ (cs ++ rest).dropWhile Char.isDigit = rest := by
  induction cs with
  | nil =>
    cases rest with
    | nil => exact ⟨rfl, rfl⟩
    | cons c rest =>
      have hc : c.isDigit = false := hrest c rfl
      simp [hc]
  | cons c cs ih =>
    obtain ⟨hc, hcs⟩ := List.forall_mem_cons.1 h
    obtain ⟨htake, hdrop⟩ := ih hcs
    simp [hc, htake, hdrop]

section
variable {whole fraction : List Char} (hwhole : ∀ c ∈ whole, c.isDigit = true)
  (hfraction : ∀ c ∈ fraction, c.isDigit = true)

include hwhole in
private theorem whole_pointed (fraction : List Char) :
    (whole ++ pointed fraction).takeWhile Char.isDigit = whole ∧
    (whole ++ pointed fraction).dropWhile Char.isDigit = pointed fraction := by
  apply takeWhile_digits hwhole
  rw [pointed]
  split
  · simp
  · simp

include hfraction in
private theorem fraction_all : fraction.takeWhile Char.isDigit = fraction ∧
    fraction.dropWhile Char.isDigit = [] := by
  have hrest : ∀ c ∈ ([] : List Char).head?, c.isDigit = false := by simp
  obtain ⟨htake, hdrop⟩ := takeWhile_digits hfraction hrest
  rw [List.append_nil] at htake hdrop
  exact ⟨htake, hdrop⟩

include hwhole hfraction in
theorem readNumber?_pointed (hne : whole ≠ []) :
    Pattern.readNumber? (whole ++ pointed fraction) = some (whole ++ pointed fraction) := by
  obtain ⟨htake, hdrop⟩ := whole_pointed hwhole fraction
  have hpart : Pattern.fractionPart (pointed fraction) = pointed fraction := by
    cases fraction with
    | nil => rfl
    | cons c cs => simp [pointed, Pattern.fractionPart, (fraction_all hfraction).1]
  rw [Pattern.readNumber?, htake, hdrop, hpart]
  cases whole with
  | nil => exact absurd rfl hne
  | cons c cs => rfl

include hwhole in
private theorem readSign_whole (hne : whole ≠ []) (rest : List Char) (negative : Bool) :
    Numeral.readSign ((if negative then ['-'] else []) ++ (whole ++ rest)) =
      (negative, whole ++ rest) := by
  cases negative with
  | true => rfl
  | false =>
    cases whole with
    | nil => exact absurd rfl hne
    | cons c cs =>
      have hc : c.isDigit = true := hwhole c List.mem_cons_self
      rw [Numeral.readSign.eq_def]
      split
      · next h =>
        obtain ⟨rfl, -⟩ := List.cons.inj h
        cases hc
      · next h =>
        obtain ⟨rfl, -⟩ := List.cons.inj h
        cases hc
      · rfl

include hwhole hfraction in
/-- Digits with or without digits behind a point are a numeral. -/
theorem ofChars?_pointed (hne : whole ≠ []) (negative : Bool) :
    Numeral.ofChars? ((if negative then ['-'] else []) ++ (whole ++ pointed fraction)) =
      some ⟨negative, Nat.ofDigitChars 10 (whole ++ fraction) 0, -(fraction.length : Int)⟩ := by
  obtain ⟨htake, hdrop⟩ := whole_pointed hwhole fraction
  obtain ⟨hall, hrest⟩ := fraction_all hfraction
  have hpoint : Numeral.readFraction (pointed fraction) = (fraction, []) := by
    cases fraction with
    | nil => rfl
    | cons c cs => simp [pointed, Numeral.readFraction, hall, hrest]
  have hdigits : whole ++ fraction ≠ [] := fun h => hne (List.append_eq_nil_iff.1 h).1
  simp only [Numeral.ofChars?, readSign_whole hwhole hne, htake, hdrop, hpoint, if_neg hdigits]
  simp [Numeral.readExponent?]

end

/-! The number that is read. -/

private theorem lt_pow_length (digits : Nat) : digits < 10 ^ (Nat.toDigits 10 digits).length :=
  (Nat.length_toDigits_le_iff (by decide) Nat.length_toDigits_pos).1 (Nat.le_refl _)

private theorem pow_le_of_lt_length {digits n : Nat} (hn : 0 < n)
    (h : n < (Nat.toDigits 10 digits).length) : 10 ^ n ≤ digits := by
  by_contra hlt
  exact absurd ((Nat.length_toDigits_le_iff (by decide) hn).2 (Nat.not_le.1 hlt)) (Nat.not_le.2 h)

private theorem ten_pow_pos (n : Nat) : 0 < 10 ^ n := Nat.pow_pos (by decide)

private theorem two_unitsPerOne_le : 2 * unitsPerOne ≤ 10 ^ 330 := by decide +kernel

private theorem unitLimit_le : unitLimit ≤ 10 ^ 310 * unitsPerOne := by decide +kernel

/-- So far down that the order decides, all rounds to zero. -/
private theorem roundUnits_low {digits places margin : Nat}
    (hmargin : 2 * unitsPerOne ≤ 10 ^ margin)
    (h : (Nat.toDigits 10 digits).length + margin < places) :
    roundUnits (digits * unitsPerOne) (10 ^ places) = 0 := by
  apply roundUnits_tiny
  calc
    2 * (digits * unitsPerOne) = digits * (2 * unitsPerOne) := by ring
    _ ≤ digits * 10 ^ margin := Nat.mul_le_mul_left _ hmargin
    _ < 10 ^ (Nat.toDigits 10 digits).length * 10 ^ margin :=
      Nat.mul_lt_mul_of_pos_right (lt_pow_length digits) (ten_pow_pos _)
    _ = 10 ^ ((Nat.toDigits 10 digits).length + margin) := (Nat.pow_add _ _ _).symm
    _ ≤ 10 ^ places := Nat.pow_le_pow_right (by decide) (Nat.le_of_lt h)

/-- So far up that the order decides, nothing is in range. -/
private theorem unitLimit_le_high {digits places margin : Nat}
    (hmargin : unitLimit ≤ 10 ^ margin * unitsPerOne) (hpos : 0 < margin)
    (h : places + margin < (Nat.toDigits 10 digits).length) :
    unitLimit ≤ roundUnits (digits * unitsPerOne) (10 ^ places) := by
  apply unitLimit_le_roundUnits (ten_pow_pos _)
  calc
    unitLimit * 10 ^ places ≤ 10 ^ margin * unitsPerOne * 10 ^ places :=
      Nat.mul_le_mul_right _ hmargin
    _ = 10 ^ (places + margin) * unitsPerOne := by ring
    _ ≤ digits * unitsPerOne :=
      Nat.mul_le_mul_right _ (pow_le_of_lt_length (Nat.add_pos_right _ hpos) h)

/-- A numeral without an exponent gives the number that it rounds to, if that is in range. The
shortcuts by the order make no difference. -/
theorem toDouble?_eq (negative : Bool) (digits places : Nat) :
    (Numeral.mk negative digits (-(places : Int))).toDouble? =
      if h : Representable (roundUnits (digits * unitsPerOne) (10 ^ places)) then
        some ⟨negative, _, h⟩
      else none := by
  rw [Numeral.toDouble?]
  split
  · next hlow =>
    have hzero : roundUnits (digits * unitsPerOne) (10 ^ places) = 0 := by
      rcases hlow with hdigits | horder
      · have hdigits : digits = 0 := hdigits
        rw [hdigits, Nat.zero_mul]
        exact roundUnits_tiny (ten_pow_pos _)
      · apply roundUnits_low two_unitsPerOne_le
        simp only [Numeral.order] at horder
        omega
    simp [zero, hzero, representable_zero]
  · split
    · next hhigh =>
      have hlong : places + 310 < (Nat.toDigits 10 digits).length := by
        simp only [Numeral.order] at hhigh
        omega
      have hle := unitLimit_le_high unitLimit_le (by decide) hlong
      have hout : ¬Representable (roundUnits (digits * unitsPerOne) (10 ^ places)) :=
        fun h => absurd h.1 (Nat.not_lt.2 hle)
      rw [dif_neg hout]
    · simp [ofQuotient?]

/-- A numeral that rounds to the magnitude of a number gives the number. -/
theorem toDouble?_of_rounds {x : Double} {digits places : Nat}
    (h : roundUnits (digits * unitsPerOne) (10 ^ places) = x.units) :
    (Numeral.mk x.negative digits (-(places : Int))).toDouble? = some x := by
  obtain ⟨negative, units, hrepresentable⟩ := x
  obtain rfl : _ = units := h
  rw [toDouble?_eq, dif_pos hrepresentable]

private theorem whole_digits (n : Nat) : ∀ c ∈ Nat.toDigits 10 n, c.isDigit = true :=
  fun _ => Nat.isDigit_of_mem_toDigits (by decide) (by decide)

/-- A displayed number is read as itself. -/
theorem ofText?_display (x : Double) : ofText? x.display = some x := by
  have hread := ofChars?_pointed (whole_digits (x.shortest / 10 ^ x.places))
    (shown_digits x.places x.shortest) Nat.toDigits_ne_nil x.negative
  have hvalue := positional_value x.places x.shortest
  have hrounds := x.readsBack_shortest
  rw [readsBack, decide_eq_true_eq] at hrounds
  rw [ofText?, display, String.toList_ofList, positional_eq, hread, Option.bind_some]
  generalize Nat.ofDigitChars 10 _ 0 = digits at hvalue ⊢
  generalize (shown x.places x.shortest).length = length at hvalue ⊢
  refine toDouble?_of_rounds ?_
  calc
    roundUnits (digits * unitsPerOne) (10 ^ length)
      = roundUnits (digits * unitsPerOne * 10 ^ x.places) (10 ^ length * 10 ^ x.places) :=
        (roundUnits_scale (ten_pow_pos _) _ _).symm
    _ = roundUnits (x.shortest * unitsPerOne * 10 ^ length) (10 ^ x.places * 10 ^ length) := by
        rw [Nat.mul_right_comm, hvalue, Nat.mul_right_comm, Nat.mul_comm (10 ^ length)]
    _ = roundUnits (x.shortest * unitsPerOne) (10 ^ x.places) :=
        roundUnits_scale (ten_pow_pos _) _ _
    _ = x.units := hrounds

/-- A displayed number without a sign is one numeral of the lexer. -/
theorem readNumber?_display {x : Double} (h : x.negative = false) :
    Pattern.readNumber? x.display.toList = some x.display.toList := by
  have hread := readNumber?_pointed (whole_digits (x.shortest / 10 ^ x.places))
    (shown_digits x.places x.shortest) Nat.toDigits_ne_nil
  rw [display, String.toList_ofList, h, positional_eq, if_neg Bool.false_ne_true,
    List.nil_append]
  exact hread

/-! The length of the text. -/

theorem unitsPerOne_eq : unitsPerOne = 2 ^ unitExponent := by
  delta unitsPerOne
  generalize unitExponent = exponent
  rfl

theorem unitLimit_eq : unitLimit = 2 ^ (unitExponent + rangeExponent) := by
  delta unitLimit
  generalize unitExponent + rangeExponent = exponent
  rfl

theorem places_le (x : Double) : x.places ≤ unitExponent := by
  apply (Nat.pow_le_pow_iff_right (a := 2) (by decide)).1
  have hone : 0 < unitsPerOne := by
    rw [unitsPerOne_eq]
    exact Nat.pow_pos (by decide)
  have hgcd : 0 < Nat.gcd x.units unitsPerOne := Nat.gcd_pos_of_pos_right _ hone
  calc
    2 ^ x.places ≤ Nat.gcd x.units unitsPerOne * 2 ^ x.places := Nat.le_mul_of_pos_left _ hgcd
    _ = unitsPerOne := x.gcd_mul_two_pow_places
    _ = 2 ^ unitExponent := unitsPerOne_eq

/-- The decimal that is shown is in range as the number is. -/
theorem shortest_lt (x : Double) : x.shortest < 2 ^ rangeExponent * 10 ^ x.places := by
  have hrounds := x.readsBack_shortest
  rw [readsBack, decide_eq_true_eq] at hrounds
  have hlimit : unitLimit = 2 ^ rangeExponent * unitsPerOne := by
    rw [unitLimit_eq, unitsPerOne_eq, Nat.mul_comm, Nat.pow_add]
  by_contra hge
  have hhigh : unitLimit ≤ x.units := by
    rw [← hrounds]
    apply unitLimit_le_roundUnits (ten_pow_pos _)
    rw [hlimit, Nat.mul_right_comm]
    exact Nat.mul_le_mul_right _ (Nat.not_lt.1 hge)
  exact absurd x.representable.1 (Nat.not_lt.2 hhigh)

/-- A sign, 309 digits of the largest numbers, a point, and the places of the least ones. -/
theorem length_display_le (x : Double) : x.display.toList.length ≤ 1 + (309 + (1 + 1074)) := by
  have hwhole : (Nat.toDigits 10 (x.shortest / 10 ^ x.places)).length ≤ 309 := by
    apply (Nat.length_toDigits_le_iff (by decide) (by decide)).2
    have hlt := Nat.div_lt_of_lt_mul (Nat.mul_comm _ _ ▸ x.shortest_lt)
    exact hlt.trans_le (by decide +kernel)
  have hpointed : (pointed (shown x.places x.shortest)).length ≤ 1 + 1074 := by
    have hshown := (length_shown_le x.places x.shortest).trans x.places_le
    rw [pointed]
    split
    · exact Nat.zero_le _
    · rw [List.length_cons, Nat.add_comm]
      exact Nat.add_le_add_left hshown 1
  have hsign : (if x.negative then ['-'] else []).length ≤ 1 := by
    cases x.negative <;> decide
  rw [display, String.toList_ofList, positional_eq, List.length_append, List.length_append]
  exact Nat.add_le_add hsign (Nat.add_le_add hwhole hpointed)

end Double
end ScriptSyntax
