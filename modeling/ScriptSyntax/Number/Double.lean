/-! Finite binary floating-point numbers of 64 bits as exact counts. A magnitude is a number of
units of 2^-1074, the least positive one, so all arithmetic is exact arithmetic on naturals. -/
namespace ScriptSyntax

/-- One is two to this power in units. -/
def unitExponent : Nat := 1074

/-- Magnitudes are below two to this power. -/
def rangeExponent : Nat := 1024

def unitsPerOne : Nat := Nat.pow 2 unitExponent

/-- The first count of units that is out of range. -/
def unitLimit : Nat := Nat.pow 2 (unitExponent + rangeExponent)

/-- The distance between neighbouring magnitudes near a count of units: they have 53 bits. -/
def unitGap (units : Nat) : Nat := Nat.pow 2 (units.log2 - 52)

/-- Counts that are magnitudes: in range, and of no more than 53 bits after the last zeros. -/
def Representable (units : Nat) : Prop := units < unitLimit ∧ units % unitGap units = 0

instance (units : Nat) : Decidable (Representable units) :=
  inferInstanceAs (Decidable (units < unitLimit ∧ units % unitGap units = 0))

/-- A finite number. Zero has both signs. -/
structure Double where
  negative : Bool
  units : Nat
  representable : Representable units
  deriving DecidableEq, Repr

/-- The integer nearest to a quotient; of two equally near the even one. -/
def roundQuotient (num den : Nat) : Nat :=
  let quotient := num / den
  let twice := 2 * (num % den)
  if twice < den then quotient
  else if den < twice then quotient + 1
  else quotient + quotient % 2

/-- A quotient of units rounded to 53 bits: the nearest magnitude, of two the one with an even last
bit, as if there were no largest one. -/
def roundUnits (num den : Nat) : Nat :=
  let gap := unitGap (num / den)
  roundQuotient num (den * gap) * gap

namespace Double

theorem representable_zero : Representable 0 := by decide +kernel

def zero (negative : Bool) : Double := ⟨negative, 0, representable_zero⟩

/-- The number nearest to a positive quotient. There is none from the middle between the largest
number and 2^1024 on. -/
def ofQuotient? (negative : Bool) (num den : Nat) : Option Double :=
  let units := roundUnits (num * unitsPerOne) den
  if h : Representable units then some ⟨negative, units, h⟩ else none

/-- The number of decimal places of the exact number: in lowest terms its denominator is two to this
power. -/
def places (x : Double) : Nat := (unitsPerOne / Nat.gcd x.units unitsPerOne).log2

/-- The magnitude in decimal, exact, with that many places. -/
def decimal (x : Double) : Nat := x.units * Nat.pow 10 x.places / unitsPerOne

end Double
end ScriptSyntax
