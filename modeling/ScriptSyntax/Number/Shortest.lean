import ScriptSyntax.Number.Numeral

/-! The shortest decimal text of a number: the fewest significant digits that read back. -/
namespace ScriptSyntax.Double

/-- Whether a decimal with as many places as the exact number rounds to the magnitude. -/
def readsBack (x : Double) (decimal : Nat) : Bool :=
  roundUnits (decimal * unitsPerOne) (Nat.pow 10 x.places) = x.units

/-- The multiple of a grid width that reads back: of the two around the number the nearer one, and
the upper if both are equally near. -/
def onGrid? (x : Double) (grid : Nat) : Option Nat :=
  let lower := x.decimal / grid * grid
  let upper := lower + grid
  if readsBack x lower && (!readsBack x upper || x.decimal - lower < upper - x.decimal) then
    some lower
  else if readsBack x upper then some upper
  else none

/-- The shortest decimal that reads back, from one digit on. Seventeen digits always do. -/
def shortest (x : Double) : Nat :=
  let width := (Nat.toDigits 10 x.decimal).length
  ((List.range' 1 17).findSome? fun count => x.onGrid? (Nat.pow 10 (width - count))).getD x.decimal

/-- A decimal with so many places, without zeros at the end and without a point that none follow. -/
def positional (places decimal : Nat) : List Char :=
  let fraction := (Nat.toDigits 10 (decimal % Nat.pow 10 places)).leftpad places '0'
  let shown := (fraction.reverse.dropWhile (· = '0')).reverse
  Nat.toDigits 10 (decimal / Nat.pow 10 places) ++ (if shown = [] then [] else '.' :: shown)

/-- A number in positional notation, whatever its size. A negative zero keeps its sign. -/
def display (x : Double) : String :=
  String.ofList ((if x.negative then ['-'] else []) ++ positional x.places x.shortest)

end ScriptSyntax.Double
