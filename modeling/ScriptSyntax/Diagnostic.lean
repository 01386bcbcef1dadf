import ScriptSyntax.Error
import ScriptSyntax.Line
import ScriptSyntax.Text.WhiteSpace

/-! An error shown against its source: five lines, in the last a caret under the place above it. A
caret too far to the right is not shown at all. -/
namespace ScriptSyntax.Diagnostic

/-- Space or tab, which are dropped at the beginning of the shown line. -/
def isIndent (c : Char) : Bool := c = ' ' || c = '\t'

/-- The source line as it is shown: without its indentation and without white space at its end. -/
def shownLine (line : List Char) : List Char :=
  Text.dropTrailingSpace (line.dropWhile isIndent)

/-- The column of a point in characters; inside a character the bytes are counted instead. -/
def characterColumn (p : LinePoint) : Nat :=
  match Text.cutAt? p.column p.text.toList with
  | some (before, _) => before.length
  | none => p.column

/-- How far the caret stands from the beginning of the shown line. It does not go left of it. -/
def caretColumn (p : LinePoint) : Nat :=
  characterColumn p - (p.text.toList.takeWhile isIndent).length

/-- The error's name with its tip. -/
def headline (e : Error) : String :=
  match e.tip? with
  | none => "Error: " ++ e.name
  | some tip => "Error: " ++ e.name ++ " (" ++ tip ++ ")"

/-- A bar to the right of the line number's place. -/
def gutter (number : String) : String :=
  String.ofList (List.replicate (number.length + 1) ' ') ++ "|"

/-- The width of the widest field that can be padded. -/
def maxWidth : Nat := 65535

/-- Whether the caret with the dashes before it is a field that can be padded. No other field of a
report comes near that width. -/
def Fits (e : Error) (source : String) : Prop :=
  caretColumn (lineAt source e.position.offset) + 1 ≤ maxWidth

instance (e : Error) (source : String) : Decidable (Fits e source) := Nat.decLe _ _

/-- The text of the report on an error in a source of the given name. -/
def render (e : Error) (source file : String) : String :=
  let point := lineAt source e.position.offset
  let number := toString point.number
  headline e ++ "\n" ++
  "-> " ++ file ++ "\n" ++
  gutter number ++ "\n" ++
  number ++ " | " ++ String.ofList (shownLine point.text.toList) ++ "\n" ++
  gutter number ++ " " ++ String.ofList (List.replicate (caretColumn point) '-') ++ "^\n"

/-- The report on an error, if its caret fits. To pad a wider field is an error itself, which ends
the program. -/
def render? (e : Error) (source file : String) : Option String :=
  if Fits e source then some (render e source file) else none

theorem render?_eq_some_iff {e : Error} {source file text : String} :
    render? e source file = some text ↔ Fits e source ∧ render e source file = text := by
  simp [render?]

end ScriptSyntax.Diagnostic
