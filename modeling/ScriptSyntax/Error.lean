import ScriptSyntax.Position
import ScriptSyntax.Text.Quoted

/-! What can be wrong with a script, and the words in which it is reported. -/
namespace ScriptSyntax

/-- What a name is wanted for. -/
inductive NameRole where
  | variableName | loopVariableName | parameterName | propertyName
  | functionName | className | superclassName | typeName
  deriving DecidableEq, Repr

def NameRole.description : NameRole → String
  | variableName => "variable name"
  | loopVariableName => "variable name after 'as'"
  | parameterName => "parameter name"
  | propertyName => "property name after '.'"
  | functionName => "function name"
  | className => "class name"
  | superclassName => "superclass name"
  | typeName => "type name"

/-- What the grammar has to say against a token. -/
inductive Complaint where
  | expectedExpression
  | strayInExpression
  | expectedType
  | strayInType
  | expectedSymbol (text : String)
  | expectedName (role : NameRole)
  | unterminatedBlock
  | expectedSeparatorInBlock
  | expectedSeparator
  /-- A complaint in the words of a caller. -/
  | other (text : String)
  deriving DecidableEq, Repr

def Complaint.message : Complaint → String
  | expectedExpression => "expected expression"
  | strayInExpression => "unexpected token in expression"
  | expectedType => "expected type"
  | strayInType => "unexpected token in type"
  | expectedSymbol text => "expected '" ++ text ++ "'"
  | expectedName role => "expected " ++ role.description
  | unterminatedBlock => "unterminated block"
  | expectedSeparatorInBlock => "expected newline or '\x7d' after statement"
  | expectedSeparator => "expected newline after statement"
  | other text => text

/-- Why a script is refused. -/
inductive Cause where
  /-- No lexeme begins with this text. -/
  | unrecognised (text : String)
  /-- The grammar refuses a token; `found` is how the token is mentioned, if there was one. -/
  | refused (complaint : Complaint) (found : Option String)
  /-- A number token whose text is no number, or one too large. -/
  | badNumber (text : String)
  /-- The source has more bytes than there are positions. -/
  | tooLarge (size : Nat)
  deriving DecidableEq, Repr

structure Error where
  cause : Cause
  position : Position
  deriving DecidableEq, Repr

/-- The last offset that a position can hold, and so the largest size of a source. -/
def maxOffset : Nat := 4294967295

namespace Error

def name (e : Error) : String :=
  match e.cause with
  | .unrecognised _ => "UnrecognisedToken"
  | .refused _ _ => "SyntaxError"
  | .badNumber _ => "NumberParseError"
  | .tooLarge _ => "SourceTooLarge"

/-- The error in one sentence. -/
def display (e : Error) : String :=
  match e.cause with
  | .unrecognised text => "unrecognised token: " ++ Text.quoted text
  | .refused complaint _ => "syntax error: " ++ complaint.message
  | .badNumber text => "error parsing number: " ++ Text.quoted text
  | .tooLarge size => "source too large: " ++ toString size ++ " bytes"

/-- The error without its name: for a refused token the bare complaint. -/
def message (e : Error) : String :=
  match e.cause with
  | .refused complaint _ => complaint.message
  | _ => e.display

/-- The text at which the error was met, where there is one. -/
def found? (e : Error) : Option String :=
  match e.cause with
  | .unrecognised text | .badNumber text => some text
  | .refused _ found => found
  | .tooLarge _ => none

/-- What to tell beyond the name. For an unrecognised character the caret under it is enough. -/
def tip? (e : Error) : Option String :=
  match e.cause with
  | .unrecognised _ => none
  | .refused complaint none => some complaint.message
  | .refused complaint (some found) => some (complaint.message ++ ", found `" ++ found ++ "`")
  | .badNumber text => some ("Invalid number: `" ++ text ++ "`, is it above the number limit?")
  | .tooLarge size => some ("Source is " ++ toString size ++ " bytes, offsets are limited to " ++
      toString maxOffset ++ " bytes")

end Error
end ScriptSyntax
