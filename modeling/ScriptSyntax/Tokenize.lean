import ScriptSyntax.Error
import ScriptSyntax.Lexeme
import ScriptSyntax.Text.Bytes
import ScriptSyntax.Token

/-! Source text into tokens. Blanks and comments leave none, and an end of input closes the list. -/
namespace ScriptSyntax

/-- The name of a source that was given none. -/
def defaultFile : String := "shell"

/-- The token of a lexeme read at a place; blanks and comments have none. -/
def Lexeme.token? (place : Place) (l : Lexeme) : Option Token :=
  let text := String.ofList l.text
  let span := place.span (Text.byteCount l.text)
  match l.pattern with
  | .word => some ⟨(Keyword.ofText? text).elim .name .keyword, text, span⟩
  | .number => some ⟨.number, text, span⟩
  | .newLine => some ⟨.newLine, text, span⟩
  | .string => some ⟨.string, String.ofList (StringLiteral.denoted l.text), span⟩
  | .symbol _ => some ⟨.symbol, text, span⟩
  | .blanks | .comment => none

/-- The token that ends the input at a place. -/
def Token.endAt (p : Position) : Token := ⟨.endOfInput, "EOF", p.empty⟩

/-- The tokens of lexemes that follow each other from a place on, and the place after them. -/
def tokensFrom (place : Place) : List Lexeme → List Token × Place
  | [] => ([], place)
  | l :: ls =>
    let (tokens, stop) := tokensFrom (place.advance (Text.byteCount l.text)) ls
    ((l.token? place).toList ++ tokens, stop)

/-- The tokens of a source. It is refused as a whole if it is larger than offsets reach, or at the
first character at which no lexeme begins. -/
def tokenize (source : String) (file : Option String) : Except Error (List Token) :=
  let place := Place.start (file.getD defaultFile)
  if source.utf8ByteSize > maxOffset then
    .error ⟨.tooLarge source.utf8ByteSize, place.position⟩
  else
    let (lexemes, rest) := Lexeme.readAll source.toList
    let (tokens, stop) := tokensFrom place lexemes
    match rest with
    | [] => .ok (tokens ++ [.endAt stop.position])
    | c :: _ => .error ⟨.unrecognised (String.singleton c), stop.position⟩

end ScriptSyntax
