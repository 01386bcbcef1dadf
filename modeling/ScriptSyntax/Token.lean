import ScriptSyntax.Position
import ScriptSyntax.Text.Quoted

/-! Tokens of a script. A token's kind and its text are independent: only the tokens that come from
source text are sure to agree in both. -/
namespace ScriptSyntax

/-- The reserved words. -/
inductive Keyword where
  | kwLet | kwVar | kwIf | kwElse | kwFor | kwAs | kwReturn | kwFunction | kwClass
  deriving DecidableEq, Repr

namespace Keyword

def all : List Keyword :=
  [kwLet, kwVar, kwIf, kwElse, kwFor, kwAs, kwReturn, kwFunction, kwClass]

def text : Keyword → String
  | kwLet => "let"
  | kwVar => "var"
  | kwIf => "if"
  | kwElse => "else"
  | kwFor => "for"
  | kwAs => "as"
  | kwReturn => "return"
  | kwFunction => "function"
  | kwClass => "class"

/-- The reserved word spelled by a text. -/
def ofText? (s : String) : Option Keyword := all.find? (·.text = s)

theorem ofText?_text (k : Keyword) : ofText? k.text = some k := by cases k <;> decide

theorem ofText?_eq_some_iff {s : String} {k : Keyword} : ofText? s = some k ↔ s = k.text := by
  constructor
  · intro h
    rw [ofText?] at h
    have hk := List.find?_some h
    exact (of_decide_eq_true hk).symm
  · rintro rfl
    exact ofText?_text k

end Keyword

/-- What a token is. A reserved word is a kind of its own for each word, and no name. -/
inductive TokenKind where
  | endOfInput
  | newLine
  | number
  | string
  | symbol
  | name
  | keyword (word : Keyword)
  deriving DecidableEq, Repr

def TokenKind.display : TokenKind → String
  | endOfInput => "EOF"
  | newLine => "NewLine"
  | number => "Number"
  | string => "String"
  | symbol => "Symbol"
  | name => "Identifier"
  | keyword word => "Keyword(" ++ word.text ++ ")"

structure Token where
  kind : TokenKind
  text : String
  span : Span
  deriving DecidableEq, Repr

namespace Token

/-- A token on one line. The ends of lines and of the input show no text. -/
def display (t : Token) : String :=
  match t.kind with
  | .newLine | .endOfInput => t.kind.display
  | _ => t.kind.display ++ " (" ++ Text.escaped t.text ++ ")"

def isSymbol (t : Token) (text : String) : Bool := t.kind = .symbol && t.text = text

def isKeyword (t : Token) (word : Keyword) : Bool := t.kind = .keyword word

/-- The key of a token in the tables of a grammar: symbols and reserved words stand for themselves,
all others for their class, in brackets that no source text spells as one token. -/
def key (t : Token) : String :=
  match t.kind with
  | .symbol | .keyword _ => t.text
  | .name => "<identifier>"
  | .number => "<number>"
  | .string => "<string>"
  | .newLine => "<newline>"
  | .endOfInput => "<eof>"

/-- How an error names the token it met. -/
def mention (t : Token) : String :=
  match t.kind with
  | .newLine => "newline"
  | .endOfInput => "end of input"
  | _ => t.text

end Token
end ScriptSyntax
