import ScriptSyntax.Text.ExtendingMark
import ScriptSyntax.Text.Printable

/-! Escaped forms of a text, in which every character shows and none breaks the line. -/
namespace ScriptSyntax.Text

/-- The letter that stands after the backslash for a character with a short escape. -/
def shortEscape? : Char → Option Char
  | '\x00' => some '0'
  | '\t' => some 't'
  | '\r' => some 'r'
  | '\n' => some 'n'
  | '\\' => some '\\'
  | _ => none

/-- A character by its code point: hexadecimal in lower case, without leading zeros, in braces. -/
def codePointEscape (c : Char) : List Char :=
  ['\\', 'u', '\x7b'] ++ Nat.toDigits 16 c.toNat ++ ['\x7d']

/-- One character escaped. The quotation marks in `quotes` take a backslash; a mark that is drawn on
the character before it is written by its code point only when `marks` is set. -/
def escapeChar (quotes : List Char) (marks : Bool) (c : Char) : List Char :=
  match shortEscape? c with
  | some letter => ['\\', letter]
  | none =>
    if c ∈ quotes then ['\\', c]
    else if marks && isExtendingMark c || !isPrintable c then codePointEscape c
    else [c]

/-- A text in double quotes, in which an apostrophe needs no escape. -/
def quoted (text : String) : String :=
  String.ofList ('"' :: text.toList.flatMap (escapeChar ['"'] true) ++ ['"'])

/-- A text escaped without quotes around it. Both quotation marks are escaped; an extending mark is
escaped in first place only, where it would attach to what stands before. -/
def escaped (text : String) : String :=
  match text.toList with
  | [] => ""
  | c :: cs =>
    String.ofList (escapeChar ['"', '\''] true c ++ cs.flatMap (escapeChar ['"', '\''] false))

end ScriptSyntax.Text
