import ScriptSyntax.StringLiteral

/-! Lexemes: the pieces into which source text falls. At each place the first pattern that matches
decides, so a longer symbol stands before the symbols it begins with. -/
namespace ScriptSyntax

def isWordStart (c : Char) : Bool := c.isAlpha || c = '_'

def isWordPart (c : Char) : Bool := c.isAlphanum || c = '_'

/-- Space, tab or carriage return. The end of a line is a lexeme of its own. -/
def isBlank (c : Char) : Bool := c = ' ' || c = '\t' || c = '\r'

/-- The kinds of pieces. -/
inductive Pattern where
  | word
  | number
  | blanks
  | newLine
  | string
  | comment
  | symbol (text : List Char)
  deriving DecidableEq, Repr

namespace Pattern

/-- A letter or underscore with the letters, digits and underscores after it. -/
def readWord? : List Char → Option (List Char)
  | c :: rest => if isWordStart c then some (c :: rest.takeWhile isWordPart) else none
  | [] => none

/-- A point with the digits after it, if both are there, and else nothing. -/
def fractionPart : List Char → List Char
  | '.' :: rest =>
    match rest.takeWhile Char.isDigit with
    | [] => []
    | digits => '.' :: digits
  | _ => []

/-- Digits with the fraction part after them. -/
def readNumber? (text : List Char) : Option (List Char) :=
  match text.takeWhile Char.isDigit with
  | [] => none
  | whole => some (whole ++ fractionPart (text.dropWhile Char.isDigit))

def readBlanks? (text : List Char) : Option (List Char) :=
  match text.takeWhile isBlank with
  | [] => none
  | run => some run

def readNewLine? : List Char → Option (List Char)
  | '\n' :: _ => some ['\n']
  | _ => none

def readString? : List Char → Option (List Char)
  | '"' :: rest => (StringLiteral.tail? rest).map ('"' :: ·)
  | _ => none

/-- Two slashes and the rest of the line. -/
def readComment? : List Char → Option (List Char)
  | '/' :: '/' :: rest => some ('/' :: '/' :: rest.takeWhile (· ≠ '\n'))
  | _ => none

def readSymbol? (symbol text : List Char) : Option (List Char) :=
  if symbol ≠ [] ∧ symbol <+: text then some symbol else none

/-- The piece of the given pattern that a text begins with. -/
def read? : Pattern → List Char → Option (List Char)
  | word => readWord?
  | number => readNumber?
  | blanks => readBlanks?
  | newLine => readNewLine?
  | string => readString?
  | comment => readComment?
  | symbol s => readSymbol? s

/-- The symbols of the language, each before the symbols that it begins with. -/
def symbols : List (List Char) :=
  [['=', '='], ['!', '='], ['<', '='], ['>', '='], ['&', '&'], ['|', '|'], ['-', '>'],
   ['+', '='], ['-', '='], ['{'], ['}'], ['('], [')'], ['['], [']'], ['='], ['<'], ['>'], ['+'],
   ['-'], ['*'], ['/'], ['%'], ['!'], ['.'], [','], [':']]

/-- All patterns, in the order in which they are tried. -/
def all : List Pattern :=
  [word, number, blanks, newLine, string, comment] ++ symbols.map symbol

private theorem takeWhile_isPrefix (p : Char → Bool) (text : List Char) :
    text.takeWhile p <+: text := List.takeWhile_prefix p

private theorem fractionPart_isPrefix (text : List Char) : fractionPart text <+: text := by
  rw [fractionPart.eq_def]
  split
  · next rest =>
    split
    · exact List.nil_prefix
    · exact List.cons_prefix_cons.2 ⟨rfl, takeWhile_isPrefix _ _⟩
  · exact List.nil_prefix

/-- What a pattern reads is a nonempty piece at the beginning of the text. -/
theorem read?_isPrefix {p : Pattern} {text piece : List Char} (h : p.read? text = some piece) :
    piece ≠ [] ∧ piece <+: text := by
  cases p with
  | word =>
    cases text with
    | nil => simp [read?, readWord?] at h
    | cons c rest =>
      simp only [read?, readWord?] at h
      split at h
      · obtain rfl := Option.some.inj h
        exact ⟨by simp, List.cons_prefix_cons.2 ⟨rfl, takeWhile_isPrefix _ _⟩⟩
      · simp at h
  | number =>
    simp only [read?, readNumber?] at h
    split at h
    · simp at h
    · next hne =>
      obtain rfl := Option.some.inj h
      refine ⟨fun he => hne (List.append_eq_nil_iff.1 he).1, ?_⟩
      conv => rhs; rw [← List.takeWhile_append_dropWhile (p := Char.isDigit) (l := text)]
      exact (List.prefix_append_right_inj _).2 (fractionPart_isPrefix _)
  | blanks =>
    simp only [read?, readBlanks?] at h
    split at h
    · simp at h
    · next hne =>
      obtain rfl := Option.some.inj h
      exact ⟨hne, takeWhile_isPrefix _ _⟩
  | newLine =>
    simp only [read?, readNewLine?] at h
    split at h
    · next rest =>
      obtain rfl := Option.some.inj h
      exact ⟨by simp, ⟨rest, rfl⟩⟩
    · simp at h
  | string =>
    simp only [read?, readString?] at h
    split at h
    · next rest =>
      obtain ⟨t, ht, rfl⟩ := Option.map_eq_some_iff.1 h
      obtain ⟨_, r, hr⟩ := StringLiteral.tail?_append ht
      exact ⟨by simp, ⟨r, by simp [hr]⟩⟩
    · simp at h
  | comment =>
    simp only [read?, readComment?] at h
    split at h
    · next rest =>
      obtain rfl := Option.some.inj h
      exact ⟨by simp, by simp [List.cons_prefix_cons, takeWhile_isPrefix]⟩
    · simp at h
  | symbol s =>
    simp only [read?, readSymbol?] at h
    split at h
    · next hs => exact Option.some.inj h ▸ hs
    · simp at h

end Pattern

/-- A piece of source text with the pattern that it was read by. -/
structure Lexeme where
  pattern : Pattern
  text : List Char
  deriving DecidableEq, Repr

namespace Lexeme

/-- The lexeme that a text begins with. -/
def first? (text : List Char) : Option Lexeme :=
  Pattern.all.findSome? fun p => (p.read? text).map (Lexeme.mk p)

theorem first?_isPrefix {text : List Char} {l : Lexeme} (h : first? text = some l) :
    l.text ≠ [] ∧ l.text <+: text := by
  obtain ⟨p, _, hp⟩ := List.exists_of_findSome?_eq_some h
  obtain ⟨piece, hpiece, rfl⟩ := Option.map_eq_some_iff.1 hp
  exact Pattern.read?_isPrefix hpiece

theorem length_drop_lt {text : List Char} {l : Lexeme} (h : first? text = some l) :
    (text.drop l.text.length).length < text.length := by
  obtain ⟨hne, hpre⟩ := first?_isPrefix h
  have hpos := List.length_pos_iff.2 hne
  have hle := hpre.length_le
  rw [List.length_drop]
  omega

/-- The lexemes of a text one after the other, and what is left where no lexeme begins. -/
def readAll (text : List Char) : List Lexeme × List Char :=
  match _ : first? text with
  | none => ([], text)
  | some l =>
    let (ls, rest) := readAll (text.drop l.text.length)
    (l :: ls, rest)
termination_by text.length
decreasing_by exact length_drop_lt ‹_›

end Lexeme
end ScriptSyntax
