import ScriptSyntax.Text.Ranges

/-! The Unicode property White_Space, which decides what is dropped at the end of a shown line. -/
namespace ScriptSyntax.Text

/-- The twenty-five code points of White_Space. -/
def whiteSpaceRanges : List (Nat × Nat) :=
  [(0x0009, 0x000d), (0x0020, 0x0020), (0x0085, 0x0085), (0x00a0, 0x00a0), (0x1680, 0x1680),
    (0x2000, 0x200a), (0x2028, 0x2029), (0x202f, 0x202f), (0x205f, 0x205f), (0x3000, 0x3000)]

/-- Whether a character is white space anywhere in Unicode, not only in ASCII. -/
def isWhiteSpace (c : Char) : Bool := inRanges whiteSpaceRanges c.toNat

/-- The text without the white space at its end. -/
def dropTrailingSpace (text : List Char) : List Char :=
  (text.reverse.dropWhile isWhiteSpace).reverse

end ScriptSyntax.Text
