/-! The layout of a rendered tree: each entry of a block goes on a line of its own. -/
namespace ScriptSyntax
namespace Layout

/-- The end of a line and the indentation of the next one, two spaces a level. -/
def lineBreak (levels : Nat) : List Char := '\n' :: List.replicate (2 * levels) ' '

/-- What follows the parenthesis of a block that has entries. -/
def blockHead : List Char := ['b', 'l', 'o', 'c', 'k', ' ']

/-- Breaks a text into lines. `depth` counts the open parentheses, in 32 bits that wrap around, and
is negative after too many closed ones; `blocks` holds the depths of the open blocks with entries,
the innermost first; `quoted` says whether the text stands in a string literal, which is left alone.
-/
def spread (quoted : Bool) (depth : Int32) (blocks : List Int32) : List Char → List Char
  | [] => []
  | c :: rest =>
    if quoted then
      match c, rest with
      | '\\', d :: rest => '\\' :: d :: spread true depth blocks rest
      | '"', rest => '"' :: spread false depth blocks rest
      | c, rest => c :: spread true depth blocks rest
    else
      match c with
      | '"' => '"' :: spread true depth blocks rest
      | '(' =>
        let opened := if blockHead <+: rest then (depth + 1) :: blocks else blocks
        '(' :: spread false (depth + 1) opened rest
      | ')' =>
        let left := if blocks.head? = some depth then blocks.tail else blocks
        ')' :: spread false (depth - 1) left rest
      | ' ' =>
        (if blocks.head? = some depth then lineBreak blocks.length else [' ']) ++
          spread false depth blocks rest
      | c => c :: spread false depth blocks rest

end Layout

/-- A rendered tree on indented lines. -/
def layout (text : String) : String := String.ofList (Layout.spread false 0 [] text.toList)

end ScriptSyntax
