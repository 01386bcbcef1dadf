import ScriptSyntax.Text.Bytes

/-! Lines of a source, and the line on which a byte offset lies. -/
namespace ScriptSyntax

/-- The lines of a text, each with the newline that ends it. The last line has none: it is empty
when the text ends in a newline or is empty itself. -/
def splitLines : List Char → List (List Char)
  | [] => [[]]
  | c :: text =>
    if c = '\n' then [c] :: splitLines text
    else match splitLines text with
      | line :: lines => (c :: line) :: lines
      | [] => [[c]]

theorem splitLines_of_not_mem {line : List Char} (h : '\n' ∉ line) : splitLines line = [line] := by
  induction line with
  | nil => rfl
  | cons c line ih =>
    obtain ⟨hc, hline⟩ := not_or.1 (mt List.mem_cons.2 h)
    rw [splitLines, if_neg (Ne.symm hc), ih hline]

theorem splitLines_line {line : List Char} (h : '\n' ∉ line) (text : List Char) :
    splitLines (line ++ '\n' :: text) = (line ++ ['\n']) :: splitLines text := by
  induction line with
  | nil => rfl
  | cons c line ih =>
    obtain ⟨hc, hline⟩ := not_or.1 (mt List.mem_cons.2 h)
    rw [List.cons_append, splitLines, if_neg (Ne.symm hc), ih hline]
    rfl

theorem splitLines_ne_nil (text : List Char) : splitLines text ≠ [] := by
  cases text with
  | nil => exact List.cons_ne_nil _ _
  | cons c text =>
    rw [splitLines]
    split
    · exact List.cons_ne_nil _ _
    · split <;> exact List.cons_ne_nil _ _

/-- A place on a line: the line's number from 1 on, its text with the newline, and the column of the
place in bytes from 0 on. -/
structure LinePoint where
  number : Nat
  text : String
  column : Nat
  deriving DecidableEq, Repr

/-- The point `offset` bytes after the beginning of the first of some lines, which has the given
number. What lies past all lines is taken for the end of the last one. -/
def LinePoint.search (number offset : Nat) : List (List Char) → LinePoint
  | [] => ⟨number, "", 0⟩
  | [line] => ⟨number, String.ofList line, min offset (Text.byteCount line)⟩
  | line :: next :: lines =>
    if offset < Text.byteCount line then ⟨number, String.ofList line, offset⟩
    else search (number + 1) (offset - Text.byteCount line) (next :: lines)

/-- The point at a byte offset of a source. -/
def lineAt (source : String) (offset : UInt32) : LinePoint :=
  LinePoint.search 1 offset.toNat (splitLines source.toList)

end ScriptSyntax
