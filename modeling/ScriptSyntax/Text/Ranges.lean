/-! Sets of characters given as sorted ranges of code points. -/
namespace ScriptSyntax.Text

/-- Whether a code point lies in one of the ranges, both ends included. The ranges ascend, so the
search stops at the first one that begins past it. -/
def inRanges : List (Nat × Nat) → Nat → Bool
  | [], _ => false
  | (first, last) :: ranges, n => first ≤ n && (n ≤ last || inRanges ranges n)

end ScriptSyntax.Text
