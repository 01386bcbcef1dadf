/-! String literals: what may stand between the quotes, and the text that it denotes. -/
namespace ScriptSyntax.StringLiteral

/-- The rest of a literal after its opening quote, the closing one included. A backslash takes the
next character with it; neither it nor an ordinary character may be the end of the line. -/
def tail? : List Char → Option (List Char)
  | '"' :: _ => some ['"']
  | '\\' :: c :: rest => if c = '\n' then none else (tail? rest).map fun t => '\\' :: c :: t
  | '\\' :: [] => none
  | '\n' :: _ => none
  | c :: rest => (tail? rest).map (c :: ·)
  | [] => none

/-- What a backslash and a character stand for. An escape without a meaning stands for itself. -/
def meaning : Char → List Char
  | 'n' => ['\n']
  | 't' => ['\t']
  | 'r' => ['\r']
  | '0' => ['\x00']
  | '\\' => ['\\']
  | '"' => ['"']
  | c => ['\\', c]

/-- The text that the inside of a literal denotes. -/
def unescape : List Char → List Char
  | '\\' :: c :: rest => meaning c ++ unescape rest
  | c :: rest => c :: unescape rest
  | [] => []

/-- The text that a literal denotes, its quotes included in `literal`. -/
def denoted (literal : List Char) : List Char := unescape literal.tail.dropLast

/-- A literal's rest is a nonempty piece of the text it is looked for in. -/
theorem tail?_append {text t : List Char} (h : tail? text = some t) :
    t ≠ [] ∧ ∃ rest, t ++ rest = text := by
  fun_induction tail? text generalizing t with
  | case1 rest => exact (Option.some.inj h) ▸ ⟨by simp, rest, rfl⟩
  | case2 | case4 | case5 | case7 => simp at h
  | case3 c rest _ ih =>
    obtain ⟨u, hu, rfl⟩ := Option.map_eq_some_iff.1 h
    obtain ⟨_, r, hr⟩ := ih hu
    exact ⟨by simp, r, by simp [hr]⟩
  | case6 c rest _ _ _ _ ih =>
    obtain ⟨u, hu, rfl⟩ := Option.map_eq_some_iff.1 h
    obtain ⟨_, r, hr⟩ := ih hu
    exact ⟨by simp, r, by simp [hr]⟩

end ScriptSyntax.StringLiteral
