import ScriptSyntax.Parse.Statements

/-! The recursion that ties the constructs together, and whole programs. Between two calls for an
expression a token is consumed, and a statement calls for an expression at most once without
consuming any; a call that breaks this has no end. -/
namespace ScriptSyntax
namespace Grammar

mutual
/-- An expression whose tails all bind more tightly than a power. -/
def expr (g : Grammar) (power : BindingPower) (c : Cursor) : Outcome Expr :=
  g.exprOver
    { typeExpr := g.typeExpr
      expr := fun power' c' => if c'.remaining < c.remaining then g.expr power' c' else .endless
      statement := fun c' => if c'.remaining < c.remaining then g.statement c' else .endless }
    power c
termination_by 2 * c.remaining
/-- One statement, without what separates it from the next. -/
def statement (g : Grammar) (c : Cursor) : Outcome Statement :=
  g.statementOver
    { typeExpr := g.typeExpr
      expr := fun power' c' => if c'.remaining ≤ c.remaining then g.expr power' c' else .endless
      statement := fun c' => if c'.remaining < c.remaining then g.statement c' else .endless }
    c
termination_by 2 * c.remaining + 1
end

/-- The readers of a grammar. -/
def readers (g : Grammar) : Readers := ⟨g.typeExpr, g.expr, g.statement⟩

/-- One step through a program: its end, or a statement with what has to follow it. -/
def programRound (g : Grammar) : Parse (ForInStep (List Statement)) := do
  let _ ← Parse.skip .newLine
  if ← Parse.atToken then
    let s ← g.readers.statement
    if ← Parse.atToken then
      if ← Parse.acceptKind .newLine then return .yield [s]
      else Parse.complain .expectedSeparator
    else return .yield [s]
  else return .done []

/-- A whole program: statements, each on lines of its own. Its span begins with the source. -/
def program (g : Grammar) (file : String) : Parse Block := do
  let statements ← Parse.collect g.programRound
  return ⟨statements, ⟨0, file⟩, ← Parse.lastEnd⟩

end Grammar

/-- The program that some tokens of a source spell. -/
def parse (tokens : List Token) (file : String) : Outcome Block :=
  Grammar.script.program file (Cursor.start tokens file)

end ScriptSyntax
