import ScriptSyntax.Parse.Types

/-! Blocks and signatures, the parts that expressions and statements share. -/
namespace ScriptSyntax.Readers

/-- One step through a block: its end, an empty line, or a statement with what has to follow it. -/
def blockRound (r : Readers) : Parse (ForInStep (List Statement)) := do
  let t ← Parse.current
  if t.kind = .endOfInput then Parse.complain .unterminatedBlock
  else if t.isSymbol "\x7d" then
    let _ ← Parse.advance
    return .done []
  else if t.kind = .newLine then
    let _ ← Parse.advance
    return .yield []
  else
    let s ← r.statement
    if ← Parse.acceptKind .newLine then return .yield [s]
    else if ← Parse.atSymbol "\x7d" then return .yield [s]
    else Parse.complain .expectedSeparatorInBlock

/-- Statements between braces. After each the line ends or the block does; lines may be empty. -/
def block (r : Readers) : Parse Block := do
  let opening ← Parse.expectSymbol "\x7b"
  let statements ← Parse.collect r.blockRound
  return ⟨statements, opening.span.start, ← Parse.lastEnd⟩

def parameter (r : Readers) : Parse Parameter := do
  let name ← Parse.expectName .parameterName
  return ⟨name, ← r.typeAfter ":"⟩

/-- Parameters in parentheses. -/
def parameters (r : Readers) : Parse (List Parameter) := do
  let _ ← Parse.expectSymbol "("
  let _ ← Parse.skip .newLine
  let parameters ← Parse.commaSeparated r.parameter
  let _ ← Parse.expectSymbol ")"
  return parameters

def resultType (r : Readers) : Parse TypeExpr := r.typeAfter "->"

def signature (r : Readers) : Parse Signature := do
  let parameters ← r.parameters
  return ⟨parameters, ← r.resultType⟩

end ScriptSyntax.Readers
