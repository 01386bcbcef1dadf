import ScriptSyntax.Parse.Exprs

/-! Statements. As with expressions, a form consumes its first token whatever it is. -/
namespace ScriptSyntax
namespace Readers

/-- A value after an equals sign, which may begin on the next line; a closure takes the declared
name. Without the sign nothing is assigned, at the end of what was read. -/
def initializer (r : Readers) (name : String) : Parse Expr := do
  if ← Parse.atSymbol "=" then
    let _ ← Parse.advanceLine
    let value ← r.expr .default
    return value.named name
  else return .unassigned (← Parse.lastEnd).empty

/-- A variable with its type and its value. It may change if the first token is the word `var`. -/
def declaration (r : Readers) : Parse Statement := do
  let opening ← Parse.advance
  let name ← Parse.expectName .variableName
  let type ← r.typeAfter ":"
  let value ← r.initializer name
  return .declaration (opening.isKeyword .kwVar) name type value
    ⟨opening.span.start, ← Parse.lastEnd⟩

def elseBlock (r : Readers) : Parse (Option Block) := do
  if ← Parse.acceptKeyword .kwElse then return some (← r.block) else return none

/-- A condition and the blocks for both cases. -/
def conditional (r : Readers) : Parse Statement := do
  let opening ← Parse.advance
  let condition ← r.expr .default
  let thenBody ← r.block
  let elseBody ← r.elseBlock
  return .conditional condition thenBody elseBody ⟨opening.span.start, ← Parse.lastEnd⟩

/-- The result of a function. There is always a value. -/
def result (r : Readers) : Parse Statement := do
  let opening ← Parse.advance
  let value ← r.expr .default
  return .result value ⟨opening.span.start, ← Parse.lastEnd⟩

/-- The names after the word `as`, with commas between them. -/
def loopVariables : Parse (List String) := do
  if ← Parse.acceptKeyword .kwAs then
    Parse.collect do
      let name ← Parse.expectName .loopVariableName
      if ← Parse.acceptSymbol "," then return .yield [name] else return .done [name]
  else return []

/-- One step through the body of a loop, which ends at a brace or at the end of the input. -/
def loopRound (r : Readers) : Parse (ForInStep (List Statement)) := do
  let _ ← Parse.skip .newLine
  if ← Parse.atSymbol "\x7d" then return .done []
  else if ← Parse.atToken then return .yield [← r.statement]
  else return .done []

/-- A loop over something. Unlike in a block, nothing has to stand between its statements. -/
def loop (r : Readers) : Parse Statement := do
  let opening ← Parse.advance
  let iterable ← r.expr .default
  let brace ← Parse.expectSymbol "\x7b"
  let _ ← Parse.skip .newLine
  let names ← loopVariables
  let statements ← Parse.collect r.loopRound
  let _ ← Parse.expectSymbol "\x7d"
  let stop ← Parse.lastEnd
  return .loop iterable names ⟨statements, brace.span.start, stop⟩ ⟨opening.span.start, stop⟩

def function (r : Readers) : Parse Statement := do
  let opening ← Parse.advance
  let name ← Parse.expectName .functionName
  let signature ← r.signature
  let body ← r.block
  return .function name signature body ⟨opening.span.start, ← Parse.lastEnd⟩

/-- The class that a class extends, after a colon. -/
def superclass : Parse (Option String) := do
  if ← Parse.acceptSymbol ":" then return some (← Parse.expectName .superclassName)
  else return none

def classDefinition (r : Readers) : Parse Statement := do
  let opening ← Parse.advance
  let name ← Parse.expectName .className
  let superclass ← superclass
  let body ← r.block
  return .classDefinition name superclass body ⟨opening.span.start, ← Parse.lastEnd⟩

end Readers

def StatementForm.read (r : Readers) : StatementForm → Parse Statement
  | any => r.statement
  | block => return .block (← r.block)
  | declaration => r.declaration
  | conditional => r.conditional
  | result => r.result
  | loop => r.loop
  | function => r.function
  | classDefinition => r.classDefinition

/-- A statement over given readers for its parts: the first rule that applies decides, and where
none does the statement is an expression. What separates statements is left to the caller. -/
def Grammar.statementOver (g : Grammar) (r : Readers) : Parse Statement := do
  let t ← Parse.current
  match g.rules.find? (·.test t) with
  | some rule => rule.form.read r
  | none =>
    let e ← r.expr .default
    return .expression e e.span

end ScriptSyntax
