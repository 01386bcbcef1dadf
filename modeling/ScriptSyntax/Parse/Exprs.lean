import ScriptSyntax.Number.Numeral
import ScriptSyntax.Parse.Blocks

/-! Expressions: what one may start with, what may follow, and how far an expression goes. The
constructs consume their first token whatever it is; the tables see to it that it is theirs. -/
namespace ScriptSyntax

/-- A number, a name or a string. The text of a number has to be a number that is not too large. -/
def Parse.literal : Parse Expr := do
  let t ← current
  match t.kind with
  | .number =>
    match Double.ofText? t.text with
    | some value =>
      let _ ← advance
      return .number value t.span
    | none => refuse fun t => .badNumber t.text
  | .name =>
    let _ ← advance
    return .name t.text t.span
  | .string =>
    let _ ← advance
    return .string t.text t.span
  | _ => complain .expectedExpression

namespace Readers

/-- An operator and its operand, which calls and members belong to but no other operators. -/
def prefixed (r : Readers) : Parse Expr := do
  let operator ← Parse.advance
  let operand ← r.expr .unary
  return .prefixed operator.text operand ⟨operator.span.start, operand.span.stop⟩

/-- An expression in parentheses. They leave no trace in the tree, not even in the span. -/
def grouping (r : Readers) : Parse Expr := do
  let _ ← Parse.advanceLine
  let e ← r.expr .default
  let _ ← Parse.skip .newLine
  let _ ← Parse.expectSymbol ")"
  return e

/-- A function as a value. It has no name yet. -/
def closure (r : Readers) : Parse Expr := do
  let opening ← Parse.advance
  let signature ← r.signature
  let body ← r.block
  return .closure none signature body ⟨opening.span.start, ← Parse.lastEnd⟩

/-- An operator and its right operand. Operators of the same power group to the left. -/
def binary (r : Readers) (left : Expr) (power : BindingPower) : Parse Expr := do
  let operator ← Parse.advanceLine
  let right ← r.expr power
  return .binary operator.text left right (left.span.to right.span)

/-- An assignment operator and the value, in which assignments group to the right. -/
def assignment (r : Readers) (target : Expr) : Parse Expr := do
  let operator ← Parse.advanceLine
  let value ← r.expr .comma
  return .assignment operator.text target value (target.span.to value.span)

/-- Arguments in parentheses. -/
def call (r : Readers) (callee : Expr) : Parse Expr := do
  let _ ← Parse.advanceLine
  let arguments ← Parse.commaSeparated (r.expr .default)
  let _ ← Parse.expectSymbol ")"
  return .call callee arguments ⟨callee.span.start, ← Parse.lastEnd⟩

end Readers

/-- A point and the name of a property. -/
def Parse.member (object : Expr) : Parse Expr := do
  let _ ← advance
  let property ← expectName .propertyName
  return .member object property ⟨object.span.start, ← lastEnd⟩

def ExprStart.read (r : Readers) : ExprStart → Parse Expr
  | literal => Parse.literal
  | prefixed => r.prefixed
  | grouping => r.grouping
  | closure => r.closure

/-- Reads a tail to what stands before it. Only a binary operator makes use of its own power. -/
def ExprTail.read (r : Readers) (left : Expr) (power : BindingPower) : ExprTail → Parse Expr
  | assignment => r.assignment left
  | binary => r.binary left power
  | call => r.call left
  | member => Parse.member left

namespace Grammar

/-- Puts one more tail to an expression, if the current token begins one that binds tightly enough.
A token without a power binds as loosely as possible. -/
def exprRound (g : Grammar) (r : Readers) (power : BindingPower) (left : Expr) :
    Parse (ForInStep Expr) := do
  let key := (← Parse.current).key
  let next := (g.powers.get? key).getD .default
  if power < next then
    match g.tails.get? key with
    | none => Parse.complain .strayInExpression
    | some tail => return .yield (← tail.read r left next)
  else return .done left

/-- An expression over given readers for its parts. -/
def exprOver (g : Grammar) (r : Readers) (power : BindingPower) : Parse Expr := do
  match g.starts.get? (← Parse.current).key with
  | none => Parse.complain .expectedExpression
  | some start => Parse.iterate (g.exprRound r power) (← start.read r)

end Grammar
end ScriptSyntax
