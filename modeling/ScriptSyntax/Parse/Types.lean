import ScriptSyntax.Parse.Readers

/-! Types: a name, and after it pairs of brackets. -/
namespace ScriptSyntax
namespace Parse

def namedType : Parse TypeExpr := do
  let t ← expectKind .name (.expectedName .typeName)
  return .named t.text t.span.start

def arrayType (element : TypeExpr) : Parse TypeExpr := do
  let _ ← expectSymbol "["
  let _ ← expectSymbol "]"
  return .array element

end Parse

def TypeStart.read : TypeStart → Parse TypeExpr
  | name => Parse.namedType

def TypeTail.read (left : TypeExpr) : TypeTail → Parse TypeExpr
  | array => Parse.arrayType left

namespace Grammar

/-- Puts one more tail to a type, if the current token begins one that binds tightly enough. -/
def typeRound (g : Grammar) (power : BindingPower) (left : TypeExpr) :
    Parse (ForInStep TypeExpr) := do
  let key := (← Parse.current).key
  match g.typePowers.get? key with
  | none => return .done left
  | some next =>
    if power < next then
      match g.typeTails.get? key with
      | none => Parse.complain .strayInType
      | some tail => return .yield (← tail.read left)
    else return .done left

/-- A type whose tails all bind more tightly than a power. -/
def typeExpr (g : Grammar) (power : BindingPower) : Parse TypeExpr := do
  match g.typeStarts.get? (← Parse.current).key with
  | none => Parse.complain .expectedType
  | some start => Parse.iterate (g.typeRound power) (← start.read)

end Grammar

/-- A type after a symbol, or `any` where the symbol does not stand. -/
def Readers.typeAfter (r : Readers) (symbol : String) : Parse TypeExpr := do
  if ← Parse.acceptSymbol symbol then r.typeExpr .default else return .any

end ScriptSyntax
