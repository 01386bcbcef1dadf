import ScriptSyntax.Number.Double
import ScriptSyntax.Position

/-! Syntax trees. Every node has the span of the text that it was read from. -/
namespace ScriptSyntax

/-- A type as it is written. Names are not resolved. Where no type is written it is `any`. -/
inductive TypeExpr where
  | any
  | named (name : String) (position : Position)
  | array (element : TypeExpr)
  deriving DecidableEq, Repr

structure Parameter where
  name : String
  type : TypeExpr
  deriving DecidableEq, Repr

/-- What a function takes and gives. -/
structure Signature where
  parameters : List Parameter
  result : TypeExpr
  deriving DecidableEq, Repr

mutual
/-- Expressions. `unassigned` stands where a declaration has no value. -/
inductive Expr where
  | number (value : Double) (span : Span)
  | string (value : String) (span : Span)
  | name (value : String) (span : Span)
  | unassigned (span : Span)
  | binary (operator : String) (left right : Expr) (span : Span)
  | prefixed (operator : String) (operand : Expr) (span : Span)
  | assignment (operator : String) (target value : Expr) (span : Span)
  | call (callee : Expr) (arguments : List Expr) (span : Span)
  | member (object : Expr) (property : String) (span : Span)
  | closure (name : Option String) (signature : Signature) (body : Block) (span : Span)
inductive Statement where
  | expression (value : Expr) (span : Span)
  | block (body : Block)
  | conditional (condition : Expr) (thenBody : Block) (elseBody : Option Block) (span : Span)
  | result (value : Expr) (span : Span)
  | loop (iterable : Expr) (names : List String) (body : Block) (span : Span)
  | declaration (changes : Bool) (name : String) (type : TypeExpr) (value : Expr)
      (span : Span)
  | function (name : String) (signature : Signature) (body : Block) (span : Span)
  | classDefinition (name : String) (superclass : Option String) (body : Block) (span : Span)
/-- Statements between braces. -/
structure Block where
  statements : List Statement
  span : Span
end

deriving instance Repr for Expr, Statement, Block

def Expr.span : Expr → Span
  | number _ s | string _ s | name _ s | unassigned s | binary _ _ _ s | prefixed _ _ s
  | assignment _ _ _ s | call _ _ s | member _ _ s | closure _ _ _ s => s

def Statement.span : Statement → Span
  | expression _ s | conditional _ _ _ s | result _ s | loop _ _ _ s | declaration _ _ _ _ s
  | function _ _ _ s | classDefinition _ _ _ s => s
  | block body => body.span

/-- Gives a closure the name that it is bound to. No other expression has a name to give. -/
def Expr.named (name : String) : Expr → Expr
  | closure _ signature body span => closure (some name) signature body span
  | e => e

/-- The span from where one begins to where another ends. -/
def Span.to (first last : Span) : Span := ⟨first.start, last.stop⟩

end ScriptSyntax
