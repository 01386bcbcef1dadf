import ScriptSyntax.Number.Shortest
import ScriptSyntax.Text.Quoted
import ScriptSyntax.Tree

/-! Trees in one line: a node is a list in parentheses that begins with what it is. -/
namespace ScriptSyntax

/-- Texts with a space between each two. -/
def spaced : List String → String
  | [] => ""
  | [text] => text
  | text :: next :: texts => text ++ " " ++ spaced (next :: texts)

def parenthesized (texts : List String) : String := "(" ++ spaced texts ++ ")"

def TypeExpr.render : TypeExpr → String
  | any => "any"
  | named name _ => name
  | array element => element.render ++ "[]"

def Parameter.render (p : Parameter) : String := p.name ++ ":" ++ p.type.render

/-- The parameters and the result of a function, as two items of its list. -/
def Signature.render (s : Signature) : List String :=
  [parenthesized (s.parameters.map Parameter.render), s.result.render]

/-- A class with the class that it extends. -/
def renderClassName (name : String) : Option String → String
  | none => name
  | some superclass => name ++ ":" ++ superclass

mutual
def Expr.render : Expr → String
  | .number value _ => value.display
  | .string value _ => Text.quoted value
  | .name value _ => value
  | .unassigned _ => "<unassigned>"
  | .binary operator left right _ => parenthesized [operator, left.render, right.render]
  | .prefixed operator operand _ => parenthesized [operator, operand.render]
  | .assignment operator target value _ => parenthesized [operator, target.render, value.render]
  | .call callee arguments _ => parenthesized ("call" :: callee.render :: renderExprs arguments)
  | .member object property _ => parenthesized [".", object.render, property]
  | .closure name signature body _ =>
    parenthesized (["closure", name.getD "<anonymous>"] ++ signature.render ++ [body.render])
def renderExprs : List Expr → List String
  | [] => []
  | e :: es => e.render :: renderExprs es
def Statement.render : Statement → String
  | .expression value _ => value.render
  | .block body => body.render
  | .conditional condition thenBody elseBody _ =>
    parenthesized (["if", condition.render, thenBody.render] ++ renderElse elseBody)
  | .result value _ => parenthesized ["return", value.render]
  | .loop iterable names body _ =>
    parenthesized ["for", iterable.render, "[" ++ spaced names ++ "]", body.render]
  | .declaration changes name type value _ =>
    parenthesized [if changes then "var" else "let", name, type.render, value.render]
  | .function name signature body _ =>
    parenthesized (["function", name] ++ signature.render ++ [body.render])
  | .classDefinition name superclass body _ =>
    parenthesized ["class", renderClassName name superclass, body.render]
def renderElse : Option Block → List String
  | none => []
  | some body => [body.render]
def renderStatements : List Statement → List String
  | [] => []
  | s :: ss => s.render :: renderStatements ss
def Block.render : Block → String
  | ⟨statements, _⟩ => parenthesized ("block" :: renderStatements statements)
end

end ScriptSyntax
