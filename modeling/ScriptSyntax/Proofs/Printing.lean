import ScriptSyntax.Number.Shortest
import ScriptSyntax.Grammar
import ScriptSyntax.Proofs.Lexing

/-! Trees as source text: which trees have one, and their words, with every part of an expression
in parentheses. -/
namespace ScriptSyntax

/-! Well-formed trees. -/

/-- Whether a text is a name to the lexer, and no reserved word. -/
def isName (x : String) : Bool :=
  Pattern.readWord? x.toList = some x.toList && Keyword.ofText? x = none

/-- Whether a type begins with a name. -/
def TypeExpr.isNamed : TypeExpr → Bool
  | any => false
  | named x _ => isName x
  | array element => element.isNamed

/-- No array holds a type that is not written. -/
def TypeExpr.wellFormed (t : TypeExpr) : Bool := t = any || t.isNamed

def Parameter.wellFormed (p : Parameter) : Bool := isName p.name && p.type.wellFormed

def Signature.wellFormed (s : Signature) : Bool :=
  s.parameters.all Parameter.wellFormed && s.result.wellFormed

def binaryNames : List String := Grammar.binaryOperators.map (·.1)

mutual
/-- Well-formed expressions, where a declaration gives its name to its value: that is the name of a
closure there, and only there may a value be missing. -/
def Expr.wellFormed : Expr → Option String → Bool
  | .number value _, _ => !value.negative
  | .string _ _, _ => true
  | .name x _, _ => isName x
  | .unassigned _, given => given.isSome
  | .binary operator left right _, _ =>
    binaryNames.contains operator && left.wellFormed none && right.wellFormed none
  | .prefixed operator operand _, _ =>
    Grammar.prefixOperators.contains operator && operand.wellFormed none
  | .assignment operator target value _, _ =>
    Grammar.assignmentOperators.contains operator && target.wellFormed none &&
      value.wellFormed none
  | .call callee arguments _, _ => callee.wellFormed none && wellFormedExprs arguments
  | .member object property _, _ => object.wellFormed none && isName property
  | .closure name signature body _, given =>
    name = given && signature.wellFormed && body.wellFormed
def wellFormedExprs : List Expr → Bool
  | [] => true
  | e :: es => e.wellFormed none && wellFormedExprs es
def Statement.wellFormed : Statement → Bool
  | .expression value _ | .result value _ => value.wellFormed none
  | .block body => body.wellFormed
  | .conditional condition thenBody elseBody _ =>
    condition.wellFormed none && thenBody.wellFormed && wellFormedElse elseBody
  | .loop iterable names body _ =>
    iterable.wellFormed none && names.all isName && body.wellFormed
  | .declaration _ x type value _ => isName x && type.wellFormed && value.wellFormed (some x)
  | .function x signature body _ => isName x && signature.wellFormed && body.wellFormed
  | .classDefinition x superclass body _ => isName x && superclass.all isName && body.wellFormed
def wellFormedElse : Option Block → Bool
  | none => true
  | some body => body.wellFormed
def wellFormedStatements : List Statement → Bool
  | [] => true
  | s :: ss => s.wellFormed && wellFormedStatements ss
def Block.wellFormed : Block → Bool
  | ⟨statements, _⟩ => wellFormedStatements statements
end

/-! Their words. -/

def enclosed (ws : List Terminal) : List Terminal := .symbol "(" :: (ws ++ [.symbol ")"])

def commaSeparated : List (List Terminal) → List Terminal
  | [] => []
  | [ws] => ws
  | ws :: pieces => ws ++ .symbol "," :: commaSeparated pieces

def onLines (pieces : List (List Terminal)) : List Terminal :=
  pieces.flatMap (· ++ [.newLine])

/-- Pieces on lines in braces, with some words behind the opening one. -/
def braced (head : List Terminal) (pieces : List (List Terminal)) : List Terminal :=
  .symbol "\x7b" :: (head ++ .newLine :: (onLines pieces ++ [.symbol "\x7d"]))

def TypeExpr.words : TypeExpr → List Terminal
  | any => []
  | named x _ => [.name x]
  | array element => element.words ++ [.symbol "[", .symbol "]"]

/-- A type after a symbol. The type that stands for none is not written. -/
def annotated (symbol : String) (t : TypeExpr) : List Terminal :=
  if t = .any then [] else .symbol symbol :: t.words

def Parameter.words (p : Parameter) : List Terminal := .name p.name :: annotated ":" p.type

def Signature.words (s : Signature) : List Terminal :=
  enclosed (commaSeparated (s.parameters.map Parameter.words)) ++ annotated "->" s.result

/-- An initial value that some words spell, if there is one. -/
def initializer (value : Expr) (ws : List Terminal) : List Terminal :=
  match value with
  | .unassigned _ => []
  | _ => .symbol "=" :: enclosed ws

mutual
def Expr.words : Expr → List Terminal
  | .number value _ => [.number value.display]
  | .string value _ => [.string value]
  | .name x _ => [.name x]
  | .unassigned _ => []
  | .binary operator left right _ =>
    enclosed left.words ++ .symbol operator :: enclosed right.words
  | .prefixed operator operand _ => .symbol operator :: enclosed operand.words
  | .assignment operator target value _ =>
    enclosed target.words ++ .symbol operator :: enclosed value.words
  | .call callee arguments _ =>
    enclosed callee.words ++ enclosed (commaSeparated (enclosedWords arguments))
  | .member object property _ => enclosed object.words ++ [.symbol ".", .name property]
  | .closure _ signature body _ => .keyword .kwFunction :: (signature.words ++ body.words)
def enclosedWords : List Expr → List (List Terminal)
  | [] => []
  | e :: es => enclosed e.words :: enclosedWords es
def Statement.words : Statement → List Terminal
  | .expression value _ => enclosed value.words
  | .block body => body.words
  | .conditional condition thenBody elseBody _ =>
    .keyword .kwIf :: (enclosed condition.words ++ (thenBody.words ++ elseWords elseBody))
  | .result value _ => .keyword .kwReturn :: enclosed value.words
  | .loop iterable names ⟨statements, _⟩ _ =>
    .keyword .kwFor :: (enclosed iterable.words ++
      braced (loopNames names) (statementWords statements))
  | .declaration changes x type value _ =>
    .keyword (if changes then .kwVar else .kwLet) :: .name x ::
      (annotated ":" type ++ initializer value value.words)
  | .function x signature body _ =>
    .keyword .kwFunction :: .name x :: (signature.words ++ body.words)
  | .classDefinition x superclass body _ =>
    .keyword .kwClass :: .name x :: (superclassText superclass ++ body.words)
def elseWords : Option Block → List Terminal
  | none => []
  | some body => .keyword .kwElse :: body.words
def statementWords : List Statement → List (List Terminal)
  | [] => []
  | s :: ss => s.words :: statementWords ss
def Block.words : Block → List Terminal
  | ⟨statements, _⟩ => braced [] (statementWords statements)
end

/-- The text of a program: its words with a blank after each, a line for every statement. -/
def printed (ss : List Statement) : String := String.ofList (spell (onLines (statementWords ss)))

end ScriptSyntax
