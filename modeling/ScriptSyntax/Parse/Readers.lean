import ScriptSyntax.Grammar
import ScriptSyntax.Parse
import ScriptSyntax.Tree

/-! How the parts of a construct are read. Each construct is written over these readers, apart from
the recursion that ties the constructs together. -/
namespace ScriptSyntax

/-- Parsers for types, expressions and statements. Those for types and expressions end before the
first tail that does not bind more tightly than the given power. -/
structure Readers where
  typeExpr : BindingPower → Parse TypeExpr
  expr : BindingPower → Parse Expr
  statement : Parse Statement

end ScriptSyntax
