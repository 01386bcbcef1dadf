import ScriptSyntax.Parse.Program
import ScriptSyntax.Proofs.Passage

/-! Positions moved by a function, in tokens and in what is read from them. No parser looks at a
position: it does to moved tokens what it does to the tokens themselves, with a moved result. -/
namespace ScriptSyntax
variable (f : Position → Position)

def Span.relocate (s : Span) : Span := ⟨f s.start, f s.stop⟩

def Token.relocate (t : Token) : Token := { t with span := t.span.relocate f }

def Error.relocate (e : Error) : Error := { e with position := f e.position }

def TypeExpr.relocate : TypeExpr → TypeExpr
  | .any => .any
  | .named name position => .named name (f position)
  | .array element => .array element.relocate

def Parameter.relocate (p : Parameter) : Parameter := { p with type := p.type.relocate f }

def Signature.relocate (s : Signature) : Signature :=
  ⟨s.parameters.map (Parameter.relocate f), s.result.relocate f⟩

mutual
def Expr.relocate : Expr → Expr
  | .number value span => .number value (span.relocate f)
  | .string value span => .string value (span.relocate f)
  | .name value span => .name value (span.relocate f)
  | .unassigned span => .unassigned (span.relocate f)
  | .binary operator left right span =>
    .binary operator left.relocate right.relocate (span.relocate f)
  | .prefixed operator operand span => .prefixed operator operand.relocate (span.relocate f)
  | .assignment operator target value span =>
    .assignment operator target.relocate value.relocate (span.relocate f)
  | .call callee arguments span =>
    .call callee.relocate (relocateExprs arguments) (span.relocate f)
  | .member object property span => .member object.relocate property (span.relocate f)
  | .closure name signature body span =>
    .closure name (signature.relocate f) body.relocate (span.relocate f)
def relocateExprs : List Expr → List Expr
  | [] => []
  | e :: es => e.relocate :: relocateExprs es
def Statement.relocate : Statement → Statement
  | .expression value span => .expression value.relocate (span.relocate f)
  | .block body => .block body.relocate
  | .conditional condition thenBody elseBody span =>
    .conditional condition.relocate thenBody.relocate (relocateElse elseBody) (span.relocate f)
  | .result value span => .result value.relocate (span.relocate f)
  | .loop iterable names body span =>
    .loop iterable.relocate names body.relocate (span.relocate f)
  | .declaration changes name type value span =>
    .declaration changes name (type.relocate f) value.relocate (span.relocate f)
  | .function name signature body span =>
    .function name (signature.relocate f) body.relocate (span.relocate f)
  | .classDefinition name superclass body span =>
    .classDefinition name superclass body.relocate (span.relocate f)
def relocateElse : Option Block → Option Block
  | none => none
  | some body => some body.relocate
def relocateStatements : List Statement → List Statement
  | [] => []
  | s :: ss => s.relocate :: relocateStatements ss
def Block.relocate : Block → Block
  | ⟨statements, span⟩ => ⟨relocateStatements statements, span.relocate f⟩
end

theorem relocateExprs_eq_map (es : List Expr) : relocateExprs f es = es.map (Expr.relocate f) := by
  induction es with
  | nil => rfl
  | cons e es ih => rw [relocateExprs, ih, List.map_cons]

theorem relocateStatements_eq_map (ss : List Statement) :
    relocateStatements f ss = ss.map (Statement.relocate f) := by
  induction ss with
  | nil => rfl
  | cons s ss ih => rw [relocateStatements, ih, List.map_cons]

theorem relocateElse_eq_map (body : Option Block) :
    relocateElse f body = body.map (Block.relocate f) := by
  cases body <;> rfl

theorem Expr.span_relocate (e : Expr) : (e.relocate f).span = e.span.relocate f := by
  cases e <;> rfl

theorem Expr.named_relocate (name : String) (e : Expr) :
    (e.named name).relocate f = (e.relocate f).named name := by
  cases e <;> rfl

theorem Token.kind_relocate (t : Token) : (t.relocate f).kind = t.kind := rfl

theorem Token.text_relocate (t : Token) : (t.relocate f).text = t.text := rfl

theorem Token.key_relocate (t : Token) : (t.relocate f).key = t.key := rfl

/-- The rules of the language do not look at where a token stands. -/
theorem Grammar.find_rule_relocate (t : Token) :
    script.rules.find? (·.test (t.relocate f)) = script.rules.find? (·.test t) := rfl

/-! Nothing moves where every position stays. -/

theorem TypeExpr.relocate_id (a : TypeExpr) : a.relocate id = a := by
  induction a with
  | any => rfl
  | named => rfl
  | array element ih => rw [relocate, ih]

theorem Parameter.relocate_id (p : Parameter) : p.relocate id = p := by
  rw [relocate, p.type.relocate_id]

theorem Signature.relocate_id (s : Signature) : s.relocate id = s := by
  rw [relocate, s.result.relocate_id, funext Parameter.relocate_id, List.map_id']

mutual
theorem Expr.relocate_id : (e : Expr) → e.relocate id = e
  | .number .. | .string .. | .name .. | .unassigned .. => rfl
  | .binary _ left right _ => by
    rw [Expr.relocate, left.relocate_id, right.relocate_id]
    rfl
  | .prefixed _ operand _ => by
    rw [Expr.relocate, operand.relocate_id]
    rfl
  | .assignment _ target value _ => by
    rw [Expr.relocate, target.relocate_id, value.relocate_id]
    rfl
  | .call callee arguments _ => by
    rw [Expr.relocate, callee.relocate_id, relocateExprs_id arguments]
    rfl
  | .member object _ _ => by
    rw [Expr.relocate, object.relocate_id]
    rfl
  | .closure _ signature body _ => by
    rw [Expr.relocate, signature.relocate_id, body.relocate_id]
    rfl
theorem relocateExprs_id : (es : List Expr) → relocateExprs id es = es
  | [] => rfl
  | e :: es => by rw [relocateExprs, e.relocate_id, relocateExprs_id es]
theorem Statement.relocate_id : (s : Statement) → s.relocate id = s
  | .expression value _ => by
    rw [Statement.relocate, value.relocate_id]
    rfl
  | .block body => by rw [Statement.relocate, body.relocate_id]
  | .conditional condition thenBody elseBody _ => by
    rw [Statement.relocate, condition.relocate_id, thenBody.relocate_id, relocateElse_id elseBody]
    rfl
  | .result value _ => by
    rw [Statement.relocate, value.relocate_id]
    rfl
  | .loop iterable _ body _ => by
    rw [Statement.relocate, iterable.relocate_id, body.relocate_id]
    rfl
  | .declaration _ _ type value _ => by
    rw [Statement.relocate, type.relocate_id, value.relocate_id]
    rfl
  | .function _ signature body _ => by
    rw [Statement.relocate, signature.relocate_id, body.relocate_id]
    rfl
  | .classDefinition _ _ body _ => by
    rw [Statement.relocate, body.relocate_id]
    rfl
theorem relocateElse_id : (body : Option Block) → relocateElse id body = body
  | none => rfl
  | some body => by rw [relocateElse, body.relocate_id]
theorem relocateStatements_id : (ss : List Statement) → relocateStatements id ss = ss
  | [] => rfl
  | s :: ss => by rw [relocateStatements, s.relocate_id, relocateStatements_id ss]
theorem Block.relocate_id : (b : Block) → b.relocate id = b
  | ⟨statements, _⟩ => by
    rw [Block.relocate, relocateStatements_id statements]
    rfl
end

/-! Trees without places: every position is one and the same. -/

def nowhere : Position → Position := fun _ => default

def TypeExpr.bare (t : TypeExpr) : TypeExpr := t.relocate nowhere

def Parameter.bare (p : Parameter) : Parameter := p.relocate nowhere

def Signature.bare (s : Signature) : Signature := s.relocate nowhere

def Expr.bare (e : Expr) : Expr := e.relocate nowhere

def Statement.bare (s : Statement) : Statement := s.relocate nowhere

def Block.bare (b : Block) : Block := b.relocate nowhere

theorem Block.bare_eq {ss ss' : List Statement} (h : ss'.map Statement.bare = ss.map Statement.bare)
    (span span' : Span) : Block.bare ⟨ss', span'⟩ = Block.bare ⟨ss, span⟩ := by
  rw [bare, bare, relocate, relocate, relocateStatements_eq_map, relocateStatements_eq_map]
  exact congrArg (Block.mk · _) h

theorem Expr.bare_call {callee callee' : Expr} {arguments arguments' : List Expr}
    (h : callee'.bare = callee.bare) (ha : arguments'.map Expr.bare = arguments.map Expr.bare)
    (span span' : Span) :
    (Expr.call callee' arguments' span').bare = (Expr.call callee arguments span).bare := by
  rw [bare, bare, relocate, relocate, relocateExprs_eq_map, relocateExprs_eq_map]
  exact congrArg₂ (Expr.call · · _) h ha

theorem Expr.bare_named {e e' : Expr} (x : String) (h : e'.bare = e.bare) :
    (e'.named x).bare = (e.named x).bare := by
  rw [bare, bare, named_relocate, named_relocate]
  exact congrArg (Expr.named x) h

end ScriptSyntax
