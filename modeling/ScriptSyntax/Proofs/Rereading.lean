import Mathlib.Data.List.Basic
import ScriptSyntax.Proofs.Formation
import ScriptSyntax.Proofs.Joining
import ScriptSyntax.Proofs.Relocation
import ScriptSyntax.Proofs.Rendering

/-! Trees read back from their texts. Everything but the positions comes back, unless a type is
called by the word that stands for none. -/
namespace ScriptSyntax

/-! Types that a text may not tell from the one that is not written. -/

/-- The name at the base of a type. -/
def TypeExpr.base? : TypeExpr → Option String
  | any => none
  | named x _ => some x
  | array element => element.base?

def Signature.types (s : Signature) : List TypeExpr := s.parameters.map (·.type) ++ [s.result]

mutual
/-- The types of all declarations, parameters and results in a tree. -/
def Expr.types : Expr → List TypeExpr
  | .number _ _ | .string _ _ | .name _ _ | .unassigned _ => []
  | .binary _ left right _ => left.types ++ right.types
  | .prefixed _ operand _ => operand.types
  | .assignment _ target value _ => target.types ++ value.types
  | .call callee arguments _ => callee.types ++ exprTypes arguments
  | .member object _ _ => object.types
  | .closure _ signature body _ => signature.types ++ body.types
def exprTypes : List Expr → List TypeExpr
  | [] => []
  | e :: es => e.types ++ exprTypes es
def Statement.types : Statement → List TypeExpr
  | .expression value _ | .result value _ => value.types
  | .block body => body.types
  | .conditional condition thenBody elseBody _ =>
    condition.types ++ (thenBody.types ++ elseTypes elseBody)
  | .loop iterable _ body _ => iterable.types ++ body.types
  | .declaration _ _ type value _ => type :: value.types
  | .function _ signature body _ => signature.types ++ body.types
  | .classDefinition _ _ body _ => body.types
def elseTypes : Option Block → List TypeExpr
  | none => []
  | some body => body.types
def statementTypes : List Statement → List TypeExpr
  | [] => []
  | s :: ss => s.types ++ statementTypes ss
def Block.types : Block → List TypeExpr
  | ⟨statements, _⟩ => statementTypes statements
end

/-! Reading words back. -/

/-- The span of what has no place. -/
def Span.nowhere : Span := ⟨default, default⟩

/-- A type from its text backwards. -/
def TypeExpr.ofReversed : List Char → TypeExpr
  | ']' :: '[' :: rest => .array (ofReversed rest)
  | cs => if cs = ['y', 'n', 'a'] then .any else .named (String.ofList cs.reverse) default

def TypeExpr.ofText (text : String) : TypeExpr := ofReversed text.toList.reverse

def beforeColon (text : String) : String := String.ofList (text.toList.takeWhile (· ≠ ':'))

def afterColon? (text : String) : Option String :=
  (text.toList.dropWhile (· ≠ ':')).tail?.map String.ofList

def Parameter.ofText (text : String) : Parameter :=
  ⟨beforeColon text, TypeExpr.ofText ((afterColon? text).getD "")⟩

def Shape.parameter? : Shape → Option Parameter
  | .word text => some (Parameter.ofText text)
  | _ => none

def Signature.ofParts (parameters : List Shape) (result : String) : Signature :=
  ⟨parameters.filterMap Shape.parameter?, TypeExpr.ofText result⟩

/-- A name, a number or the sign for no value, told by the first character. -/
def Expr.ofWord? (text : String) : Option Expr :=
  text.toList.head?.bind fun c =>
    if isWordStart c then some (.name text .nowhere)
    else if c.isDigit then (Double.ofText? text).map (.number · .nowhere)
    else some (.unassigned .nowhere)

/-! Reading lists back. An expression is read as the statement that it is alone. -/

def Expr.alone (e : Expr) : Statement := .expression e .nowhere

def Statement.value? : Statement → Option Expr
  | .expression value _ => some value
  | _ => none

def Statement.body? : Statement → Option Block
  | .block body => some body
  | _ => none

mutual
def Shape.statement? : Shape → Option Statement
  | .word text => (Expr.ofWord? text).map Expr.alone
  | .quoted text => some (Expr.alone (.string text .nowhere))
  | .node _ (.word head :: items) => nodeStatement? head items
  | _ => none
def nodeStatement? : String → List Shape → Option Statement
  | "block", entries => do
    return .block ⟨← statements? entries, .nowhere⟩
  | "if", [condition, thenBody] => do
    return .conditional (← (← condition.statement?).value?) (← (← thenBody.statement?).body?) none
      .nowhere
  | "if", [condition, thenBody, elseBody] => do
    return .conditional (← (← condition.statement?).value?) (← (← thenBody.statement?).body?)
      (some (← (← elseBody.statement?).body?)) .nowhere
  | "return", [value] => do
    return .result (← (← value.statement?).value?) .nowhere
  | "for", [iterable, .names xs, body] => do
    return .loop (← (← iterable.statement?).value?) xs (← (← body.statement?).body?) .nowhere
  | "var", [.word x, .word type, value] => do
    return .declaration true x (.ofText type) (← (← value.statement?).value?) .nowhere
  | "let", [.word x, .word type, value] => do
    return .declaration false x (.ofText type) (← (← value.statement?).value?) .nowhere
  | "function", [.word x, .node _ parameters, .word result, body] => do
    return .function x (.ofParts parameters result) (← (← body.statement?).body?) .nowhere
  | "class", [.word name, body] => do
    return .classDefinition (beforeColon name) (afterColon? name) (← (← body.statement?).body?)
      .nowhere
  | "call", callee :: arguments => do
    return Expr.alone (.call (← (← callee.statement?).value?)
      ((← statements? arguments).filterMap Statement.value?) .nowhere)
  | ".", [object, .word property] => do
    return Expr.alone (.member (← (← object.statement?).value?) property .nowhere)
  | "closure", [.word name, .node _ parameters, .word result, body] => do
    return Expr.alone (.closure (if name = "<anonymous>" then none else some name)
      (.ofParts parameters result) (← (← body.statement?).body?) .nowhere)
  | operator, [operand] => do
    return Expr.alone (.prefixed operator (← (← operand.statement?).value?) .nowhere)
  | operator, [left, right] => do
    let left ← (← left.statement?).value?
    let right ← (← right.statement?).value?
    return Expr.alone (if Grammar.assignmentOperators.contains operator then
      .assignment operator left right .nowhere else .binary operator left right .nowhere)
  | _, _ => none
def statements? : List Shape → Option (List Statement)
  | [] => some []
  | s :: ss => do return (← s.statement?) :: (← statements? ss)
end

/-! Words that are read back as what they were. -/

/-- Whether types are told from the one that is not written. -/
def Telling (ts : List TypeExpr) : Prop := ∀ t ∈ ts, t.base? ≠ some "any"

theorem telling_append {ts us : List TypeExpr} : Telling (ts ++ us) ↔ Telling ts ∧ Telling us :=
  List.forall_mem_append

theorem TypeExpr.ofReversed_render {t : TypeExpr} (h : t.wellFormed = true)
    (ht : t.base? ≠ some "any") : ofReversed t.render.toList.reverse = t.bare := by
  induction t with
  | any => rfl
  | named x p =>
    have hbracket (rest : List Char) : x.toList.reverse ≠ ']' :: rest := by
      intro heq
      have hmem : ']' ∈ x.toList := by rw [← List.mem_reverse, heq]; exact List.mem_cons_self
      cases isWordPart_of_isName h _ hmem
    have hany : x.toList.reverse ≠ ['y', 'n', 'a'] := by
      intro heq
      refine ht (congrArg some (String.toList_inj.1 ?_))
      rw [← List.reverse_reverse x.toList, heq]
      rfl
    rw [render, ofReversed, if_neg hany, List.reverse_reverse, String.ofList_toList]
    · rfl
    · exact fun rest heq => hbracket _ heq
  | array element ih =>
    have helement : element.wellFormed = true := by
      rw [wellFormed, Bool.or_eq_true]
      exact .inr h
    have hreverse : (element.render ++ "[]").toList.reverse =
        ']' :: '[' :: element.render.toList.reverse := by simp
    rw [render, hreverse, ofReversed, ih helement ht]
    rfl

theorem TypeExpr.ofText_render {t : TypeExpr} (h : t.wellFormed = true)
    (ht : t.base? ≠ some "any") : ofText t.render = t.bare := ofReversed_render h ht

private theorem ne_colon_of_isName {x : String} (h : isName x = true) :
    ∀ c ∈ x.toList, decide (c ≠ ':') = true := by
  intro c hc
  refine decide_eq_true ?_
  rintro rfl
  cases isWordPart_of_isName h _ hc

theorem colon_none {x : String} (h : isName x = true) :
    beforeColon x = x ∧ afterColon? x = none := by
  rw [beforeColon, afterColon?, List.takeWhile_eq_self_iff.2 (ne_colon_of_isName h),
    List.dropWhile_eq_nil_iff.2 (ne_colon_of_isName h), String.ofList_toList]
  exact ⟨rfl, rfl⟩

theorem colon_append {x : String} (h : isName x = true) (y : String) :
    beforeColon (x ++ ":" ++ y) = x ∧ afterColon? (x ++ ":" ++ y) = some y := by
  have htext : (x ++ ":" ++ y).toList = x.toList ++ ':' :: y.toList := by simp
  rw [beforeColon, afterColon?, htext, List.takeWhile_append_of_pos (ne_colon_of_isName h),
    List.dropWhile_append_of_pos (ne_colon_of_isName h)]
  simp

theorem colon_renderClassName {x : String} (h : isName x = true) (superclass : Option String) :
    beforeColon (renderClassName x superclass) = x ∧
      afterColon? (renderClassName x superclass) = superclass := by
  cases superclass with
  | none => exact colon_none h
  | some y => exact colon_append h y

theorem Parameter.ofText_render {p : Parameter} (h : p.wellFormed = true)
    (ht : p.type.base? ≠ some "any") : ofText p.render = p.bare := by
  rw [wellFormed, Bool.and_eq_true] at h
  obtain ⟨hbefore, hafter⟩ := colon_append h.1 p.type.render
  rw [render, ofText, hbefore, hafter, Option.getD_some, TypeExpr.ofText_render h.2 ht]
  rfl

theorem Signature.ofParts_shapes {s : Signature} (h : s.wellFormed = true)
    (ht : Telling s.types) :
    ofParts (s.parameters.map Parameter.shape) s.result.render = s.bare := by
  rw [wellFormed, Bool.and_eq_true, List.all_eq_true] at h
  obtain ⟨hparameters, hresult⟩ := telling_append.1 ht
  have heach : ∀ p ∈ s.parameters, (Shape.parameter? ∘ Parameter.shape) p = some p.bare :=
    fun p hp => congrArg some
      (Parameter.ofText_render (h.1 p hp) (hparameters _ (List.mem_map_of_mem hp)))
  rw [ofParts, TypeExpr.ofText_render h.2 (hresult _ List.mem_cons_self), List.filterMap_map,
    List.filterMap_eq_map_iff_forall_eq_some.2 heach]
  rfl

theorem Expr.ofWord?_name {x : String} (h : isName x = true) :
    ofWord? x = some (.name x .nowhere) := by
  obtain ⟨c, cs, hc, -, hcs⟩ := exists_of_isName h
  rw [ofWord?, hcs, List.head?_cons, Option.bind_some, if_pos hc]

theorem Expr.ofWord?_display {value : Double} (h : value.negative = false) :
    ofWord? value.display = some (.number value .nowhere) := by
  obtain ⟨c, cs, hcs, hc, -⟩ := Double.display_chars h
  rw [ofWord?, hcs, List.head?_cons, Option.bind_some, isWordStart_of_isDigit hc,
    if_neg Bool.false_ne_true, if_pos hc, Double.ofText?_display, Option.map_some]

/-! Trees that are read back. -/

/-- No operator is the head of another kind of list with as few items. -/
theorem operator_ne_head {operator : String} {table : List String}
    (htable : table ∈ [binaryNames, Grammar.assignmentOperators, Grammar.prefixOperators])
    (h : table.contains operator = true) :
    operator ∉ ["block", "if", "return", "class", "call", "."] := by
  have hall : ∀ table ∈ [binaryNames, Grammar.assignmentOperators, Grammar.prefixOperators],
      ∀ name ∈ table, name ∉ ["block", "if", "return", "class", "call", "."] := by decide
  exact hall table htable _ (List.contains_iff_mem.1 h)

section
variable {operator : String} {left right operand : Shape} {l r e : Expr}

theorem nodeStatement?_prefixed (h : Grammar.prefixOperators.contains operator = true)
    (he : operand.statement? = some e.alone) :
    nodeStatement? operator [operand] = some (Expr.prefixed operator e .nowhere).alone := by
  have hne := operator_ne_head (by simp) h
  simp only [List.mem_cons, List.not_mem_nil, or_false, not_or] at hne
  rw [nodeStatement?]
  · rw [he]
    rfl
  · exact hne.1
  · exact hne.2.2.1
  · exact hne.2.2.2.2.1

theorem nodeStatement?_pair {table : List String}
    (htable : table ∈ [binaryNames, Grammar.assignmentOperators, Grammar.prefixOperators])
    (h : table.contains operator = true) (hl : left.statement? = some l.alone)
    (hr : right.statement? = some r.alone) : nodeStatement? operator [left, right] =
      some (if Grammar.assignmentOperators.contains operator then
        Expr.assignment operator l r .nowhere else .binary operator l r .nowhere).alone := by
  have hne := operator_ne_head htable h
  simp only [List.mem_cons, List.not_mem_nil, or_false, not_or] at hne
  rw [nodeStatement?]
  · rw [hl, hr]
    rfl
  · exact hne.1
  · exact hne.2.1
  · exact fun _ hclass => absurd hclass hne.2.2.2.1
  · exact hne.2.2.2.2.1
  · exact fun _ hpoint => absurd hpoint hne.2.2.2.2.2

end

theorem value?_alone (e : Expr) : e.alone.value? = some e := rfl

theorem filterMap_value?_alone (es : List Expr) :
    (es.map Expr.alone).filterMap Statement.value? = es := by
  rw [List.filterMap_map]
  exact List.filterMap_some

mutual
theorem Expr.reread : (e : Expr) → (given : Option String) → given.all isName = true →
    e.wellFormed given = true → Telling e.types → e.shape.statement? = some e.bare.alone
  | .number value _, _, _, h, _ => by
    have hsign : value.negative = false := by simpa [Expr.wellFormed] using h
    rw [Expr.shape, Shape.statement?, Expr.ofWord?_display hsign]
    rfl
  | .string .., _, _, _, _ => by
    rw [Expr.shape, Shape.statement?]
    rfl
  | .name x _, _, _, h, _ => by
    rw [Expr.shape, Shape.statement?, Expr.ofWord?_name h]
    rfl
  | .unassigned _, _, _, _, _ => by
    rw [Expr.shape, Shape.statement?]
    rfl
  | .binary operator left right _, _, _, h, ht => by
    simp only [Expr.wellFormed, Bool.and_eq_true] at h
    obtain ⟨hleft, hright⟩ := telling_append.1 ht
    have hbinary : Grammar.assignmentOperators.contains operator = false := by
      have hall : ∀ name ∈ binaryNames, Grammar.assignmentOperators.contains name = false := by
        decide
      exact hall _ (List.contains_iff_mem.1 h.1.1)
    rw [Expr.shape, Shape.statement?, nodeStatement?_pair (by simp) h.1.1
      (left.reread none rfl h.1.2 hleft) (right.reread none rfl h.2 hright), hbinary]
    rfl
  | .prefixed operator operand _, _, _, h, ht => by
    simp only [Expr.wellFormed, Bool.and_eq_true] at h
    rw [Expr.shape, Shape.statement?,
      nodeStatement?_prefixed h.1 (operand.reread none rfl h.2 ht)]
    rfl
  | .assignment operator target value _, _, _, h, ht => by
    simp only [Expr.wellFormed, Bool.and_eq_true] at h
    obtain ⟨htarget, hvalue⟩ := telling_append.1 ht
    rw [Expr.shape, Shape.statement?, nodeStatement?_pair (by simp) h.1.1
      (target.reread none rfl h.1.2 htarget) (value.reread none rfl h.2 hvalue), if_pos h.1.1]
    rfl
  | .call callee arguments _, _, _, h, ht => by
    simp only [Expr.wellFormed, Bool.and_eq_true] at h
    obtain ⟨hcallee, harguments⟩ := telling_append.1 ht
    rw [Expr.shape, Shape.statement?, nodeStatement?, callee.reread none rfl h.1 hcallee,
      statements?_exprShapes arguments h.2 harguments]
    simp only [Option.bind_eq_bind, Option.bind_some, value?_alone, filterMap_value?_alone]
    rw [Expr.bare.eq_def (.call callee arguments _), Expr.relocate, relocateExprs_eq_map]
    rfl
  | .member object property _, _, _, h, ht => by
    simp only [Expr.wellFormed, Bool.and_eq_true] at h
    rw [Expr.shape, Shape.statement?, nodeStatement?, object.reread none rfl h.1 ht]
    rfl
  | .closure name signature body _, given, hgiven, h, ht => by
    simp only [Expr.wellFormed, Bool.and_eq_true, decide_eq_true_eq] at h
    obtain ⟨⟨rfl, hsignature⟩, hbody⟩ := h
    obtain ⟨htypes, hbodyTypes⟩ := telling_append.1 ht
    have hname : (if name.getD "<anonymous>" = "<anonymous>" then none else
        some (name.getD "<anonymous>")) = name := by
      cases name with
      | none => rfl
      | some x =>
        refine if_neg ?_
        rintro rfl
        exact absurd hgiven (by decide)
    rw [Expr.shape, Signature.shapes, List.cons_append, List.cons_append, List.nil_append,
      Shape.statement?, nodeStatement?, body.reread hbody hbodyTypes, hname,
      Signature.ofParts_shapes hsignature htypes]
    rfl
theorem statements?_exprShapes : (es : List Expr) → wellFormedExprs es = true →
    Telling (exprTypes es) →
    statements? (exprShapes es) = some ((es.map Expr.bare).map Expr.alone)
  | [], _, _ => by rw [exprShapes, statements?]; rfl
  | e :: es, h, ht => by
    simp only [wellFormedExprs, Bool.and_eq_true] at h
    obtain ⟨he, hes⟩ := telling_append.1 ht
    rw [exprShapes, statements?, e.reread none rfl h.1 he, statements?_exprShapes es h.2 hes]
    rfl
theorem Statement.reread : (s : Statement) → s.wellFormed = true → Telling s.types →
    s.shape.statement? = some s.bare
  | .expression value _, h, ht => by
    rw [Statement.shape, value.reread none rfl h ht]
    rfl
  | .block body, h, ht => by
    rw [Statement.shape, body.reread h ht]
    rfl
  | .conditional condition thenBody none _, h, ht => by
    simp only [Statement.wellFormed, Bool.and_eq_true] at h
    obtain ⟨hcondition, hthen⟩ := telling_append.1 ht
    obtain ⟨hthen, -⟩ := telling_append.1 hthen
    rw [Statement.shape, elseShapes, Shape.statement?, nodeStatement?,
      condition.reread none rfl h.1.1 hcondition, thenBody.reread h.1.2 hthen]
    rfl
  | .conditional condition thenBody (some elseBody) _, h, ht => by
    simp only [Statement.wellFormed, Bool.and_eq_true] at h
    obtain ⟨hcondition, hbodies⟩ := telling_append.1 ht
    obtain ⟨hthen, helse⟩ := telling_append.1 hbodies
    rw [Statement.shape, elseShapes, Shape.statement?, nodeStatement?,
      condition.reread none rfl h.1.1 hcondition, thenBody.reread h.1.2 hthen,
      elseBody.reread h.2 helse]
    rfl
  | .result value _, h, ht => by
    rw [Statement.shape, Shape.statement?, nodeStatement?, value.reread none rfl h ht]
    rfl
  | .loop iterable names body _, h, ht => by
    simp only [Statement.wellFormed, Bool.and_eq_true] at h
    obtain ⟨hiterable, hbody⟩ := telling_append.1 ht
    rw [Statement.shape, Shape.statement?, nodeStatement?,
      iterable.reread none rfl h.1.1 hiterable, body.reread h.2 hbody]
    rfl
  | .declaration changes x type value _, h, ht => by
    simp only [Statement.wellFormed, Bool.and_eq_true] at h
    obtain ⟨htype, hvalue⟩ := List.forall_mem_cons.1 ht
    have hread := value.reread (some x) h.1.1 h.2 hvalue
    have htext := TypeExpr.ofText_render h.1.2 htype
    cases changes with
    | false =>
      rw [Statement.shape, if_neg Bool.false_ne_true, Shape.statement?, nodeStatement?, hread,
        htext]
      rfl
    | true =>
      rw [Statement.shape, if_pos rfl, Shape.statement?, nodeStatement?, hread, htext]
      rfl
  | .function x signature body _, h, ht => by
    simp only [Statement.wellFormed, Bool.and_eq_true] at h
    obtain ⟨htypes, hbody⟩ := telling_append.1 ht
    rw [Statement.shape, Signature.shapes, List.cons_append, List.cons_append, List.nil_append,
      Shape.statement?, nodeStatement?, body.reread h.2 hbody,
      Signature.ofParts_shapes h.1.2 htypes]
    rfl
  | .classDefinition x superclass body _, h, ht => by
    simp only [Statement.wellFormed, Bool.and_eq_true] at h
    obtain ⟨hbefore, hafter⟩ := colon_renderClassName h.1.1 superclass
    rw [Statement.shape, Shape.statement?, nodeStatement?, body.reread h.2 ht, hbefore, hafter]
    rfl
theorem statements?_statementShapes : (ss : List Statement) → wellFormedStatements ss = true →
    Telling (statementTypes ss) → statements? (statementShapes ss) = some (ss.map Statement.bare)
  | [], _, _ => by rw [statementShapes, statements?]; rfl
  | s :: ss, h, ht => by
    simp only [wellFormedStatements, Bool.and_eq_true] at h
    obtain ⟨hs, hss⟩ := telling_append.1 ht
    rw [statementShapes, statements?, s.reread h.1 hs, statements?_statementShapes ss h.2 hss]
    rfl
theorem Block.reread : (b : Block) → b.wellFormed = true → Telling b.types →
    b.shape.statement? = some (.block b.bare)
  | ⟨statements, _⟩, h, ht => by
    rw [Block.shape, Shape.statement?, nodeStatement?,
      statements?_statementShapes statements h ht, Block.bare, Block.relocate,
      relocateStatements_eq_map]
    rfl
end

/-- The text of a statement determines the statement, but for its positions. -/
theorem Statement.bare_of_render {s s' : Statement} (h : s.wellFormed = true)
    (h' : s'.wellFormed = true) (ht : Telling s.types) (ht' : Telling s'.types)
    (heq : s.render = s'.render) : s.bare = s'.bare := by
  have hshape : s.shape = s'.shape :=
    (s.sound h).render_inj (s'.sound h') (by rw [s.render_shape, heq, s'.render_shape])
  have hread := s.reread h ht
  rw [hshape, s'.reread h' ht'] at hread
  exact (Option.some.inj hread).symm

theorem bare_of_renders {ss ss' : List Statement} (h : wellFormedStatements ss = true)
    (h' : wellFormedStatements ss' = true) (ht : Telling (statementTypes ss))
    (ht' : Telling (statementTypes ss'))
    (heq : ss.map Statement.render = ss'.map Statement.render) :
    ss.map Statement.bare = ss'.map Statement.bare := by
  induction ss generalizing ss' with
  | nil =>
    cases ss' with
    | nil => rfl
    | cons s' ss' => cases heq
  | cons s ss ih =>
    cases ss' with
    | nil => cases heq
    | cons s' ss' =>
      rw [wellFormedStatements, Bool.and_eq_true] at h h'
      rw [statementTypes, telling_append] at ht ht'
      obtain ⟨hhead, hrest⟩ := List.cons.inj heq
      rw [List.map_cons, List.map_cons, Statement.bare_of_render h.1 h'.1 ht.1 ht'.1 hhead,
        ih h.2 h'.2 ht.2 ht'.2 hrest]

/-- Programs whose statements have the same texts are the same but for positions, if no type in them
is called by the word that stands for none. -/
theorem rendering_injective {source source' : String} {origin origin' : Option String}
    {name name' : String} {b b' : Block} (h : Accepted source origin name b)
    (h' : Accepted source' origin' name' b') (ht : ∀ t ∈ b.types, t.base? ≠ some "any")
    (ht' : ∀ t ∈ b'.types, t.base? ≠ some "any")
    (heq : b.statements.map Statement.render = b'.statements.map Statement.render) :
    b.statements.map Statement.bare = b'.statements.map Statement.bare := by
  obtain ⟨tokens, stop, htokens, hparse⟩ := h
  obtain ⟨tokens', stop', htokens', hparse'⟩ := h'
  obtain ⟨ss, span⟩ := b
  obtain ⟨ss', span'⟩ := b'
  exact bare_of_renders (parse_statements_wellFormed htokens hparse)
    (parse_statements_wellFormed htokens' hparse') ht ht' heq

/-- Blanks and parentheses leave no trace in the tree, and none in its text. -/
theorem rendering_injective_group : ∃ b b',
    Accepted "let x=(y)" none "shell" b ∧ Accepted "let x = y" none "shell" b' ∧
      b.statements.map Statement.render = b'.statements.map Statement.render ∧
      b.statements.map Statement.bare = b'.statements.map Statement.bare := by
  have hread : ∀ source ∈ ["let x=(y)", "let x = y"], ∃ b, Accepted source none "shell" b ∧
      (∀ t ∈ b.types, t.base? ≠ some "any") ∧
        b.statements.map Statement.render = ["(let x any y)"] := by
    have hcheck : ∀ source ∈ ["let x=(y)", "let x = y"], isProgram source none "shell" (fun b =>
        (∀ t ∈ b.types, t.base? ≠ some "any") ∧
          b.statements.map Statement.render = ["(let x any y)"]) = true := by decide +kernel
    intro source hsource
    obtain ⟨b, h, htest⟩ := exists_of_isProgram (hcheck source hsource)
    exact ⟨b, h, of_decide_eq_true htest⟩
  obtain ⟨b, h, ht, htext⟩ := hread "let x=(y)" (by simp)
  obtain ⟨b', h', ht', htext'⟩ := hread "let x = y" (by simp)
  have heq := htext.trans htext'.symm
  exact ⟨b, b', h, h', heq, rendering_injective h h' ht ht' heq⟩

/-- A type that is called `any` has the text of the one that is not written. -/
example : (TypeExpr.named "any" default).render = TypeExpr.any.render := rfl

end ScriptSyntax
