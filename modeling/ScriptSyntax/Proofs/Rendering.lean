import ScriptSyntax.Proofs.Numerals
import ScriptSyntax.Proofs.Shapes

/-! The parts of the text of a tree. The tree needs to be well formed only where a text of it, a
name or an operator, is taken for a word. -/
namespace ScriptSyntax

def Parameter.shape (p : Parameter) : Shape := .word p.render

def Signature.shapes (s : Signature) : List Shape :=
  [.node false (s.parameters.map Parameter.shape), .word s.result.render]

mutual
def Expr.shape : Expr → Shape
  | .number value _ => .word value.display
  | .string value _ => .quoted value
  | .name x _ => .word x
  | .unassigned _ => .word "<unassigned>"
  | .binary operator left right _ => .node false [.word operator, left.shape, right.shape]
  | .prefixed operator operand _ => .node false [.word operator, operand.shape]
  | .assignment operator target value _ =>
    .node false [.word operator, target.shape, value.shape]
  | .call callee arguments _ =>
    .node false (.word "call" :: callee.shape :: exprShapes arguments)
  | .member object property _ => .node false [.word ".", object.shape, .word property]
  | .closure name signature body _ =>
    .node false (.word "closure" :: .word (name.getD "<anonymous>") ::
      (signature.shapes ++ [body.shape]))
def exprShapes : List Expr → List Shape
  | [] => []
  | e :: es => e.shape :: exprShapes es
def Statement.shape : Statement → Shape
  | .expression value _ => value.shape
  | .block body => body.shape
  | .conditional condition thenBody elseBody _ =>
    .node false (.word "if" :: condition.shape :: thenBody.shape :: elseShapes elseBody)
  | .result value _ => .node false [.word "return", value.shape]
  | .loop iterable names body _ =>
    .node false [.word "for", iterable.shape, .names names, body.shape]
  | .declaration changes x type value _ =>
    .node false [.word (if changes then "var" else "let"), .word x, .word type.render, value.shape]
  | .function x signature body _ =>
    .node false (.word "function" :: .word x :: (signature.shapes ++ [body.shape]))
  | .classDefinition x superclass body _ =>
    .node false [.word "class", .word (renderClassName x superclass), body.shape]
def elseShapes : Option Block → List Shape
  | none => []
  | some body => [body.shape]
def statementShapes : List Statement → List Shape
  | [] => []
  | s :: ss => s.shape :: statementShapes ss
def Block.shape : Block → Shape
  | ⟨statements, _⟩ => .node true (.word "block" :: statementShapes statements)
end

/-! The text of the parts is the text of the tree. -/

theorem renderShapes_signature (s : Signature) (body : Shape) :
    renderShapes (s.shapes ++ [body]) = s.render ++ [body.render] := by
  simp [renderShapes_eq_map, Signature.shapes, Signature.render, Shape.render, Parameter.shape,
    Function.comp_def]

mutual
theorem Expr.render_shape : (e : Expr) → e.shape.render = e.render
  | .number .. | .string .. | .name .. | .unassigned .. => by
    simp only [Expr.shape, Shape.render, Expr.render]
  | .binary _ left right _ => by
    simp only [Expr.shape, Shape.render, renderShapes, Expr.render, left.render_shape,
      right.render_shape]
  | .prefixed _ operand _ => by
    simp only [Expr.shape, Shape.render, renderShapes, Expr.render, operand.render_shape]
  | .assignment _ target value _ => by
    simp only [Expr.shape, Shape.render, renderShapes, Expr.render, target.render_shape,
      value.render_shape]
  | .call callee arguments _ => by
    simp only [Expr.shape, Shape.render, renderShapes, Expr.render, callee.render_shape,
      renderShapes_exprShapes arguments]
  | .member object _ _ => by
    simp only [Expr.shape, Shape.render, renderShapes, Expr.render, object.render_shape]
  | .closure _ signature body _ => by
    simp only [Expr.shape, Shape.render, renderShapes, Expr.render, renderShapes_signature,
      body.render_shape, List.cons_append, List.nil_append]
theorem renderShapes_exprShapes : (es : List Expr) → renderShapes (exprShapes es) = renderExprs es
  | [] => rfl
  | e :: es => by
    rw [exprShapes, renderShapes, renderExprs, e.render_shape, renderShapes_exprShapes es]
theorem Statement.render_shape : (s : Statement) → s.shape.render = s.render
  | .expression value _ => by rw [Statement.shape, Statement.render, value.render_shape]
  | .block body => by rw [Statement.shape, Statement.render, body.render_shape]
  | .conditional condition thenBody elseBody _ => by
    simp only [Statement.shape, Shape.render, renderShapes, Statement.render,
      condition.render_shape, thenBody.render_shape, renderShapes_elseShapes elseBody,
      List.cons_append, List.nil_append]
  | .result value _ => by
    simp only [Statement.shape, Shape.render, renderShapes, Statement.render, value.render_shape]
  | .loop iterable _ body _ => by
    simp only [Statement.shape, Shape.render, renderShapes, Statement.render,
      iterable.render_shape, body.render_shape]
  | .declaration _ _ _ value _ => by
    simp only [Statement.shape, Shape.render, renderShapes, Statement.render, value.render_shape]
  | .function _ signature body _ => by
    simp only [Statement.shape, Shape.render, renderShapes, Statement.render,
      renderShapes_signature, body.render_shape, List.cons_append, List.nil_append]
  | .classDefinition _ _ body _ => by
    simp only [Statement.shape, Shape.render, renderShapes, Statement.render, body.render_shape]
theorem renderShapes_elseShapes : (body : Option Block) →
    renderShapes (elseShapes body) = renderElse body
  | none => rfl
  | some body => by rw [elseShapes, renderShapes, renderShapes, renderElse, body.render_shape]
theorem renderShapes_statementShapes : (ss : List Statement) →
    renderShapes (statementShapes ss) = renderStatements ss
  | [] => rfl
  | s :: ss => by
    rw [statementShapes, renderShapes, renderStatements, s.render_shape,
      renderShapes_statementShapes ss]
theorem Block.render_shape : (b : Block) → b.shape.render = b.render
  | ⟨statements, _⟩ => by
    rw [Block.shape, Shape.render, renderShapes, Block.render, Shape.render,
      renderShapes_statementShapes statements]
end

/-! Words of trees. -/

theorem isWord_of_isName {x : String} (h : isName x = true) : isWord x = true := by
  obtain ⟨c, cs, hc, -, hx⟩ := exists_of_isName h
  refine isWord_iff.2 ⟨c, cs, hx, ?_, fun d hd => ?_⟩
  · rintro rfl
    cases hc
  · exact isPlain_of_isWordPart (isWordPart_of_isName h d (hx ▸ hd))

/-- What follows a word without a break leaves it a word. -/
theorem isWord_append {x y : String} (hx : isWord x = true)
    (hy : ∀ c ∈ y.toList, isPlain c = true) : isWord (x ++ y) = true := by
  obtain ⟨c, cs, hcs, hc, hplain⟩ := isWord_iff.1 hx
  refine isWord_iff.2 ⟨c, cs ++ y.toList, by rw [String.toList_append, hcs, List.cons_append], hc,
    fun d hd => ?_⟩
  rw [← List.cons_append] at hd
  exact (List.mem_append.1 hd).elim (hplain d) (hy d)

theorem isPlain_of_isWord {x : String} (h : isWord x = true) :
    ∀ c ∈ x.toList, isPlain c = true := by
  obtain ⟨c, cs, hcs, -, hplain⟩ := isWord_iff.1 h
  exact hcs ▸ hplain

theorem isPlain_of_isDigit {c : Char} (h : c.isDigit = true) : isPlain c = true := by
  apply isPlain_of_isWordPart
  rw [isWordPart, Char.isAlphanum, h, Bool.or_true, Bool.true_or]

/-- A number without a sign is shown by digits, perhaps with a point after the first ones. -/
theorem Double.display_chars {value : Double} (h : value.negative = false) :
    ∃ c cs, value.display.toList = c :: cs ∧ c.isDigit = true ∧
      ∀ d ∈ cs, d.isDigit = true ∨ d = '.' := by
  have hmatches := Pattern.matches_of_read? (p := .number) (Double.readNumber?_display h)
  rcases Pattern.matches_number.1 hmatches with hdigits | ⟨whole, digits, hwhole, hdigits, htext⟩
  · obtain ⟨c, cs, hcs⟩ := List.exists_cons_of_ne_nil hdigits.1
    have hall := hdigits.2
    rw [hcs] at hall
    exact ⟨c, cs, hcs, hall c List.mem_cons_self,
      fun d hd => .inl (hall d (List.mem_cons_of_mem _ hd))⟩
  · obtain ⟨c, cs, rfl⟩ := List.exists_cons_of_ne_nil hwhole.1
    refine ⟨c, cs ++ '.' :: digits, htext, hwhole.2 c List.mem_cons_self, fun d hd => ?_⟩
    rcases List.mem_append.1 hd with hd | hd
    · exact .inl (hwhole.2 d (List.mem_cons_of_mem _ hd))
    · exact (List.mem_cons.1 hd).symm.imp_left (hdigits.2 d)

theorem isWord_display {value : Double} (h : value.negative = false) :
    isWord value.display = true := by
  obtain ⟨c, cs, hcs, hc, hrest⟩ := Double.display_chars h
  refine isWord_iff.2 ⟨c, cs, hcs, ?_, List.forall_mem_cons.2 ⟨isPlain_of_isDigit hc, ?_⟩⟩
  · rintro rfl
    cases hc
  · intro d hd
    rcases hrest d hd with hdigit | rfl
    · exact isPlain_of_isDigit hdigit
    · rfl

theorem TypeExpr.isWord_render {t : TypeExpr} (h : t.wellFormed = true) :
    isWord t.render = true := by
  induction t with
  | any => decide
  | named x => exact isWord_of_isName h
  | array element ih =>
    have helement : element.wellFormed = true := by
      rw [wellFormed, Bool.or_eq_true]
      exact .inr h
    exact isWord_append (ih helement) (List.all_eq_true.1 rfl)

theorem isWord_colon {x y : String} (hx : isName x = true) (hy : isWord y = true) :
    isWord (x ++ ":" ++ y) = true :=
  isWord_append (isWord_append (isWord_of_isName hx) (List.all_eq_true.1 rfl))
    (isPlain_of_isWord hy)

theorem isWord_renderClassName {x : String} {superclass : Option String} (hx : isName x = true)
    (h : superclass.all isName = true) : isWord (renderClassName x superclass) = true := by
  cases superclass with
  | none => exact isWord_of_isName hx
  | some y => exact isWord_colon hx (isWord_of_isName h)

/-- The operators of the tables are words, and none of them is taken for a block. -/
theorem isWord_operator {operator : String} {table : List String}
    (htable : table ∈ [binaryNames, Grammar.assignmentOperators, Grammar.prefixOperators])
    (h : table.contains operator = true) : isWord operator = true ∧ operator ≠ "block" := by
  have hall : ∀ table ∈ [binaryNames, Grammar.assignmentOperators, Grammar.prefixOperators],
      ∀ name ∈ table, isWord name = true ∧ name ≠ "block" := by decide
  exact hall table htable _ (List.contains_iff_mem.1 h)

/-- The colon in a parameter tells it from the head of a block. -/
theorem Parameter.render_ne_block (p : Parameter) : p.render ≠ "block" := by
  intro h
  have hcolon : ':' ∈ p.render.toList := by simp [render]
  rw [h] at hcolon
  exact absurd hcolon (by decide)

/-! Well-formed trees have sound parts. -/

theorem Shape.Sound.list {head : String} {items : List Shape}
    (hhead : isWord head = true ∧ head ≠ "block") (h : ∀ s ∈ items, s.Sound) :
    (Shape.node false (.word head :: items)).Sound := by
  refine .node (decide_eq_false hhead.2).symm (fun hbroken => by cases hbroken) ?_
  exact List.forall_mem_cons.2 ⟨.word hhead.1, h⟩

/-- The parts of a function behind its name. -/
theorem Signature.sound {s : Signature} (h : s.wellFormed = true) {body : Shape}
    (hbody : body.Sound) : ∀ item ∈ s.shapes ++ [body], item.Sound := by
  rw [wellFormed, Bool.and_eq_true, List.all_eq_true] at h
  obtain ⟨hparameters, hresult⟩ := h
  have hitems : ∀ item ∈ s.parameters.map Parameter.shape, item.Sound := by
    refine List.forall_mem_map.2 fun p hp => .word ?_
    have hp := hparameters p hp
    rw [Parameter.wellFormed, Bool.and_eq_true] at hp
    exact isWord_colon hp.1 (TypeExpr.isWord_render hp.2)
  have hhead : headsBlock (s.parameters.map Parameter.shape) = false := by
    cases s.parameters with
    | nil => rfl
    | cons p ps => exact decide_eq_false p.render_ne_block
  refine List.forall_mem_cons.2 ⟨.node hhead.symm (fun hbroken => by cases hbroken) hitems, ?_⟩
  exact List.forall_mem_cons.2 ⟨.word (TypeExpr.isWord_render hresult),
    List.forall_mem_singleton.2 hbody⟩

theorem Expr.shape_ne_names (e : Expr) (xs : List String) : e.shape ≠ .names xs := by
  cases e <;> simp [shape]

theorem Statement.shape_ne_names (s : Statement) (xs : List String) : s.shape ≠ .names xs := by
  cases s with
  | expression value => exact value.shape_ne_names xs
  | block body =>
    cases body
    simp [shape, Block.shape]
  | _ => simp [shape]

theorem names_notMem_statementShapes (ss : List Statement) (xs : List String) :
    .names xs ∉ statementShapes ss := by
  induction ss with
  | nil => exact List.not_mem_nil
  | cons s ss ih =>
    rw [statementShapes, List.mem_cons, not_or]
    exact ⟨(s.shape_ne_names xs).symm, ih⟩

mutual
theorem Expr.sound : (e : Expr) → (given : Option String) → given.all isName = true →
    e.wellFormed given = true → e.shape.Sound
  | .number .., _, _, h => .word (isWord_display (by simpa [Expr.wellFormed] using h))
  | .string value _, _, _, _ => .quoted value
  | .name .., _, _, h => .word (isWord_of_isName h)
  | .unassigned _, _, _, _ => .word (by decide)
  | .binary _ left right _, _, _, h => by
    simp only [Expr.wellFormed, Bool.and_eq_true] at h
    refine .list (isWord_operator (by simp) h.1.1) ?_
    simp [left.sound none rfl h.1.2, right.sound none rfl h.2]
  | .prefixed _ operand _, _, _, h => by
    simp only [Expr.wellFormed, Bool.and_eq_true] at h
    refine .list (isWord_operator (by simp) h.1) ?_
    simp [operand.sound none rfl h.2]
  | .assignment _ target value _, _, _, h => by
    simp only [Expr.wellFormed, Bool.and_eq_true] at h
    refine .list (isWord_operator (by simp) h.1.1) ?_
    simp [target.sound none rfl h.1.2, value.sound none rfl h.2]
  | .call callee arguments _, _, _, h => by
    simp only [Expr.wellFormed, Bool.and_eq_true] at h
    exact .list (by decide)
      (List.forall_mem_cons.2 ⟨callee.sound none rfl h.1, exprShapes_sound arguments h.2⟩)
  | .member object property _, _, _, h => by
    simp only [Expr.wellFormed, Bool.and_eq_true] at h
    refine .list (by decide) ?_
    simp [object.sound none rfl h.1, Shape.Sound.word (isWord_of_isName h.2)]
  | .closure name signature body _, given, hgiven, h => by
    simp only [Expr.wellFormed, Bool.and_eq_true, decide_eq_true_eq] at h
    obtain ⟨⟨rfl, hsignature⟩, hbody⟩ := h
    have hname : isWord (name.getD "<anonymous>") = true := by
      cases name with
      | none => decide
      | some x => exact isWord_of_isName hgiven
    exact .list (by decide)
      (List.forall_mem_cons.2 ⟨.word hname, Signature.sound hsignature (body.sound hbody)⟩)
theorem exprShapes_sound : (es : List Expr) → wellFormedExprs es = true →
    ∀ s ∈ exprShapes es, s.Sound
  | [], _ => by simp [exprShapes]
  | e :: es, h => by
    simp only [wellFormedExprs, Bool.and_eq_true] at h
    exact List.forall_mem_cons.2 ⟨e.sound none rfl h.1, exprShapes_sound es h.2⟩
theorem Statement.sound : (s : Statement) → s.wellFormed = true → s.shape.Sound
  | .expression value _, h => value.sound none rfl h
  | .block body, h => body.sound h
  | .conditional condition thenBody elseBody _, h => by
    simp only [Statement.wellFormed, Bool.and_eq_true] at h
    exact .list (by decide) (List.forall_mem_cons.2 ⟨condition.sound none rfl h.1.1,
      List.forall_mem_cons.2 ⟨thenBody.sound h.1.2, elseShapes_sound elseBody h.2⟩⟩)
  | .result value _, h => .list (by decide) (by simpa using value.sound none rfl h)
  | .loop iterable names body _, h => by
    simp only [Statement.wellFormed, Bool.and_eq_true] at h
    refine .list (by decide) ?_
    simp [iterable.sound none rfl h.1.1, Shape.Sound.names h.1.2, body.sound h.2]
  | .declaration changes x type value _, h => by
    simp only [Statement.wellFormed, Bool.and_eq_true] at h
    refine .list (by cases changes <;> decide) ?_
    simp [Shape.Sound.word (isWord_of_isName h.1.1),
      Shape.Sound.word (TypeExpr.isWord_render h.1.2), value.sound (some x) h.1.1 h.2]
  | .function x signature body _, h => by
    simp only [Statement.wellFormed, Bool.and_eq_true] at h
    exact .list (by decide) (List.forall_mem_cons.2
      ⟨.word (isWord_of_isName h.1.1), Signature.sound h.1.2 (body.sound h.2)⟩)
  | .classDefinition x superclass body _, h => by
    simp only [Statement.wellFormed, Bool.and_eq_true] at h
    refine .list (by decide) ?_
    simp [Shape.Sound.word (isWord_renderClassName h.1.1 h.1.2), body.sound h.2]
theorem elseShapes_sound : (body : Option Block) → wellFormedElse body = true →
    ∀ s ∈ elseShapes body, s.Sound
  | none, _ => by simp [elseShapes]
  | some body, h => List.forall_mem_singleton.2 (body.sound h)
theorem statementShapes_sound : (ss : List Statement) → wellFormedStatements ss = true →
    ∀ s ∈ statementShapes ss, s.Sound
  | [], _ => by simp [statementShapes]
  | s :: ss, h => by
    simp only [wellFormedStatements, Bool.and_eq_true] at h
    exact List.forall_mem_cons.2 ⟨s.sound h.1, statementShapes_sound ss h.2⟩
theorem Block.sound : (b : Block) → b.wellFormed = true → b.shape.Sound
  | ⟨statements, _⟩, h => by
    refine .node rfl (fun _ xs hxs => ?_) (List.forall_mem_cons.2 ⟨.word (by decide), ?_⟩)
    · rcases List.mem_cons.1 hxs with hxs | hxs
      · cases hxs
      · exact names_notMem_statementShapes statements xs hxs
    · exact statementShapes_sound statements h
end

end ScriptSyntax
