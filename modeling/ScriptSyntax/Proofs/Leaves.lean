import ScriptSyntax.Proofs.Language

/-! The names and literals of a program. A tree has those of its tokens, and it has them in their
order: none is lost, none is there twice, and none has moved. -/
namespace ScriptSyntax
variable {ws vs : List Terminal} {pieces : List (List Terminal)}

/-- A name or a literal. A number is the value of its text, where that is not too large. -/
inductive Leaf where
  | name (text : String)
  | string (value : String)
  | number (value : Option Double)
  deriving DecidableEq, Repr

/-- The leaf that a token is. Words that are reserved are none, nor are symbols. -/
def Token.leaf? (t : Token) : Option Leaf :=
  match t.kind with
  | .name => some (.name t.text)
  | .string => some (.string t.text)
  | .number => some (.number (Double.ofText? t.text))
  | .endOfInput | .newLine | .symbol | .keyword _ => none

def Terminal.leaf? : Terminal → Option Leaf
  | name text => some (.name text)
  | string value => some (.string value)
  | number text => some (.number (Double.ofText? text))
  | endOfInput | newLine | symbol _ | keyword _ => none

theorem Token.leaf?_eq (t : Token) : t.leaf? = t.terminal.leaf? := by
  rw [leaf?, terminal]
  cases t.kind <;> rfl

/-- The leaves among some words. -/
def leavesOf (ws : List Terminal) : List Leaf := ws.filterMap Terminal.leaf?

section Words
variable {symbol text x : String} {word : Keyword}

@[simp]
theorem leavesOf_append : leavesOf (ws ++ vs) = leavesOf ws ++ leavesOf vs :=
  List.filterMap_append

@[simp]
theorem leavesOf_symbol : leavesOf (.symbol symbol :: ws) = leavesOf ws := rfl

/-- What closes words adds no leaf. -/
theorem leavesOf_closed : leavesOf (ws ++ [.symbol symbol]) = leavesOf ws := by
  rw [leavesOf_append]
  exact List.append_nil _

@[simp]
theorem leavesOf_keyword : leavesOf (.keyword word :: ws) = leavesOf ws := rfl

@[simp]
theorem leavesOf_newLine : leavesOf (.newLine :: ws) = leavesOf ws := rfl

@[simp]
theorem leavesOf_name : leavesOf (.name x :: ws) = .name x :: leavesOf ws := rfl

end Words

/-! The leaves of a tree, in the order in which a source has them. -/

def TypeExpr.leaves : TypeExpr → List Leaf
  | any => []
  | named x _ => [.name x]
  | array element => element.leaves

def Parameter.leaves (p : Parameter) : List Leaf := .name p.name :: p.type.leaves

def Signature.leaves (s : Signature) : List Leaf :=
  s.parameters.flatMap Parameter.leaves ++ s.result.leaves

mutual
/-- The leaves of an expression. The name of a closure is not written at the closure, and a value
that is missing is not written at all. -/
def Expr.leaves : Expr → List Leaf
  | .number value _ => [.number (some value)]
  | .string value _ => [.string value]
  | .name x _ => [.name x]
  | .unassigned _ => []
  | .binary _ left right _ => left.leaves ++ right.leaves
  | .prefixed _ operand _ => operand.leaves
  | .assignment _ target value _ => target.leaves ++ value.leaves
  | .call callee arguments _ => callee.leaves ++ exprLeaves arguments
  | .member object property _ => object.leaves ++ [.name property]
  | .closure _ signature body _ => signature.leaves ++ body.leaves
def exprLeaves : List Expr → List Leaf
  | [] => []
  | e :: es => e.leaves ++ exprLeaves es
def Statement.leaves : Statement → List Leaf
  | .expression value _ | .result value _ => value.leaves
  | .block body => body.leaves
  | .conditional condition thenBody elseBody _ =>
    condition.leaves ++ (thenBody.leaves ++ elseLeaves elseBody)
  | .loop iterable names body _ => iterable.leaves ++ (names.map .name ++ body.leaves)
  | .declaration _ x type value _ => .name x :: (type.leaves ++ value.leaves)
  | .function x signature body _ => .name x :: (signature.leaves ++ body.leaves)
  | .classDefinition x superclass body _ =>
    .name x :: (superclass.toList.map .name ++ body.leaves)
def elseLeaves : Option Block → List Leaf
  | none => []
  | some body => body.leaves
def statementLeaves : List Statement → List Leaf
  | [] => []
  | s :: ss => s.leaves ++ statementLeaves ss
def Block.leaves : Block → List Leaf
  | ⟨statements, _⟩ => statementLeaves statements
end

theorem exprLeaves_eq (es : List Expr) : exprLeaves es = es.flatMap Expr.leaves := by
  induction es with
  | nil => rfl
  | cons e es ih => rw [exprLeaves, ih, List.flatMap_cons]

theorem statementLeaves_eq (ss : List Statement) :
    statementLeaves ss = ss.flatMap Statement.leaves := by
  induction ss with
  | nil => rfl
  | cons s ss ih => rw [statementLeaves, ih, List.flatMap_cons]

theorem Block.leaves_eq (b : Block) : b.leaves = b.statements.flatMap Statement.leaves := by
  obtain ⟨statements, span⟩ := b
  exact statementLeaves_eq statements

theorem Expr.leaves_named (x : String) (e : Expr) : (e.named x).leaves = e.leaves := by
  cases e <;> rfl

/-! A layout puts symbols and ends of lines between its pieces, and nothing else. -/

theorem EmptyLines.leaves (h : EmptyLines ws) : leavesOf ws = [] := by
  induction ws with
  | nil => rfl
  | cons w ws ih =>
    obtain ⟨rfl, hws⟩ := List.forall_mem_cons.1 h
    rw [leavesOf_newLine, ih hws]

theorem Listed.leaves (h : Listed pieces ws) : leavesOf ws = pieces.flatMap leavesOf := by
  induction h with
  | nil => rfl
  | last ws hnl => simp [hnl.leaves]
  | cons ws hnl hnl' _ ih => simp [hnl.leaves, hnl'.leaves, ih]

theorem Parenthesized.leaves (h : Parenthesized pieces ws) :
    leavesOf ws = pieces.flatMap leavesOf := by
  cases h with
  | intro hnl hus =>
    rw [leavesOf_symbol, leavesOf_append, hnl.leaves, leavesOf_closed, hus.leaves, List.nil_append]

theorem Lined.leaves (h : Lined pieces ws) : leavesOf ws = pieces.flatMap leavesOf := by
  induction h with
  | one ws => simp
  | cons ws hnl _ _ ih => simp [hnl.leaves, ih]

theorem OnLines.leaves (h : OnLines pieces ws) : leavesOf ws = pieces.flatMap leavesOf := by
  cases h with
  | none hnl => exact hnl.leaves
  | some hnl hus hnl' => simp [hnl.leaves, hus.leaves, hnl'.leaves]

theorem Loosely.leaves {fits : Statement → List Terminal → Prop}
    {items : List (Statement × List Terminal)} (h : Loosely fits items ws) :
    leavesOf ws = (items.map (·.2)).flatMap leavesOf := by
  induction h with
  | nil hnl => exact hnl.leaves
  | cons us hnl _ _ ih => simp [hnl.leaves, ih]

/-- Pieces that have the leaves of what they spell have them together. -/
theorem leavesOf_pieces {α : Type} {items : List (α × List Terminal)} {leaves : α → List Leaf}
    (h : ∀ i ∈ items, leavesOf i.2 = leaves i.1) :
    (items.map (·.2)).flatMap leavesOf = (items.map (·.1)).flatMap leaves := by
  induction items with
  | nil => rfl
  | cons i items ih =>
    obtain ⟨hi, hitems⟩ := List.forall_mem_cons.1 h
    rw [List.map_cons, List.map_cons, List.flatMap_cons, List.flatMap_cons, hi, ih hitems]

/-! The words of a construct have its leaves. -/

theorem TypeText.leaves {t : TypeExpr} (h : TypeText t ws) : leavesOf ws = t.leaves := by
  induction h with
  | named x p => rfl
  | array _ ih =>
    rw [leavesOf_append, ih]
    exact List.append_nil _

theorem Annotation.leaves {symbol : String} {t : TypeExpr} (h : Annotation symbol t ws) :
    leavesOf ws = t.leaves := by
  cases h with
  | absent => rfl
  | present htext => rw [leavesOf_symbol, htext.leaves]

theorem ParameterText.leaves {p : Parameter} (h : ParameterText p ws) :
    leavesOf ws = p.leaves := by
  cases h with
  | intro x htype => rw [leavesOf_name, htype.leaves, Parameter.leaves]

theorem SignatureText.leaves {s : Signature} (h : SignatureText s ws) :
    leavesOf ws = s.leaves := by
  cases h with
  | intro hitems hlayout hresult =>
    have hparameters := leavesOf_pieces fun i hi => (hitems i hi).leaves
    rw [leavesOf_append, hlayout.leaves, hparameters, hresult.leaves, Signature.leaves]

theorem leavesOf_loopNames (names : List String) :
    leavesOf (loopNames names) = names.map .name := by
  cases names with
  | nil => rfl
  | cons x xs =>
    have hrest : leavesOf (xs.flatMap fun y => [.symbol ",", .name y]) = xs.map .name := by
      induction xs with
      | nil => rfl
      | cons y ys ih => rw [List.flatMap_cons, leavesOf_append, ih]; rfl
    rw [loopNames, leavesOf_keyword, leavesOf_name, hrest, List.map_cons]

theorem leavesOf_superclassText (superclass : Option String) :
    leavesOf (superclassText superclass) = superclass.toList.map .name := by
  cases superclass <;> rfl

def Phrase.leaves : Phrase → List Leaf
  | expr _ value => value.leaves
  | block body => body.leaves
  | statement value => value.leaves

/-- Words derive trees that have their leaves, where every number has a value. -/
theorem Derives.leaves {fits : Statement → List Terminal → Prop} {p : Phrase}
    (h : Derives fits p ws) (hfin : ∀ w ∈ ws, w.Finite) : leavesOf ws = p.leaves := by
  induction h with
  | number text span =>
    obtain ⟨value, hvalue⟩ := Option.isSome_iff_exists.1 (hfin _ List.mem_cons_self)
    simp [leavesOf, Terminal.leaf?, Phrase.leaves, Expr.leaves, numberValue, hvalue]
  | string | name => rfl
  | grouping hnl _ hnl' ih =>
    have he := ih fun w hw => hfin w (by simp [hw])
    rw [leavesOf_symbol, leavesOf_append, leavesOf_append, leavesOf_closed, hnl.leaves, hnl'.leaves,
      he, List.nil_append, List.append_nil]
    rfl
  | closure span hsig _ ih =>
    have hb := ih fun w hw => hfin w (by simp [hw])
    rw [leavesOf_keyword, leavesOf_append, hsig.leaves, hb]
    rfl
  | @call _ items _ _ span _ _ hlayout ih iha =>
    have hc := ih fun w hw => hfin w (by simp [hw])
    have hitems : ∀ i ∈ items, leavesOf i.2 = i.1.leaves := fun i hi =>
      iha i hi fun w hw => hfin w (List.mem_append_right _ ((hlayout.isInfix
        (List.mem_map_of_mem hi)).subset hw))
    rw [leavesOf_append, hc, hlayout.leaves, leavesOf_pieces hitems, ← exprLeaves_eq]
    rfl
  | member x span _ ih =>
    have ho := ih fun w hw => hfin w (by simp [hw])
    rw [leavesOf_append, ho]
    rfl
  | prefixed span _ _ ih => exact ih fun w hw => hfin w (by simp [hw])
  | binary span _ _ _ hnl _ ihl ihr | assignment span _ _ hnl _ ihl ihr =>
    have hl := ihl fun w hw => hfin w (by simp [hw])
    have hr := ihr fun w hw => hfin w (by simp [hw])
    rw [leavesOf_append, leavesOf_symbol, leavesOf_append, hl, hnl.leaves, hr]
    rfl
  | tighter _ _ ih => exact ih hfin
  | @block items _ span _ hlayout ih =>
    have hitems : ∀ i ∈ items, leavesOf i.2 = i.1.leaves := fun i hi =>
      have hsubset := (hlayout.isInfix (List.mem_map_of_mem hi)).subset
      ih i hi fun w hw => hfin w (by simp [hsubset hw])
    rw [leavesOf_symbol, leavesOf_append, hlayout.leaves, leavesOf_pieces hitems, Phrase.leaves,
      Block.leaves_eq]
    exact List.append_nil _
  | nested _ ih => exact ih hfin
  | conditional span _ _ ihc ihb =>
    have hc := ihc fun w hw => hfin w (by simp [hw])
    have hb := ihb fun w hw => hfin w (by simp [hw])
    simp [hc, hb, Phrase.leaves, Statement.leaves, elseLeaves]
  | alternative span _ _ _ ihc ihb ihe =>
    have hc := ihc fun w hw => hfin w (by simp [hw])
    have hb := ihb fun w hw => hfin w (by simp [hw])
    have he := ihe fun w hw => hfin w (by simp [hw])
    simp [hc, hb, he, Phrase.leaves, Statement.leaves, elseLeaves]
  | function x span hsig _ ih =>
    have hb := ih fun w hw => hfin w (by simp [hw])
    rw [leavesOf_keyword, leavesOf_name, leavesOf_append, hsig.leaves, hb]
    rfl
  | result span _ ih => exact ih fun w hw => hfin w (by simp [hw])
  | @loop _ items _ _ _ names bodySpan span _ hnl _ hlayout ihe ihs =>
    have he := ihe fun w hw => hfin w (by simp [hw])
    have hitems : ∀ i ∈ items, leavesOf i.2 = i.1.leaves := fun i hi =>
      ihs i hi fun w hw => hfin w (by simp [(hlayout.isInfix hi).subset hw])
    rw [leavesOf_keyword, leavesOf_append, he, leavesOf_symbol, leavesOf_append, hnl.leaves,
      leavesOf_append, leavesOf_loopNames, leavesOf_closed, hlayout.leaves, leavesOf_pieces hitems]
    simp [Phrase.leaves, Statement.leaves, Block.leaves_eq]
  | classDefinition x superclass span _ ih =>
    have hb := ih fun w hw => hfin w (by simp [hw])
    rw [leavesOf_keyword, leavesOf_name, leavesOf_append, leavesOf_superclassText, hb]
    rfl
  | unassigned changes x valueSpan span htype =>
    simp [htype.leaves, Phrase.leaves, Statement.leaves, Expr.leaves]
  | declaration changes x span htype hnl _ ih =>
    have hv := ih fun w hw => hfin w (by simp [hw])
    simp [htype.leaves, hnl.leaves, hv, Phrase.leaves, Statement.leaves, Expr.leaves_named]
  | expression span _ _ ih => exact ih hfin

theorem DerivesProgram.leaves {fits : Statement → List Terminal → Prop} {ss : List Statement}
    (h : DerivesProgram fits ss ws) (hfin : ∀ w ∈ ws, w.Finite) :
    leavesOf ws = ss.flatMap Statement.leaves := by
  cases h with
  | @intro items us hitems hlayout =>
    have hleaves : ∀ i ∈ items, leavesOf i.2 = i.1.leaves := fun i hi =>
      have hsubset := (hlayout.isInfix (List.mem_map_of_mem hi)).subset
      (hitems i hi).leaves fun w hw => hfin w (by simp [hsubset hw])
    rw [leavesOf_append, hlayout.leaves, leavesOf_pieces hleaves]
    exact List.append_nil _

/-- The names and literals of a source that is accepted are those of its tree, each as often as it
is written and all in the order of the source. -/
theorem parse_keeps_leaves {source : String} {file : Option String} {tokens : List Token}
    (h : tokenize source file = .ok tokens) {name : String} {b : Block} {stop : Cursor}
    (hp : parse tokens name = .done b stop) : tokens.filterMap Token.leaf? = b.leaves := by
  obtain ⟨before, t, rfl, ht, hbefore⟩ := scan_tokens (scan_of_tokenize h)
  obtain ⟨hderives, hfin⟩ := parse_sound ht hbefore hp
  have hall : ∀ w ∈ (before ++ [t]).map Token.terminal, w.Finite := by
    rw [List.map_append, List.map_singleton, Token.terminal_endOfInput.2 ht]
    exact List.forall_mem_append.2 ⟨hfin, List.forall_mem_singleton.2 trivial⟩
  calc (before ++ [t]).filterMap Token.leaf?
    _ = leavesOf ((before ++ [t]).map Token.terminal) := by
      rw [leavesOf, List.filterMap_map]
      exact congrArg (List.filterMap · _) (funext Token.leaf?_eq)
    _ = b.statements.flatMap Statement.leaves := hderives.leaves hall
    _ = b.leaves := b.leaves_eq.symm

/-- The declared name, the type and the leaves of the value, where a parenthesis leaves none. -/
theorem parse_keeps_leaves_let :
    let place : UInt32 → Position := fun offset => ⟨offset, "shell"⟩
    let tokens : List Token :=
      [⟨.keyword .kwLet, "let", place 0, place 3⟩, ⟨.name, "x", place 4, place 5⟩,
        ⟨.symbol, ":", place 5, place 6⟩, ⟨.name, "T", place 7, place 8⟩,
        ⟨.symbol, "=", place 9, place 10⟩, ⟨.symbol, "(", place 11, place 12⟩,
        ⟨.name, "f", place 12, place 13⟩, ⟨.symbol, ")", place 13, place 14⟩,
        ⟨.symbol, "(", place 14, place 15⟩, ⟨.number, "1", place 15, place 16⟩,
        ⟨.symbol, ",", place 16, place 17⟩, ⟨.symbol, ")", place 17, place 18⟩,
        ⟨.endOfInput, "EOF", place 18, place 18⟩]
    tokenize "let x: T = (f)(1,)" none = .ok tokens ∧
      ∃ b stop, parse tokens "shell" = .done b stop ∧
        b.leaves = [.name "x", .name "T", .name "f", .number (Double.ofText? "1")] := by
  intro place tokens
  have htokens : tokenize "let x: T = (f)(1,)" none = .ok tokens := by decide +kernel
  have herror : (parse tokens "shell").error? = none := by decide +kernel
  obtain ⟨b, stop, hp⟩ := parse_accepts herror
  exact ⟨htokens, b, stop, hp, (parse_keeps_leaves htokens hp).symm⟩

end ScriptSyntax
