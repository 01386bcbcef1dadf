import ScriptSyntax.Proofs.Language
import ScriptSyntax.Proofs.Numerals
import ScriptSyntax.Proofs.Printing

/-! The text of well-formed trees is read back as the same trees. -/
namespace ScriptSyntax

/-! What the words derive. -/

/-- A phrase that some words spell, all of which the lexer and the reader of numbers take. -/
structure Legible (p : Phrase) (ws : List Terminal) : Prop where
  derives : Derives longestFit p ws
  usable : ∀ w ∈ ws, w.Usable

variable {ws vs : List Terminal} {pieces : List (List Terminal)}

theorem usable_of_isName {x : String} (h : isName x = true) : (Terminal.name x).Usable := by
  rw [isName, Bool.and_eq_true, decide_eq_true_eq, decide_eq_true_eq] at h
  exact ⟨h, trivial⟩

theorem usable_enclosed (h : ∀ w ∈ ws, w.Usable) : ∀ w ∈ enclosed ws, w.Usable := by
  have hopen : (Terminal.symbol "(").Usable := usable_symbol (by decide)
  have hclose : (Terminal.symbol ")").Usable := usable_symbol (by decide)
  rw [enclosed]
  simp only [List.forall_mem_cons, List.forall_mem_append]
  exact ⟨hopen, h, hclose, by simp⟩

theorem usable_commaSeparated (h : ∀ ws ∈ pieces, ∀ w ∈ ws, w.Usable) :
    ∀ w ∈ commaSeparated pieces, w.Usable := by
  have hcomma : (Terminal.symbol ",").Usable := usable_symbol (by decide)
  induction pieces with
  | nil => simp [commaSeparated]
  | cons ws pieces ih =>
    obtain ⟨hws, hpieces⟩ := List.forall_mem_cons.1 h
    cases pieces with
    | nil => exact hws
    | cons vs rest =>
      have hrest := ih hpieces
      show ∀ w ∈ ws ++ .symbol "," :: commaSeparated (vs :: rest), w.Usable
      exact List.forall_mem_append.2 ⟨hws, List.forall_mem_cons.2 ⟨hcomma, hrest⟩⟩

theorem usable_onLines (h : ∀ ws ∈ pieces, ∀ w ∈ ws, w.Usable) :
    ∀ w ∈ onLines pieces, w.Usable := by
  intro w hw
  obtain ⟨ws, hws, hw⟩ := List.mem_flatMap.1 hw
  rcases List.mem_append.1 hw with hw | hw
  · exact h ws hws w hw
  · rw [List.mem_singleton.1 hw]
    exact usable_newLine

theorem usable_braced {head : List Terminal} (hhead : ∀ w ∈ head, w.Usable)
    (h : ∀ ws ∈ pieces, ∀ w ∈ ws, w.Usable) : ∀ w ∈ braced head pieces, w.Usable := by
  have hopen : (Terminal.symbol "\x7b").Usable := usable_symbol (by decide)
  have hclose : (Terminal.symbol "\x7d").Usable := usable_symbol (by decide)
  rw [braced]
  simp only [List.forall_mem_cons, List.forall_mem_append]
  exact ⟨hopen, hhead, usable_newLine, usable_onLines h, hclose, by simp⟩

theorem usable_loopNames {names : List String} (h : names.all isName = true) :
    ∀ w ∈ loopNames names, w.Usable := by
  have hcomma : (Terminal.symbol ",").Usable := usable_symbol (by decide)
  rw [List.all_eq_true] at h
  cases names with
  | nil => simp [loopNames]
  | cons x xs =>
    obtain ⟨hx, hxs⟩ := List.forall_mem_cons.1 h
    refine List.forall_mem_cons.2 ⟨usable_keyword _, List.forall_mem_cons.2
      ⟨usable_of_isName hx, fun w hw => ?_⟩⟩
    obtain ⟨y, hy, hw⟩ := List.mem_flatMap.1 hw
    rcases List.mem_cons.1 hw with rfl | hw
    · exact hcomma
    · rw [List.mem_singleton.1 hw]
      exact usable_of_isName (hxs y hy)

theorem usable_superclassText {superclass : Option String} (h : superclass.all isName = true) :
    ∀ w ∈ superclassText superclass, w.Usable := by
  have hcolon : (Terminal.symbol ":").Usable := usable_symbol (by decide)
  cases superclass with
  | none => simp [superclassText]
  | some y =>
    exact List.forall_mem_cons.2 ⟨hcolon, List.forall_mem_singleton.2 (usable_of_isName h)⟩

/-! Layouts. -/

theorem listed_commaSeparated (pieces : List (List Terminal)) :
    Listed pieces (commaSeparated pieces) := by
  induction pieces with
  | nil => exact .nil
  | cons ws pieces ih =>
    cases pieces with
    | nil =>
      have h := Listed.last ws emptyLines_nil
      rwa [List.append_nil] at h
    | cons vs rest => exact .cons ws emptyLines_nil emptyLines_nil ih

theorem parenthesized_commaSeparated (pieces : List (List Terminal)) :
    Parenthesized pieces (enclosed (commaSeparated pieces)) :=
  .intro emptyLines_nil (listed_commaSeparated pieces)

theorem onLines_lines (pieces : List (List Terminal)) : OnLines pieces (onLines pieces) := by
  induction pieces with
  | nil => exact .none emptyLines_nil
  | cons ws pieces ih =>
    rw [onLines, List.flatMap_cons, List.append_assoc]
    exact .cons ws ih

/-- Behind each statement a line ends, so it fits what comes after it. -/
theorem loosely_lines (items : List (Statement × List Terminal)) :
    Loosely longestFit items (.newLine :: onLines (items.map (·.2))) := by
  have hline : EmptyLines [Terminal.newLine] := emptyLines_nil.newLine
  induction items with
  | nil => exact .nil hline
  | cons i items ih =>
    obtain ⟨s, ws⟩ := i
    have hfits : longestFit s (.newLine :: onLines (items.map (·.2))) :=
      fun _ => ⟨by simp, by simp⟩
    have h := Loosely.cons ws hline hfits ih
    simpa [onLines] using h

/-! Types and signatures. -/

theorem TypeExpr.words_text {t : TypeExpr} (h : t.isNamed = true) :
    TypeText t t.words ∧ ∀ w ∈ t.words, w.Usable := by
  induction t with
  | any => cases h
  | named x p =>
    have hname := usable_of_isName h
    exact ⟨.named x p, by simpa [words] using hname⟩
  | array element ih =>
    obtain ⟨htext, husable⟩ := ih h
    have hopen : (Terminal.symbol "[").Usable := usable_symbol (by decide)
    have hclose : (Terminal.symbol "]").Usable := usable_symbol (by decide)
    refine ⟨.array htext, List.forall_mem_append.2 ⟨husable, ?_⟩⟩
    simp [hopen, hclose]

theorem annotated_text (symbol : String) {t : TypeExpr}
    (hsymbol : symbol.toList ∈ Pattern.symbols) (h : t.wellFormed = true) :
    Annotation symbol t (annotated symbol t) ∧ ∀ w ∈ annotated symbol t, w.Usable := by
  rw [annotated]
  split
  · next hany =>
    rw [hany]
    exact ⟨.absent, by simp⟩
  · next hne =>
    have hnamed : t.isNamed = true := by simpa [TypeExpr.wellFormed, hne] using h
    obtain ⟨htext, husable⟩ := TypeExpr.words_text hnamed
    exact ⟨.present htext, List.forall_mem_cons.2 ⟨usable_symbol hsymbol, husable⟩⟩

theorem Parameter.words_text {p : Parameter} (h : p.wellFormed = true) :
    ParameterText p p.words ∧ ∀ w ∈ p.words, w.Usable := by
  rw [wellFormed, Bool.and_eq_true] at h
  obtain ⟨htype, husable⟩ := annotated_text ":" (by decide) h.2
  exact ⟨.intro p.name htype, List.forall_mem_cons.2 ⟨usable_of_isName h.1, husable⟩⟩

theorem Signature.words_text {s : Signature} (h : s.wellFormed = true) :
    SignatureText s s.words ∧ ∀ w ∈ s.words, w.Usable := by
  rw [wellFormed, Bool.and_eq_true, List.all_eq_true] at h
  obtain ⟨hparameters, hresult⟩ := h
  obtain ⟨htext, husable⟩ := annotated_text "->" (by decide) hresult
  have hfirst : (s.parameters.map fun p => (p, p.words)).map (·.1) = s.parameters :=
    List.map_map.trans (List.map_id _)
  have hsecond : (s.parameters.map fun p => (p, p.words)).map (·.2) =
      s.parameters.map Parameter.words := List.map_map
  have hitems : ∀ i ∈ s.parameters.map fun p => (p, p.words), ParameterText i.1 i.2 :=
    List.forall_mem_map.2 fun p hp => (Parameter.words_text (hparameters p hp)).1
  constructor
  · have hlist := parenthesized_commaSeparated (s.parameters.map Parameter.words)
    rw [← hsecond] at hlist
    have h := SignatureText.intro hitems hlist htext
    rw [hfirst, hsecond] at h
    exact h
  · refine List.forall_mem_append.2 ⟨usable_enclosed (usable_commaSeparated ?_), husable⟩
    exact List.forall_mem_map.2 fun p hp => (Parameter.words_text (hparameters p hp)).2

/-! Expressions and statements. -/

/-- An expression as it is without a declaration: a closure has no name of its own. -/
def Expr.unnamed : Expr → Expr
  | .closure _ signature body span => .closure none signature body span
  | e => e

def Expr.isWritten : Expr → Bool
  | .unassigned _ => false
  | _ => true

theorem Expr.isWritten_of_wellFormed {e : Expr} (h : e.wellFormed none = true) :
    e.isWritten = true := by
  cases e with
  | unassigned => cases h
  | _ => rfl

theorem Expr.unnamed_of_wellFormed {e : Expr} (h : e.wellFormed none = true) :
    e.unnamed = e := by
  cases e with
  | closure name signature body span =>
    have hname : name = none := by
      simp only [wellFormed, Bool.and_eq_true, decide_eq_true_eq] at h
      exact h.1.1
    rw [hname, unnamed]
  | _ => rfl

theorem Expr.named_unnamed {e : Expr} {x : String} (h : e.wellFormed (some x) = true) :
    e.unnamed.named x = e := by
  cases e with
  | closure name signature body span =>
    have hname : name = some x := by
      simp only [wellFormed, Bool.and_eq_true, decide_eq_true_eq] at h
      exact h.1.1
    rw [hname, unnamed, named]
  | _ => rfl

/-- In parentheses an expression is one of every level. -/
theorem Legible.enclosed {e : Expr} (h : Legible (.expr .expr e) ws) (tier : Tier) :
    Legible (.expr tier e) (enclosed ws) := by
  have hgrouping : Derives longestFit (.expr .primary e) (ScriptSyntax.enclosed ws) :=
    .grouping emptyLines_nil h.derives emptyLines_nil
  refine ⟨hgrouping.loosen ?_, usable_enclosed h.usable⟩
  cases tier <;> decide

theorem exists_tier {operator : String} (h : binaryNames.contains operator = true) :
    ∃ tier tighter : Tier, operator ∈ tier.operators ∧ tier.next? = some tighter ∧
      operator.toList ∈ Pattern.symbols := by
  have hall : ∀ name ∈ binaryNames, ∃ tier ∈ [Tier.logic, .rel, .add, .mul],
      name ∈ tier.operators ∧ name.toList ∈ Pattern.symbols := by decide
  obtain ⟨tier, -, hmem, hsymbol⟩ := hall operator (List.contains_iff_mem.1 h)
  exact ⟨tier, _, hmem, (Tier.next_of_operator hmem).1, hsymbol⟩

/-- Values and words that belong together one by one. -/
theorem paired_items {α : Type} {R : α → List Terminal → Prop} {values : List α}
    (h : List.Forall₂ R values pieces) : ∃ items : List (α × List Terminal),
      values = items.map (·.1) ∧ pieces = items.map (·.2) ∧ ∀ i ∈ items, R i.1 i.2 := by
  induction h with
  | nil => exact ⟨[], rfl, rfl, by simp⟩
  | @cons a ws values pieces ha _ ih =>
    obtain ⟨items, rfl, rfl, hitems⟩ := ih
    exact ⟨(a, ws) :: items, rfl, rfl, List.forall_mem_cons.2 ⟨ha, hitems⟩⟩

namespace Legible
variable {e left right : Expr} {body : Block} {signature : Signature} {operator x : String}

theorem number {value : Double} (h : value.negative = false) (span : Span) :
    Legible (.expr .expr (.number value span)) [.number value.display] := by
  have hvalue : numberValue value.display = value := by
    rw [numberValue, Double.ofText?_display, Option.getD_some]
  have hderives : Derives longestFit (.expr .primary (.number (numberValue value.display) span))
      [.number value.display] := .number value.display span
  rw [hvalue] at hderives
  refine ⟨hderives.loosen (by decide), List.forall_mem_singleton.2 ⟨?_, ?_⟩⟩
  · exact Double.readNumber?_display h
  · rw [Terminal.Finite, Double.ofText?_display]
    rfl

theorem string (value : String) (span : Span) :
    Legible (.expr .expr (.string value span)) [.string value] :=
  ⟨(Derives.string value span).loosen (by decide),
    List.forall_mem_singleton.2 ⟨trivial, trivial⟩⟩

theorem name (h : isName x = true) (span : Span) :
    Legible (.expr .expr (.name x span)) [.name x] :=
  ⟨(Derives.name x span).loosen (by decide), List.forall_mem_singleton.2 (usable_of_isName h)⟩

theorem binary (hop : binaryNames.contains operator = true)
    (hl : Legible (.expr .expr left) ws) (hr : Legible (.expr .expr right) vs) (span : Span) :
    Legible (.expr .expr (.binary operator left right span))
      (ScriptSyntax.enclosed ws ++ .symbol operator :: ScriptSyntax.enclosed vs) := by
  obtain ⟨tier, tighter, hmem, hnext, hsymbol⟩ := exists_tier hop
  have hderives := Derives.binary span hmem hnext (hl.enclosed tier).derives emptyLines_nil
    (hr.enclosed tighter).derives
  refine ⟨hderives.loosen (Nat.zero_le _), List.forall_mem_append.2 ⟨usable_enclosed hl.usable, ?_⟩⟩
  exact List.forall_mem_cons.2 ⟨usable_symbol hsymbol, usable_enclosed hr.usable⟩

theorem prefixed (hop : Grammar.prefixOperators.contains operator = true)
    (he : Legible (.expr .expr e) ws) (span : Span) :
    Legible (.expr .expr (.prefixed operator e span))
      (.symbol operator :: ScriptSyntax.enclosed ws) := by
  have hmem : operator ∈ ["-", "!"] := List.contains_iff_mem.1 hop
  have hsymbol : ∀ name ∈ ["-", "!"], name.toList ∈ Pattern.symbols := by decide
  have hderives := Derives.prefixed span hmem (he.enclosed .unary).derives
  exact ⟨hderives.loosen (Nat.zero_le _),
    List.forall_mem_cons.2 ⟨usable_symbol (hsymbol _ hmem), usable_enclosed he.usable⟩⟩

theorem assignment (hop : Grammar.assignmentOperators.contains operator = true)
    (ht : Legible (.expr .expr left) ws) (hv : Legible (.expr .expr right) vs) (span : Span) :
    Legible (.expr .expr (.assignment operator left right span))
      (ScriptSyntax.enclosed ws ++ .symbol operator :: ScriptSyntax.enclosed vs) := by
  have hmem : operator ∈ ["=", "+=", "-="] := List.contains_iff_mem.1 hop
  have hsymbol : ∀ name ∈ ["=", "+=", "-="], name.toList ∈ Pattern.symbols := by decide
  refine ⟨.assignment span hmem (ht.enclosed .logic).derives emptyLines_nil
    (hv.enclosed .expr).derives, List.forall_mem_append.2 ⟨usable_enclosed ht.usable, ?_⟩⟩
  exact List.forall_mem_cons.2 ⟨usable_symbol (hsymbol _ hmem), usable_enclosed hv.usable⟩

theorem call {arguments : List Expr} (he : Legible (.expr .expr e) ws)
    (ha : List.Forall₂ (fun a us => Legible (.expr .expr a) us) arguments pieces) (span : Span) :
    Legible (.expr .expr (.call e arguments span))
      (ScriptSyntax.enclosed ws ++ ScriptSyntax.enclosed (commaSeparated pieces)) := by
  obtain ⟨items, rfl, rfl, hitems⟩ := paired_items ha
  have hderives := Derives.call span (he.enclosed .suffixed).derives
    (fun i hi => (hitems i hi).derives) (parenthesized_commaSeparated _)
  refine ⟨hderives.loosen (Nat.zero_le _), List.forall_mem_append.2 ⟨usable_enclosed he.usable, ?_⟩⟩
  refine usable_enclosed (usable_commaSeparated (List.forall_mem_map.2 fun i hi => ?_))
  exact (hitems i hi).usable

theorem member (he : Legible (.expr .expr e) ws) (hx : isName x = true) (span : Span) :
    Legible (.expr .expr (.member e x span))
      (ScriptSyntax.enclosed ws ++ [.symbol ".", .name x]) := by
  have hdot : (Terminal.symbol ".").Usable := usable_symbol (by decide)
  have hderives := Derives.member x span (he.enclosed .suffixed).derives
  refine ⟨hderives.loosen (Nat.zero_le _), List.forall_mem_append.2 ⟨usable_enclosed he.usable, ?_⟩⟩
  exact List.forall_mem_cons.2 ⟨hdot, List.forall_mem_singleton.2 (usable_of_isName hx)⟩

theorem closure (hs : signature.wellFormed = true) (hb : Legible (.block body) ws) (span : Span) :
    Legible (.expr .expr (.closure none signature body span))
      (.keyword .kwFunction :: (signature.words ++ ws)) := by
  obtain ⟨htext, husable⟩ := Signature.words_text hs
  have hderives := Derives.closure span htext hb.derives
  exact ⟨hderives.loosen (Nat.zero_le _), List.forall_mem_cons.2
    ⟨usable_keyword _, List.forall_mem_append.2 ⟨husable, hb.usable⟩⟩⟩

theorem block {statements : List Statement}
    (h : List.Forall₂ (fun s us => Legible (.statement s) us) statements pieces) (span : Span) :
    Legible (.block ⟨statements, span⟩) (braced [] pieces) := by
  obtain ⟨items, rfl, rfl, hitems⟩ := paired_items h
  have hlines := (onLines_lines (items.map (·.2))).newLine
  have hderives := Derives.block span (fun i hi => (hitems i hi).derives) hlines
  refine ⟨hderives, usable_braced (by simp) ?_⟩
  exact List.forall_mem_map.2 fun i hi => (hitems i hi).usable

theorem expression (he : Legible (.expr .expr e) ws) (span : Span) :
    Legible (.statement (.expression e span)) (ScriptSyntax.enclosed ws) :=
  ⟨.expression span (he.enclosed .expr).derives (by simp [ScriptSyntax.enclosed]),
    usable_enclosed he.usable⟩

theorem nested (hb : Legible (.block body) ws) : Legible (.statement (.block body)) ws :=
  ⟨.nested hb.derives, hb.usable⟩

theorem conditional (he : Legible (.expr .expr e) ws) (hb : Legible (.block body) vs)
    (span : Span) : Legible (.statement (.conditional e body none span))
      (.keyword .kwIf :: (ScriptSyntax.enclosed ws ++ (vs ++ []))) := by
  rw [List.append_nil]
  exact ⟨.conditional span (he.enclosed .expr).derives hb.derives, List.forall_mem_cons.2
    ⟨usable_keyword _, List.forall_mem_append.2 ⟨usable_enclosed he.usable, hb.usable⟩⟩⟩

theorem alternative {elseBody : Block} {us : List Terminal} (he : Legible (.expr .expr e) ws)
    (hb : Legible (.block body) vs) (helse : Legible (.block elseBody) us) (span : Span) :
    Legible (.statement (.conditional e body (some elseBody) span))
      (.keyword .kwIf :: (ScriptSyntax.enclosed ws ++ (vs ++ .keyword .kwElse :: us))) := by
  refine ⟨.alternative span (he.enclosed .expr).derives hb.derives helse.derives,
    List.forall_mem_cons.2 ⟨usable_keyword _, ?_⟩⟩
  refine List.forall_mem_append.2 ⟨usable_enclosed he.usable, ?_⟩
  exact List.forall_mem_append.2
    ⟨hb.usable, List.forall_mem_cons.2 ⟨usable_keyword _, helse.usable⟩⟩

theorem result (he : Legible (.expr .expr e) ws) (span : Span) :
    Legible (.statement (.result e span)) (.keyword .kwReturn :: ScriptSyntax.enclosed ws) :=
  ⟨.result span (he.enclosed .expr).derives,
    List.forall_mem_cons.2 ⟨usable_keyword _, usable_enclosed he.usable⟩⟩

theorem loop {names : List String} {statements : List Statement}
    (he : Legible (.expr .expr e) ws) (hnames : names.all isName = true)
    (h : List.Forall₂ (fun s us => Legible (.statement s) us) statements pieces)
    (bodySpan span : Span) :
    Legible (.statement (.loop e names ⟨statements, bodySpan⟩ span))
      (.keyword .kwFor :: (ScriptSyntax.enclosed ws ++ braced (loopNames names) pieces)) := by
  obtain ⟨items, rfl, rfl, hitems⟩ := paired_items h
  refine ⟨.loop names bodySpan span (he.enclosed .expr).derives emptyLines_nil
    (fun i hi => (hitems i hi).derives) (loosely_lines items), ?_⟩
  refine List.forall_mem_cons.2 ⟨usable_keyword _,
    List.forall_mem_append.2 ⟨usable_enclosed he.usable, usable_braced ?_ ?_⟩⟩
  · exact usable_loopNames hnames
  · exact List.forall_mem_map.2 fun i hi => (hitems i hi).usable

theorem function (hx : isName x = true) (hs : signature.wellFormed = true)
    (hb : Legible (.block body) ws) (span : Span) :
    Legible (.statement (.function x signature body span))
      (.keyword .kwFunction :: .name x :: (signature.words ++ ws)) := by
  obtain ⟨htext, husable⟩ := Signature.words_text hs
  refine ⟨.function x span htext hb.derives, List.forall_mem_cons.2 ⟨usable_keyword _, ?_⟩⟩
  exact List.forall_mem_cons.2
    ⟨usable_of_isName hx, List.forall_mem_append.2 ⟨husable, hb.usable⟩⟩

theorem classDefinition {superclass : Option String} (hx : isName x = true)
    (hsuper : superclass.all isName = true) (hb : Legible (.block body) ws) (span : Span) :
    Legible (.statement (.classDefinition x superclass body span))
      (.keyword .kwClass :: .name x :: (superclassText superclass ++ ws)) := by
  refine ⟨.classDefinition x superclass span hb.derives,
    List.forall_mem_cons.2 ⟨usable_keyword _, ?_⟩⟩
  exact List.forall_mem_cons.2 ⟨usable_of_isName hx,
    List.forall_mem_append.2 ⟨usable_superclassText hsuper, hb.usable⟩⟩

/-- A declaration gives its name back to a value that was bare. -/
theorem declaration {type : TypeExpr} {value : Expr} (hx : isName x = true)
    (ht : type.wellFormed = true) (hv : value.wellFormed (some x) = true)
    (he : value.isWritten = true → Legible (.expr .expr value.unnamed) ws) (changes : Bool)
    (span : Span) : Legible (.statement (.declaration changes x type value span))
      (.keyword (if changes then .kwVar else .kwLet) :: .name x ::
        (annotated ":" type ++ initializer value ws)) := by
  obtain ⟨htext, husable⟩ := annotated_text ":" (by decide) ht
  have hequals : (Terminal.symbol "=").Usable := usable_symbol (by decide)
  have huse : ∀ {us : List Terminal}, (∀ w ∈ us, w.Usable) → ∀ w ∈
      Terminal.keyword (if changes then .kwVar else .kwLet) :: .name x ::
        (annotated ":" type ++ us), w.Usable := fun hus =>
    List.forall_mem_cons.2 ⟨usable_keyword _, List.forall_mem_cons.2
      ⟨usable_of_isName hx, List.forall_mem_append.2 ⟨husable, hus⟩⟩⟩
  by_cases hwritten : value.isWritten = true
  · have hvalue := (he hwritten).enclosed .expr
    have hinitializer : initializer value ws = .symbol "=" :: ScriptSyntax.enclosed ws := by
      cases value with
      | unassigned => cases hwritten
      | _ => rfl
    have hderives := Derives.declaration changes x span htext emptyLines_nil hvalue.derives
    rw [Expr.named_unnamed hv] at hderives
    rw [hinitializer]
    exact ⟨hderives, huse (List.forall_mem_cons.2 ⟨hequals, hvalue.usable⟩)⟩
  · cases value with
    | unassigned valueSpan =>
      refine ⟨?_, huse (by simp [initializer])⟩
      rw [initializer, List.append_nil]
      exact .unassigned changes x valueSpan span htext
    | _ => exact absurd rfl hwritten

end Legible

/-- A well-formed operand needs no name given to it. -/
theorem Legible.operand {e : Expr} (h : e.wellFormed none = true)
    (he : e.isWritten = true → Legible (.expr .expr e.unnamed) ws) :
    Legible (.expr .expr e) ws := by
  have hlegible := he (Expr.isWritten_of_wellFormed h)
  rwa [Expr.unnamed_of_wellFormed h] at hlegible

/-! Well-formed trees are spelled by their words, each construct by its rule. -/
mutual
theorem Expr.legible : (e : Expr) → (given : Option String) → e.wellFormed given = true →
    e.isWritten = true → Legible (.expr .expr e.unnamed) e.words
  | .number value span, _, h, _ => by
    have hsign : value.negative = false := by simpa [Expr.wellFormed] using h
    exact .number hsign span
  | .string value span, _, _, _ => .string value span
  | .name x span, _, h, _ => .name h span
  | .unassigned _, _, _, h => by cases h
  | .binary operator left right span, _, h, _ => by
    simp only [Expr.wellFormed, Bool.and_eq_true] at h
    obtain ⟨⟨hop, hl⟩, hr⟩ := h
    exact .binary hop (.operand hl (left.legible none hl)) (.operand hr (right.legible none hr))
      span
  | .prefixed operator operand span, _, h, _ => by
    simp only [Expr.wellFormed, Bool.and_eq_true] at h
    exact .prefixed h.1 (.operand h.2 (operand.legible none h.2)) span
  | .assignment operator target value span, _, h, _ => by
    simp only [Expr.wellFormed, Bool.and_eq_true] at h
    obtain ⟨⟨hop, ht⟩, hv⟩ := h
    exact .assignment hop (.operand ht (target.legible none ht))
      (.operand hv (value.legible none hv)) span
  | .call callee arguments span, _, h, _ => by
    simp only [Expr.wellFormed, Bool.and_eq_true] at h
    exact .call (.operand h.1 (callee.legible none h.1)) (legibleExprs arguments h.2) span
  | .member object property span, _, h, _ => by
    simp only [Expr.wellFormed, Bool.and_eq_true] at h
    exact .member (.operand h.1 (object.legible none h.1)) h.2 span
  | .closure name signature body span, _, h, _ => by
    simp only [Expr.wellFormed, Bool.and_eq_true] at h
    exact .closure h.1.2 (body.legible h.2) span
theorem legibleExprs : (es : List Expr) → wellFormedExprs es = true →
    List.Forall₂ (fun e ws => Legible (.expr .expr e) ws) es (enclosedWords es)
  | [], _ => .nil
  | e :: es, h => by
    simp only [wellFormedExprs, Bool.and_eq_true] at h
    have he := Legible.operand h.1 (e.legible none h.1)
    exact .cons (he.enclosed .expr) (legibleExprs es h.2)
theorem Statement.legible : (s : Statement) → s.wellFormed = true →
    Legible (.statement s) s.words
  | .expression value span, h => .expression (.operand h (value.legible none h)) span
  | .result value span, h => .result (.operand h (value.legible none h)) span
  | .block body, h => .nested (body.legible h)
  | .conditional condition thenBody none span, h => by
    simp only [Statement.wellFormed, Bool.and_eq_true] at h
    obtain ⟨⟨hc, hb⟩, -⟩ := h
    exact .conditional (.operand hc (condition.legible none hc)) (thenBody.legible hb) span
  | .conditional condition thenBody (some elseBody) span, h => by
    simp only [Statement.wellFormed, Bool.and_eq_true] at h
    obtain ⟨⟨hc, hb⟩, he⟩ := h
    exact .alternative (.operand hc (condition.legible none hc)) (thenBody.legible hb)
      (elseBody.legible he) span
  | .loop iterable names ⟨statements, bodySpan⟩ span, h => by
    simp only [Statement.wellFormed, Bool.and_eq_true] at h
    obtain ⟨⟨hi, hnames⟩, hb⟩ := h
    exact .loop (.operand hi (iterable.legible none hi)) hnames (legibleStatements statements hb)
      bodySpan span
  | .declaration changes x type value span, h => by
    simp only [Statement.wellFormed, Bool.and_eq_true] at h
    obtain ⟨⟨hx, ht⟩, hv⟩ := h
    exact .declaration hx ht hv (value.legible (some x) hv) changes span
  | .function x signature body span, h => by
    simp only [Statement.wellFormed, Bool.and_eq_true] at h
    obtain ⟨⟨hx, hs⟩, hb⟩ := h
    exact .function hx hs (body.legible hb) span
  | .classDefinition x superclass body span, h => by
    simp only [Statement.wellFormed, Bool.and_eq_true] at h
    obtain ⟨⟨hx, hsuper⟩, hb⟩ := h
    exact .classDefinition hx hsuper (body.legible hb) span
theorem legibleStatements : (ss : List Statement) → wellFormedStatements ss = true →
    List.Forall₂ (fun s ws => Legible (.statement s) ws) ss (statementWords ss)
  | [], _ => .nil
  | s :: ss, h => by
    simp only [wellFormedStatements, Bool.and_eq_true] at h
    exact .cons (s.legible h.1) (legibleStatements ss h.2)
theorem Block.legible : (b : Block) → b.wellFormed = true → Legible (.block b) b.words
  | ⟨statements, span⟩, h => .block (legibleStatements statements h) span
end

/-- The text of well-formed statements is tokenized and parsed to the same statements. -/
theorem parse_printed {ss : List Statement} (h : wellFormedStatements ss = true)
    (hsize : (printed ss).utf8ByteSize ≤ maxOffset) (file : Option String) (name : String) :
    ∃ tokens b stop, tokenize (printed ss) file = .ok tokens ∧
      parse tokens name = .done b stop ∧
        b.statements.map Statement.bare = ss.map Statement.bare := by
  obtain ⟨items, rfl, hwords, hitems⟩ := paired_items (legibleStatements ss h)
  have husable : ∀ w ∈ onLines (items.map (·.2)), w.Usable :=
    usable_onLines (List.forall_mem_map.2 fun i hi => (hitems i hi).usable)
  have hderives : DerivesProgram longestFit (items.map (·.1))
      ([].map Token.terminal ++ onLines (items.map (·.2)) ++ [.endOfInput]) :=
    .intro (fun i hi => (hitems i hi).derives) (onLines_lines _)
  obtain ⟨middle, last, hscan, -, b, stop, hparse, hbare⟩ :=
    parse_continued (by simp) (by simp) husable hderives file name
  rw [printed, hwords] at hsize ⊢
  exact ⟨_, b, stop, (tokenize_eq_scan file hsize).trans hscan, hparse, hbare⟩

/-- A closure that is bound to its name, with a text and a half in its body. -/
theorem parse_printed_closure :
    let half : Double := ⟨false, Nat.pow 2 1073, by decide +kernel⟩
    let sum : Expr := .binary "+" (.name "x" default) (.number half default) default
    let body : Block :=
      ⟨[.result sum default, .expression (.string "\"\n" default) default], default⟩
    let signature : Signature := ⟨[⟨"x", .array (.named "Number" default)⟩], .any⟩
    let ss : List Statement :=
      [.declaration false "f" .any (.closure (some "f") signature body default) default]
    ∃ tokens b stop, tokenize (printed ss) none = .ok tokens ∧
      parse tokens "shell" = .done b stop ∧
        b.statements.map Statement.bare = ss.map Statement.bare := by
  intro half sum body signature ss
  have hformed : wellFormedStatements ss = true := by decide +kernel
  have hsize : (printed ss).utf8ByteSize ≤ maxOffset := by decide +kernel
  exact parse_printed hformed hsize none "shell"

end ScriptSyntax
