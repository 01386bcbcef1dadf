import ScriptSyntax.Grammar
import ScriptSyntax.Proofs.Derivation

/-! How deep a place among words is nested. The brackets of what the grammar derives are closed
again, and behind an expression the words are known to end an operand. -/
namespace ScriptSyntax

/-- Parentheses around an expression, those around arguments or parameters, or braces. -/
inductive Bracket where
  | grouping
  | list
  | brace
  deriving DecidableEq, Repr

/-- What the words up to a place tell about it. -/
structure Site where
  /-- The brackets that are open, the innermost first. -/
  enclosing : List Bracket := []
  /-- Whether the last word ends an operand, or introduces parameters. -/
  operand : Bool := false
  /-- Whether the last word leaves something to come that may stand on a later line. -/
  lineEnd : Bool := false
  deriving DecidableEq, Repr

/-- The operators that stand between operands. -/
def infixOperators : List String :=
  Grammar.assignmentOperators ++ Grammar.binaryOperators.map (·.1)

namespace Site

/-- The place behind one more word. -/
def past (s : Site) : Terminal → Site
  | .newLine => ⟨s.enclosing, false, true⟩
  | .symbol "(" => ⟨(if s.operand then .list else .grouping) :: s.enclosing, false, true⟩
  | .symbol "\x7b" => ⟨.brace :: s.enclosing, false, false⟩
  | .symbol ")" | .symbol "\x7d" => ⟨s.enclosing.tail, true, false⟩
  | .symbol "," => ⟨s.enclosing, false, true⟩
  | .symbol text => ⟨s.enclosing, false, s.operand && infixOperators.contains text⟩
  | .number _ | .string _ | .name _ => ⟨s.enclosing, true, false⟩
  | .keyword word => ⟨s.enclosing, word = .kwFunction, false⟩
  | .endOfInput => ⟨s.enclosing, false, false⟩

/-- The place behind some words. -/
def after (s : Site) (ws : List Terminal) : Site := ws.foldl past s

/-- The same place behind an operand. -/
def behind (s : Site) : Site := ⟨s.enclosing, true, false⟩

variable (s : Site) {ws vs : List Terminal}

@[simp] theorem after_cons (w : Terminal) (ws : List Terminal) :
    s.after (w :: ws) = (s.past w).after ws := rfl

@[simp] theorem after_append (ws vs : List Terminal) :
    s.after (ws ++ vs) = (s.after ws).after vs := List.foldl_append

theorem past_symbol {text : String} (h : text ∉ ["(", "\x7b", ")", "\x7d", ","]) :
    s.past (.symbol text) = ⟨s.enclosing, false, s.operand && infixOperators.contains text⟩ := by
  simp only [List.mem_cons, List.not_mem_nil, or_false, not_or] at h
  obtain ⟨hopen, hbrace, hclose, hend, hcomma⟩ := h
  simp [past]

/-- Behind an operator a line may end, if there is something that it is applied to. -/
theorem past_operator {operator : String} (h : operator ∈ infixOperators) :
    s.past (.symbol operator) = ⟨s.enclosing, false, s.operand⟩ := by
  have hplain : ∀ operator ∈ infixOperators, operator ∉ ["(", "\x7b", ")", "\x7d", ","] := by decide
  rw [s.past_symbol (hplain operator h), List.contains_iff_mem.2 h, Bool.and_true]

/-- A closing bracket ends an operand. -/
theorem past_close {t : Site} (h : t.enclosing.tail = s.enclosing) :
    t.past (.symbol ")") = s.behind ∧ t.past (.symbol "\x7d") = s.behind := by
  have hboth : (⟨t.enclosing.tail, true, false⟩ : Site) = s.behind := by rw [h]; rfl
  exact ⟨hboth, hboth⟩

/-- Behind ends of lines the same brackets are open. -/
theorem after_emptyLines (h : EmptyLines ws) :
    s.after ws = s ∨ s.after ws = ⟨s.enclosing, false, true⟩ := by
  induction ws generalizing s with
  | nil => exact .inl rfl
  | cons w ws ih =>
    obtain ⟨rfl, hws⟩ := List.forall_mem_cons.1 h
    rcases ih (s.past .newLine) hws with hafter | hafter <;> exact .inr hafter

theorem operand_after_lines {s : Site} (h : EmptyLines ws) (hs : s.operand = false) :
    (s.after ws).operand = false := by
  rcases s.after_emptyLines h with hafter | hafter <;> rw [hafter]
  exact hs

end Site

/-! Words that leave all brackets as they are. -/

/-- Behind the words the same brackets are open as before. -/
def Keeps (ws : List Terminal) : Prop := ∀ s : Site, (s.after ws).enclosing = s.enclosing

variable {ws vs : List Terminal} {pieces : List (List Terminal)}

theorem Keeps.append (h : Keeps ws) (h' : Keeps vs) : Keeps (ws ++ vs) := fun s => by
  rw [Site.after_append, h', h]

theorem Keeps.cons {w : Terminal} (hw : ∀ s : Site, (s.past w).enclosing = s.enclosing)
    (h : Keeps ws) : Keeps (w :: ws) := fun s => by
  rw [Site.after_cons, h, hw]

theorem keeps_nil : Keeps [] := fun _ => rfl

/-- The words end an operand, and leave the brackets as they are. -/
def EndsOperand (ws : List Terminal) : Prop := ∀ s : Site, s.after ws = s.behind

theorem EndsOperand.keeps (h : EndsOperand ws) : Keeps ws := fun s => by rw [h, Site.behind]

theorem EndsOperand.append (h : Keeps ws) (h' : EndsOperand vs) : EndsOperand (ws ++ vs) :=
  fun s => by rw [Site.after_append, h', Site.behind, h, Site.behind]

theorem EndsOperand.cons {w : Terminal} (hw : ∀ s : Site, (s.past w).enclosing = s.enclosing)
    (h : EndsOperand ws) : EndsOperand (w :: ws) := fun s => by
  rw [Site.after_cons, h, Site.behind, hw, Site.behind]

/-- What stands in parentheses, behind an operand or not. -/
theorem Keeps.parenthesized (h : Keeps ws) : EndsOperand (.symbol "(" :: (ws ++ [.symbol ")"])) :=
  fun s => by
    rw [Site.after_cons, Site.after_append]
    exact (s.past_close (by rw [h]; rfl)).1

theorem Keeps.braced (h : Keeps ws) :
    EndsOperand (.symbol "\x7b" :: (ws ++ [.symbol "\x7d"])) := fun s => by
  rw [Site.after_cons, Site.after_append]
  exact (s.past_close (by rw [h]; rfl)).2

theorem EmptyLines.keeps (h : EmptyLines ws) : Keeps ws := fun s => by
  rcases s.after_emptyLines h with hafter | hafter <;> rw [hafter]

theorem Listed.keeps (h : Listed pieces ws) (hp : ∀ piece ∈ pieces, Keeps piece) : Keeps ws := by
  induction h with
  | nil => exact keeps_nil
  | last us hnl => exact (hp us List.mem_cons_self).append hnl.keeps
  | cons us hnl hnl' _ ih =>
    obtain ⟨hus, hp⟩ := List.forall_mem_cons.1 hp
    exact hus.append (hnl.keeps.append (.cons (fun _ => rfl) (hnl'.keeps.append (ih hp))))

theorem Lined.keeps (h : Lined pieces ws) (hp : ∀ piece ∈ pieces, Keeps piece) : Keeps ws := by
  induction h with
  | one us => exact hp us List.mem_cons_self
  | cons us hnl _ _ ih =>
    obtain ⟨hus, hp⟩ := List.forall_mem_cons.1 hp
    exact hus.append (hnl.keeps.append (ih hp))

theorem OnLines.keeps (h : OnLines pieces ws) (hp : ∀ piece ∈ pieces, Keeps piece) : Keeps ws := by
  cases h with
  | none hnl => exact hnl.keeps
  | some hnl hws hnl' => exact hnl.keeps.append ((hws.keeps hp).append hnl'.keeps)

theorem Loosely.keeps {fits : Statement → List Terminal → Prop}
    {items : List (Statement × List Terminal)} (h : Loosely fits items ws)
    (hp : ∀ i ∈ items, Keeps i.2) : Keeps ws := by
  induction h with
  | nil hnl => exact hnl.keeps
  | cons us hnl _ _ ih =>
    obtain ⟨hus, hp⟩ := List.forall_mem_cons.1 hp
    exact hnl.keeps.append (hus.append (ih hp))

theorem Parenthesized.endsOperand (h : Parenthesized pieces ws)
    (hp : ∀ piece ∈ pieces, Keeps piece) : EndsOperand ws := by
  cases h with
  | @intro nl us hnl hus => simpa using (hnl.keeps.append (hus.keeps hp)).parenthesized

theorem TypeText.keeps {t : TypeExpr} (h : TypeText t ws) : Keeps ws := by
  induction h with
  | named => exact .cons (fun _ => rfl) keeps_nil
  | array _ ih => exact ih.append (.cons (fun _ => rfl) (.cons (fun _ => rfl) keeps_nil))

theorem Annotation.keeps {symbol : String} {t : TypeExpr} (hs : symbol ∈ [":", "->"])
    (h : Annotation symbol t ws) : Keeps ws := by
  cases h with
  | absent => exact keeps_nil
  | present ht =>
    refine .cons (fun s => ?_) ht.keeps
    rw [s.past_symbol]
    revert symbol
    decide

theorem ParameterText.keeps {p : Parameter} (h : ParameterText p ws) : Keeps ws := by
  cases h with
  | intro x ht => exact .cons (fun _ => rfl) (ht.keeps (by decide))

theorem SignatureText.keeps {signature : Signature} (h : SignatureText signature ws) :
    Keeps ws := by
  cases h with
  | intro hitems hws hresult =>
    have hparameters := hws.endsOperand (List.forall_mem_map.2 fun i hi => (hitems i hi).keeps)
    exact hparameters.keeps.append (hresult.keeps (by decide))

/-- None of the words is a bracket. -/
def Level (ws : List Terminal) : Prop :=
  ∀ w ∈ ws, ∀ s : Site, (s.past w).enclosing = s.enclosing

theorem Level.keeps (h : Level ws) : Keeps ws := by
  induction ws with
  | nil => exact keeps_nil
  | cons w ws ih =>
    obtain ⟨hw, hws⟩ := List.forall_mem_cons.1 h
    exact .cons hw (ih hws)

theorem level_loopNames (names : List String) : Level (loopNames names) := by
  intro w hw s
  cases names with
  | nil => cases hw
  | cons x xs =>
    simp only [loopNames, List.mem_cons, List.mem_flatMap, List.not_mem_nil, or_false] at hw
    rcases hw with rfl | rfl | ⟨y, -, rfl | rfl⟩ <;> rfl

theorem keeps_superclassText (superclass : Option String) : Keeps (superclassText superclass) := by
  cases superclass with
  | none => exact keeps_nil
  | some x => exact .cons (fun _ => rfl) (.cons (fun _ => rfl) keeps_nil)

/-! What is derived. -/

/-- Expressions and blocks end an operand, statements leave the brackets as they are. -/
def Phrase.Nests (ws : List Terminal) : Phrase → Prop
  | .expr _ _ | .block _ => EndsOperand ws
  | .statement _ => Keeps ws

variable {fits : Statement → List Terminal → Prop} {p : Phrase}

theorem mem_infixOperators {tier : Tier} {operator : String} (h : operator ∈ tier.operators) :
    operator ∈ infixOperators := by
  cases tier <;> revert operator <;> decide

theorem keeps_keyword (word : Keyword) (s : Site) :
    (s.past (.keyword word)).enclosing = s.enclosing := rfl

theorem Derives.nests (h : Derives fits p ws) : p.Nests ws := by
  induction h with
  | number | string | name => exact fun _ => rfl
  | grouping hnl _ hnl' ih =>
    have hinside := (hnl.keeps.append (ih.keeps.append hnl'.keeps)).parenthesized
    simp only [List.append_assoc] at hinside
    exact hinside
  | closure span hsig _ ih => exact .cons (keeps_keyword _) (.append hsig.keeps ih)
  | call span _ _ hvs ih iha =>
    refine .append ih.keeps (hvs.endsOperand (List.forall_mem_map.2 fun i hi => ?_))
    exact EndsOperand.keeps (iha i hi)
  | member x span _ ih => exact .append ih.keeps fun _ => rfl
  | @prefixed operator _ _ span hop _ ih =>
    refine .cons (fun s => ?_) ih
    rw [s.past_symbol]
    revert operator
    decide
  | binary span hop _ _ hnl _ ihl ihr =>
    refine .append ihl.keeps (.cons (fun s => ?_) (.append hnl.keeps ihr))
    rw [s.past_operator (mem_infixOperators hop)]
  | assignment span hop _ hnl _ iht ihv =>
    refine .append iht.keeps (.cons (fun s => ?_) (.append hnl.keeps ihv))
    rw [s.past_operator (List.mem_append_left _ hop)]
  | tighter _ _ ih => exact ih
  | block span _ hws ih => exact (hws.keeps (List.forall_mem_map.2 ih)).braced
  | nested _ ih => exact ih.keeps
  | conditional span _ _ ihc ihb => exact .cons (keeps_keyword _) (ihc.keeps.append ihb.keeps)
  | alternative span _ _ _ ihc ihb ihe =>
    exact .cons (keeps_keyword _)
      (ihc.keeps.append (ihb.keeps.append (.cons (keeps_keyword _) ihe.keeps)))
  | function x span hsig _ ih =>
    exact .cons (keeps_keyword _) (.cons (fun _ => rfl) (hsig.keeps.append ih.keeps))
  | result span _ ih => exact .cons (keeps_keyword _) ih.keeps
  | loop names bodySpan span _ hnl _ hvs ihe ihs =>
    have hbody := (hnl.keeps.append ((level_loopNames names).keeps.append (hvs.keeps ihs))).braced
    simp only [List.append_assoc] at hbody
    exact .cons (keeps_keyword _) (ihe.keeps.append hbody.keeps)
  | classDefinition x superclass span _ ih =>
    exact .cons (keeps_keyword _) (.cons (fun _ => rfl)
      ((keeps_superclassText superclass).append ih.keeps))
  | unassigned changes x valueSpan span hws =>
    exact .cons (keeps_keyword _) (.cons (fun _ => rfl) (hws.keeps (by decide)))
  | declaration changes x span hws hnl _ ih =>
    exact .cons (keeps_keyword _) (.cons (fun _ => rfl)
      ((hws.keeps (by decide)).append (.cons (fun _ => rfl) (hnl.keeps.append ih.keeps))))
  | expression span _ _ ih => exact ih.keeps

end ScriptSyntax
