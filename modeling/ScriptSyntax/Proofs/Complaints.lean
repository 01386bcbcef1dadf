import ScriptSyntax.Proofs.Passage
import ScriptSyntax.Parse.Program

/-! What parsers complain about, over whatever tables. A construct makes no complaints but those of
its parts and its own, so the instances below follow the definitions. -/
namespace ScriptSyntax

/-- The symbols that constructs insist on. -/
class IsDelimiter (text : String) : Prop where
  mem : text ∈ ["(", ")", "\x7b", "\x7d", "[", "]"]

instance : IsDelimiter "(" := ⟨by decide⟩
instance : IsDelimiter ")" := ⟨by decide⟩
instance : IsDelimiter "\x7b" := ⟨by decide⟩
instance : IsDelimiter "\x7d" := ⟨by decide⟩
instance : IsDelimiter "[" := ⟨by decide⟩
instance : IsDelimiter "]" := ⟨by decide⟩

/-- The complaints of parsers over a grammar. A token is stray if it has a power but no tail. -/
class inductive Grammar.Makes (g : Grammar) : Complaint → Prop
  | expectedExpression : g.Makes .expectedExpression
  | strayInExpression {key : String} (hpower : g.powers.get? key ≠ none)
    (htail : g.tails.get? key = none) : g.Makes .strayInExpression
  | expectedType : g.Makes .expectedType
  | strayInType {key : String} (hpower : g.typePowers.get? key ≠ none)
    (htail : g.typeTails.get? key = none) : g.Makes .strayInType
  | expectedSymbol (text : String) [IsDelimiter text] : g.Makes (.expectedSymbol text)
  | expectedName (role : NameRole) : g.Makes (.expectedName role)
  | unterminatedBlock : g.Makes .unterminatedBlock
  | expectedSeparatorInBlock : g.Makes .expectedSeparatorInBlock
  | expectedSeparator : g.Makes .expectedSeparator

attribute [instance] Grammar.Makes.expectedExpression Grammar.Makes.expectedType
  Grammar.Makes.expectedSymbol Grammar.Makes.expectedName Grammar.Makes.unterminatedBlock
  Grammar.Makes.expectedSeparatorInBlock Grammar.Makes.expectedSeparator

variable {g : Grammar}

theorem Grammar.Makes.onOneLine {k : Complaint} (h : g.Makes k) : '\n' ∉ k.message.toList := by
  cases h with
  | expectedSymbol text =>
    exact (show ∀ text ∈ ["(", ")", "\x7b", "\x7d", "[", "]"],
      '\n' ∉ (Complaint.expectedSymbol text).message.toList by decide) text IsDelimiter.mem
  | expectedName role => cases role <;> decide
  | _ => decide

namespace Parse
variable {α β : Type} {p : Parse α} {c : Cursor}

/-- What a parser complains about from a place is among the complaints of parsers over a grammar. -/
def ComplainsAt (g : Grammar) (c : Cursor) (p : Parse α) : Prop :=
  ∀ e d, p c = .failed e d → ∀ k found, e.cause = .refused k found → g.Makes k

class Complains (g : Grammar) (p : Parse α) : Prop where
  at_ : ∀ c, ComplainsAt g c p

instance (a : α) : (pure a : Parse α).Complains g := ⟨fun _ _ _ h => nomatch h⟩
instance : current.Complains g := ⟨fun _ _ _ h => nomatch h⟩
instance : lastEnd.Complains g := ⟨fun _ _ _ h => nomatch h⟩
instance : advance.Complains g := ⟨fun _ _ _ h => nomatch h⟩
instance (kind : TokenKind) : (skip kind).Complains g := ⟨fun _ _ _ h => nomatch h⟩

instance Complains.bind {f : α → Parse β} [hp : p.Complains g] [hf : ∀ a, (f a).Complains g] :
    (p >>= f).Complains g where
  at_ c e d h := by
    rw [bind_apply] at h
    cases hc : p c with
    | done a d' =>
      rw [hc] at h
      exact (hf a).at_ d' e d h
    | failed e' d' =>
      rw [hc] at h
      cases h
      exact hp.at_ c e d hc
    | endless =>
      rw [hc] at h
      cases h

instance {b : Prop} [Decidable b] {q : Parse α} [hp : p.Complains g] [hq : q.Complains g] :
    Complains g (if b then p else q) where
  at_ := by
    split
    · exact hp.at_
    · exact hq.at_

instance (k : Complaint) [hk : g.Makes k] : (complain k : Parse α).Complains g where
  at_ c e d h k' found hc := by
    cases h
    cases hc
    exact hk

instance {round : α → Parse (ForInStep α)} [hr : ∀ a, (round a).Complains g] (a : α) :
    (iterate round a).Complains g where
  at_ c := by
    intro e d h
    induction hn : c.remaining using Nat.strong_induction_on generalizing a c with
    | _ n ih =>
      rw [iterate] at h
      cases hc : round a c with
      | done step c' =>
        rw [hc] at h
        cases step with
        | done b => cases h
        | yield b =>
          dsimp only at h
          split at h
          · next hlt => exact ih c'.remaining (hn ▸ hlt) b c' h rfl
          · cases h
      | failed e' c' =>
        rw [hc] at h
        cases h
        exact (hr a).at_ c e d hc
      | endless =>
        rw [hc] at h
        cases h

instance {round : Parse (ForInStep (List α))} [hr : round.Complains g] :
    (collect round).Complains g where
  at_ c := by
    intro e d h
    induction hn : c.remaining using Nat.strong_induction_on generalizing c with
    | _ n ih =>
      rw [collect] at h
      cases hc : round c with
      | done step c' =>
        rw [hc] at h
        cases step with
        | done items => cases h
        | yield items =>
          dsimp only at h
          split at h
          · next hlt =>
            split at h
            · cases h
            · exact ih c'.remaining (hn ▸ hlt) c' h rfl
          · cases h
      | failed e' c' =>
        rw [hc] at h
        cases h
        exact hr.at_ c e d hc
      | endless =>
        rw [hc] at h
        cases h

instance : advanceLine.Complains g := by unfold advanceLine; infer_instance
instance (text : String) : (atSymbol text).Complains g := by unfold atSymbol; infer_instance
instance (word : Keyword) : (atKeyword word).Complains g := by unfold atKeyword; infer_instance
instance : atToken.Complains g := by unfold atToken; infer_instance
instance (test : Token → Bool) : (accept test).Complains g := by unfold accept; infer_instance
instance (text : String) : (acceptSymbol text).Complains g := by unfold acceptSymbol; infer_instance
instance (word : Keyword) : (acceptKeyword word).Complains g := by
  unfold acceptKeyword; infer_instance
instance (kind : TokenKind) : (acceptKind kind).Complains g := by unfold acceptKind; infer_instance
instance (test : Token → Bool) (k : Complaint) [g.Makes k] : (expect test k).Complains g := by
  unfold expect; infer_instance
instance (text : String) [IsDelimiter text] : (expectSymbol text).Complains g := by
  unfold expectSymbol; infer_instance
instance (role : NameRole) : (expectName role).Complains g := by
  unfold expectName expectKind; infer_instance

instance {item : Parse α} [item.Complains g] : (commaSeparated item).Complains g := by
  unfold commaSeparated; infer_instance

/-- The text of a number is refused without a complaint. -/
instance : literal.Complains g := by
  have hrefuse : Complains g (refuse fun t => .badNumber t.text : Parse Expr) :=
    ⟨fun c e d h k found hc => by
      cases h
      cases hc⟩
  unfold literal
  refine @Complains.bind _ _ _ _ _ inferInstance fun t => ?_
  cases t.kind with
  | number => cases Double.ofText? t.text <;> infer_instance
  | _ => infer_instance

instance (object : Expr) : (member object).Complains g := by unfold member; infer_instance
instance : namedType.Complains g := by unfold namedType expectKind; infer_instance
instance (element : TypeExpr) : (arrayType element).Complains g := by
  unfold arrayType; infer_instance

end Parse

open Parse

/-- Readers that complain as parsers over a grammar do. -/
class Readers.Complains (g : Grammar) (r : Readers) : Prop where
  typeExpr : ∀ power, (r.typeExpr power).Complains g
  expr : ∀ power, (r.expr power).Complains g
  statement : r.statement.Complains g

attribute [instance] Readers.Complains.typeExpr Readers.Complains.expr Readers.Complains.statement

namespace Readers
variable (r : Readers) [r.Complains g]

instance (symbol : String) : (r.typeAfter symbol).Complains g := by unfold typeAfter; infer_instance
instance : r.blockRound.Complains g := by unfold blockRound; infer_instance
instance : r.block.Complains g := by unfold block; infer_instance
instance : r.parameter.Complains g := by unfold parameter; infer_instance
instance : r.parameters.Complains g := by unfold parameters; infer_instance
instance : r.resultType.Complains g := by unfold resultType; infer_instance
instance : r.signature.Complains g := by unfold signature; infer_instance
instance : r.prefixed.Complains g := by unfold prefixed; infer_instance
instance : r.grouping.Complains g := by unfold grouping; infer_instance
instance : r.closure.Complains g := by unfold closure; infer_instance
instance (left : Expr) (power : BindingPower) : (r.binary left power).Complains g := by
  unfold binary; infer_instance
instance (target : Expr) : (r.assignment target).Complains g := by unfold assignment; infer_instance
instance (callee : Expr) : (r.call callee).Complains g := by unfold call; infer_instance
instance (name : String) : (r.initializer name).Complains g := by unfold initializer; infer_instance
instance : r.declaration.Complains g := by unfold declaration; infer_instance
instance : r.elseBlock.Complains g := by unfold elseBlock; infer_instance
instance : r.conditional.Complains g := by unfold conditional; infer_instance
instance : r.result.Complains g := by unfold result; infer_instance
instance : loopVariables.Complains g := by unfold loopVariables; infer_instance
instance : r.loopRound.Complains g := by unfold loopRound; infer_instance
instance : r.loop.Complains g := by unfold loop; infer_instance
instance : r.function.Complains g := by unfold function; infer_instance
instance : superclass.Complains g := by unfold superclass; infer_instance
instance : r.classDefinition.Complains g := by unfold classDefinition; infer_instance

instance (start : ExprStart) : (start.read r).Complains g := by
  cases start <;> unfold ExprStart.read <;> infer_instance
instance (tail : ExprTail) (left : Expr) (power : BindingPower) :
    (tail.read r left power).Complains g := by
  cases tail <;> unfold ExprTail.read <;> infer_instance
instance (form : StatementForm) : (form.read r).Complains g := by
  cases form <;> unfold StatementForm.read <;> infer_instance

end Readers

namespace Grammar
variable (g : Grammar) (r : Readers) [r.Complains g]

instance (start : TypeStart) : start.read.Complains g := by
  cases start; unfold TypeStart.read; infer_instance
instance (tail : TypeTail) (left : TypeExpr) : (tail.read left).Complains g := by
  cases tail; unfold TypeTail.read; infer_instance

instance (power : BindingPower) (left : TypeExpr) : (g.typeRound power left).Complains g := by
  unfold typeRound
  refine @Complains.bind _ _ _ _ _ inferInstance fun t => ?_
  dsimp only
  cases hpower : g.typePowers.get? t.key with
  | none => infer_instance
  | some next =>
    cases htail : g.typeTails.get? t.key with
    | none =>
      have := Makes.strayInType (by simp [hpower]) htail
      infer_instance
    | some tail => infer_instance

instance (power : BindingPower) : (g.typeExpr power).Complains g := by
  unfold typeExpr
  refine @Complains.bind _ _ _ _ _ inferInstance fun t => ?_
  cases g.typeStarts.get? t.key <;> infer_instance

/-- What binds tightly enough for any bound has a power. -/
theorem ne_none_of_lt {power : BindingPower} {key : String}
    (h : power < (g.powers.get? key).getD .default) : g.powers.get? key ≠ none := by
  intro hnone
  rw [hnone] at h
  exact Nat.not_lt_zero _ h

instance (power : BindingPower) (left : Expr) : (g.exprRound r power left).Complains g := by
  unfold exprRound
  refine @Complains.bind _ _ _ _ _ inferInstance fun t => ?_
  dsimp only
  cases htail : g.tails.get? t.key with
  | none =>
    -- a token without a power binds as loosely as possible, and so ends the expression
    split
    · next hlt =>
      have := Makes.strayInExpression (g.ne_none_of_lt hlt) htail
      infer_instance
    · infer_instance
  | some tail => infer_instance

instance (power : BindingPower) : (g.exprOver r power).Complains g := by
  unfold exprOver
  refine @Complains.bind _ _ _ _ _ inferInstance fun t => ?_
  cases g.starts.get? t.key <;> infer_instance

instance : (g.statementOver r).Complains g := by
  unfold statementOver
  refine @Complains.bind _ _ _ _ _ inferInstance fun t => ?_
  cases g.rules.find? (·.test t) <;> infer_instance

/-- Where a check fails nothing is complained about. -/
theorem complains_checked {α : Type} {p : Parse α} (passed : Cursor → Prop) [DecidablePred passed]
    (h : ∀ c, passed c → ComplainsAt g c p) :
    Complains g fun c => if passed c then p c else .endless where
  at_ c e d hc := by
    by_cases hp : passed c
    · exact h c hp e d ((if_pos hp).symm.trans hc)
    · exact nomatch (if_neg hp).symm.trans hc

/-- Each construct calls for others with fewer tokens left, or a statement for an expression. -/
private theorem complains_below (n : Nat) : ∀ c : Cursor, c.remaining < n →
    (∀ power, ComplainsAt g c (g.expr power)) ∧ ComplainsAt g c g.statement := by
  induction n with
  | zero => exact fun _ hc => absurd hc (Nat.not_lt_zero _)
  | succ n ih =>
    have hexpr : ∀ c : Cursor, c.remaining < n + 1 → ∀ power, ComplainsAt g c (g.expr power) := by
      intro c hc power
      let r : Readers := ⟨g.typeExpr,
        fun power c' => if c'.remaining < c.remaining then g.expr power c' else .endless,
        fun c' => if c'.remaining < c.remaining then g.statement c' else .endless⟩
      have hr : r.Complains g := ⟨fun _ => inferInstance,
        fun power => g.complains_checked _ fun d hd => (ih d (by omega)).1 power,
        g.complains_checked _ fun d hd => (ih d (by omega)).2⟩
      have hover : ComplainsAt g c (g.exprOver r power) := Complains.at_ c
      rwa [ComplainsAt, ← Grammar.expr.eq_1] at hover
    refine fun c hc => ⟨hexpr c hc, ?_⟩
    let r : Readers := ⟨g.typeExpr,
      fun power c' => if c'.remaining ≤ c.remaining then g.expr power c' else .endless,
      fun c' => if c'.remaining < c.remaining then g.statement c' else .endless⟩
    have hr : r.Complains g := ⟨fun _ => inferInstance,
      fun power => g.complains_checked _ fun d hd => hexpr d (by omega) power,
      g.complains_checked _ fun d hd => (ih d (by omega)).2⟩
    have hover : ComplainsAt g c (g.statementOver r) := Complains.at_ c
    rwa [ComplainsAt, ← Grammar.statement.eq_1] at hover

instance : g.readers.Complains g where
  typeExpr _ := inferInstanceAs (Complains g (g.typeExpr _))
  expr power := ⟨fun c => (g.complains_below (c.remaining + 1) c (Nat.lt_succ_self _)).1 power⟩
  statement := ⟨fun c => (g.complains_below (c.remaining + 1) c (Nat.lt_succ_self _)).2⟩

instance : g.programRound.Complains g := by unfold programRound; infer_instance
instance (file : String) : (g.program file).Complains g := by unfold program; infer_instance

end Grammar

/-- What the parser complains about it says on one line. -/
theorem parse_complaint {tokens : List Token} {file : String} {e : Error} {stop : Cursor}
    {k : Complaint} {found : Option String} (h : parse tokens file = .failed e stop)
    (he : e.cause = .refused k found) : '\n' ∉ k.message.toList := by
  have hprogram : Complains .script (Grammar.script.program file) := inferInstance
  exact (hprogram.at_ _ e stop h k found he).onOneLine

end ScriptSyntax
