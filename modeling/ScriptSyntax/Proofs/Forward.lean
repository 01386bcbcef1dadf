import ScriptSyntax.Proofs.Lookahead

/-! Parsers of any grammar move forward: between the cursor before and the cursor after, whether
there is a value or an error, lie tokens of which none ends the input. -/
namespace ScriptSyntax

/-- A cursor further on. -/
def Cursor.LeadsTo (c d : Cursor) : Prop := ∃ ts, c.Passes ts d

theorem Cursor.LeadsTo.refl (c : Cursor) : c.LeadsTo c := ⟨[], .refl c⟩

theorem Cursor.LeadsTo.trans {c d e : Cursor} (h : c.LeadsTo d) (h' : d.LeadsTo e) :
    c.LeadsTo e := by
  obtain ⟨ts, hts⟩ := h
  obtain ⟨us, hus⟩ := h'
  exact ⟨ts ++ us, hts.append hus⟩

namespace Parse
variable {α β : Type} {p : Parse α} {q : Parse β} {c : Cursor}

/-- A parser that leaves the cursor further on, if it has an end. -/
def ForwardAt (c : Cursor) (p : Parse α) : Prop := ∀ d, (p c).cursor? = some d → c.LeadsTo d

def Forward (p : Parse α) : Prop := ∀ c, ForwardAt c p

/-- What reads the same at other positions passes the tokens that it reads. -/
theorem Transports.forward {g : α → β} (h : Transports id g p q) : p.Forward := fun c d hd => by
  obtain ⟨ts, hts, -⟩ := h c d hd
  exact ⟨ts, hts⟩

theorem ForwardAt.congr {p' : Parse α} (hp : ForwardAt c p) (h : p' c = p c) : ForwardAt c p' := by
  rw [ForwardAt] at hp ⊢
  rwa [h]

theorem forwardAt_endless (h : p c = .endless) : ForwardAt c p := by
  intro d hd
  rw [h] at hd
  cases hd

theorem Forward.bind {f : α → Parse β} (hp : p.Forward) (hf : ∀ a, (f a).Forward) :
    (p >>= f).Forward := by
  intro c d hd
  cases hpc : p c with
  | done a e =>
    rw [bind_done f hpc] at hd
    exact (hp c e (by rw [hpc]; rfl)).trans (hf a e d hd)
  | failed e stop =>
    rw [bind_failed f hpc] at hd
    exact hp c d (by rw [hpc]; exact hd)
  | endless =>
    rw [bind_endless f hpc] at hd
    cases hd

theorem forward_pure (a : α) : (pure a : Parse α).Forward :=
  (transports_pure (g := id) rfl).forward

theorem forward_complain (k : Complaint) : (complain k : Parse α).Forward :=
  (transports_complain (g := id) k).forward

theorem forward_current : current.Forward := transports_current.forward

theorem forward_lastEnd : lastEnd.Forward := transports_lastEnd.forward

theorem forward_advance : advance.Forward := transports_advance.forward

theorem forward_advanceLine : advanceLine.Forward := transports_advanceLine.forward

theorem forward_skip (kind : TokenKind) : (skip kind).Forward := (transports_skip kind).forward

theorem forward_atSymbol (text : String) : (atSymbol text).Forward :=
  (transports_atSymbol text).forward

theorem forward_atToken : atToken.Forward := transports_atToken.forward

theorem forward_acceptSymbol (text : String) : (acceptSymbol text).Forward :=
  (transports_acceptSymbol text).forward

theorem forward_acceptKeyword (word : Keyword) : (acceptKeyword word).Forward :=
  (transports_acceptKeyword word).forward

theorem forward_acceptKind (kind : TokenKind) : (acceptKind kind).Forward :=
  (transports_acceptKind kind).forward

theorem forward_expect (test : Token → Bool) (k : Complaint) : (expect test k).Forward :=
  forward_current.bind fun t => by
    split
    · exact forward_advance
    · exact forward_complain k

theorem forward_expectSymbol (text : String) : (expectSymbol text).Forward := forward_expect _ _

theorem forward_expectName (role : NameRole) : (expectName role).Forward :=
  (transports_expectName role).forward

theorem forward_iterate {round : α → Parse (ForInStep α)} (h : ∀ a, (round a).Forward) (a : α) :
    (iterate round a).Forward := by
  intro c
  induction hn : c.remaining using Nat.strong_induction_on generalizing a c with
  | _ n ih =>
    intro d hd
    cases hr : round a c with
    | done step e =>
      have he : c.LeadsTo e := h a c e (by rw [hr]; rfl)
      rw [iterate, hr] at hd
      cases step with
      | done b =>
        obtain rfl : e = d := Option.some.inj hd
        exact he
      | yield b =>
        by_cases hlt : e.remaining < c.remaining
        · simp only [hlt, if_true] at hd
          exact he.trans (ih e.remaining (by omega) b e rfl d hd)
        · simp only [hlt, if_false] at hd
          cases hd
    | failed e stop =>
      rw [iterate, hr] at hd
      exact h a c d (by rw [hr]; exact hd)
    | endless =>
      rw [iterate, hr] at hd
      cases hd

theorem forward_collect {round : Parse (ForInStep (List α))} (h : round.Forward) :
    (collect round).Forward := by
  intro c
  induction hn : c.remaining using Nat.strong_induction_on generalizing c with
  | _ n ih =>
    intro d hd
    cases hr : round c with
    | done step e =>
      have he : c.LeadsTo e := h c e (by rw [hr]; rfl)
      cases step with
      | done items =>
        rw [collect_of_done hr] at hd
        obtain rfl : e = d := Option.some.inj hd
        exact he
      | yield items =>
        by_cases hlt : e.remaining < c.remaining
        · rw [collect_of_yield hr hlt] at hd
          have hrest := ih e.remaining (by omega) e rfl d
          cases hmore : collect round e <;> rw [hmore] at hd hrest
          · exact he.trans (hrest hd)
          · exact he.trans (hrest hd)
          · cases hd
        · rw [collect, hr] at hd
          simp only [hlt, if_false] at hd
          cases hd
    | failed e stop =>
      rw [collect_of_failed hr] at hd
      exact h c d (by rw [hr]; exact hd)
    | endless =>
      rw [collect, hr] at hd
      cases hd

theorem forward_commaSeparated {item : Parse α} (h : item.Forward) :
    (commaSeparated item).Forward :=
  forward_collect <| (forward_atSymbol _).bind fun b => by
    cases b with
    | true => exact forward_pure _
    | false =>
      refine h.bind fun a => (forward_skip _).bind fun _ =>
        (forward_acceptSymbol _).bind fun b => ?_
      cases b with
      | true => exact (forward_skip _).bind fun _ => forward_pure _
      | false => exact forward_pure _

end Parse

open Parse

/-- Readers that move forward. -/
structure Readers.Forward (r : Readers) : Prop where
  typeExpr : ∀ power, (r.typeExpr power).Forward
  expr : ∀ power, (r.expr power).Forward
  statement : r.statement.Forward

namespace Readers.Forward
variable {r : Readers} (h : r.Forward)
include h

theorem typeAfter (symbol : String) : (r.typeAfter symbol).Forward :=
  (forward_acceptSymbol _).bind fun b => by
    cases b with
    | true => exact h.typeExpr _
    | false => exact forward_pure _

theorem blockRound : r.blockRound.Forward := by
  refine forward_current.bind fun t => ?_
  split
  · exact forward_complain _
  split
  · exact forward_advance.bind fun _ => forward_pure _
  split
  · exact forward_advance.bind fun _ => forward_pure _
  refine h.statement.bind fun s => (forward_acceptKind _).bind fun b => ?_
  cases b with
  | true => exact forward_pure _
  | false =>
    refine (forward_atSymbol _).bind fun b => ?_
    cases b with
    | true => exact forward_pure _
    | false => exact forward_complain _

theorem block : r.block.Forward :=
  (forward_expectSymbol _).bind fun _ => (forward_collect h.blockRound).bind fun _ =>
    forward_lastEnd.bind fun _ => forward_pure _

theorem parameters : r.parameters.Forward := by
  have hparameter : r.parameter.Forward :=
    (forward_expectName _).bind fun _ => (h.typeAfter _).bind fun _ => forward_pure _
  exact (forward_expectSymbol _).bind fun _ => (forward_skip _).bind fun _ =>
    (forward_commaSeparated hparameter).bind fun _ => (forward_expectSymbol _).bind fun _ =>
      forward_pure _

theorem signature : r.signature.Forward :=
  h.parameters.bind fun _ => (h.typeAfter _).bind fun _ => forward_pure _

omit h in
/-- A literal calls for nothing else, so it is the one of the script grammar. -/
theorem literal : Parse.literal.Forward :=
  (Grammar.script_transports.exprStart .literal).transports.forward

theorem exprStart (start : ExprStart) : (start.read r).Forward := by
  cases start with
  | literal => exact literal
  | prefixed => exact forward_advance.bind fun _ => (h.expr _).bind fun _ => forward_pure _
  | grouping =>
    exact forward_advanceLine.bind fun _ => (h.expr _).bind fun _ => (forward_skip _).bind fun _ =>
      (forward_expectSymbol _).bind fun _ => forward_pure _
  | closure =>
    exact forward_advance.bind fun _ => h.signature.bind fun _ => h.block.bind fun _ =>
      forward_lastEnd.bind fun _ => forward_pure _

theorem exprTail (tail : ExprTail) (left : Expr) (power : BindingPower) :
    (tail.read r left power).Forward := by
  cases tail with
  | assignment | binary =>
    exact forward_advanceLine.bind fun _ => (h.expr _).bind fun _ => forward_pure _
  | call =>
    exact forward_advanceLine.bind fun _ => (forward_commaSeparated (h.expr _)).bind fun _ =>
      (forward_expectSymbol _).bind fun _ => forward_lastEnd.bind fun _ => forward_pure _
  | member =>
    exact forward_advance.bind fun _ => (forward_expectName _).bind fun _ =>
      forward_lastEnd.bind fun _ => forward_pure _

theorem initializer (name : String) : (r.initializer name).Forward :=
  (forward_atSymbol _).bind fun b => by
    cases b with
    | true => exact forward_advanceLine.bind fun _ => (h.expr _).bind fun _ => forward_pure _
    | false => exact forward_lastEnd.bind fun _ => forward_pure _

theorem elseBlock : r.elseBlock.Forward :=
  (forward_acceptKeyword _).bind fun b => by
    cases b with
    | true => exact h.block.bind fun _ => forward_pure _
    | false => exact forward_pure _

theorem loopRound : r.loopRound.Forward :=
  (forward_skip _).bind fun _ => (forward_atSymbol _).bind fun b => by
    cases b with
    | true => exact forward_pure _
    | false =>
      refine forward_atToken.bind fun b => ?_
      cases b with
      | true => exact h.statement.bind fun _ => forward_pure _
      | false => exact forward_pure _

theorem statementForm (form : StatementForm) : (form.read r).Forward := by
  cases form with
  | any => exact h.statement
  | block => exact h.block.bind fun _ => forward_pure _
  | declaration =>
    exact forward_advance.bind fun _ => (forward_expectName _).bind fun _ =>
      (h.typeAfter _).bind fun _ => (h.initializer _).bind fun _ => forward_lastEnd.bind fun _ =>
        forward_pure _
  | conditional =>
    exact forward_advance.bind fun _ => (h.expr _).bind fun _ => h.block.bind fun _ =>
      h.elseBlock.bind fun _ => forward_lastEnd.bind fun _ => forward_pure _
  | result =>
    exact forward_advance.bind fun _ => (h.expr _).bind fun _ => forward_lastEnd.bind fun _ =>
      forward_pure _
  | loop =>
    exact forward_advance.bind fun _ => (h.expr _).bind fun _ =>
      (forward_expectSymbol _).bind fun _ => (forward_skip _).bind fun _ =>
        (Readers.Transports.loopVariables).forward.bind fun _ =>
          (forward_collect h.loopRound).bind fun _ => (forward_expectSymbol _).bind fun _ =>
            forward_lastEnd.bind fun _ => forward_pure _
  | function =>
    exact forward_advance.bind fun _ => (forward_expectName _).bind fun _ =>
      h.signature.bind fun _ => h.block.bind fun _ => forward_lastEnd.bind fun _ => forward_pure _
  | classDefinition =>
    exact forward_advance.bind fun _ => (forward_expectName _).bind fun _ =>
      (Readers.Transports.superclass).forward.bind fun _ => h.block.bind fun _ =>
        forward_lastEnd.bind fun _ => forward_pure _

end Readers.Forward

namespace Grammar
variable {r : Readers} (g : Grammar)

theorem forward_exprRound (h : r.Forward) (power : BindingPower) (left : Expr) :
    (g.exprRound r power left).Forward := by
  refine forward_current.bind fun t => ?_
  dsimp only
  split
  · cases g.tails.get? t.key with
    | none => exact forward_complain _
    | some tail => exact (h.exprTail tail left _).bind fun _ => forward_pure _
  · exact forward_pure _

theorem forward_exprOver (h : r.Forward) (power : BindingPower) :
    (g.exprOver r power).Forward := by
  refine forward_current.bind fun t => ?_
  cases g.starts.get? t.key with
  | none => exact forward_complain _
  | some start =>
    exact (h.exprStart start).bind fun a => forward_iterate (g.forward_exprRound h power) a

theorem forward_statementOver (h : r.Forward) : (g.statementOver r).Forward := by
  refine forward_current.bind fun t => ?_
  cases g.rules.find? (·.test t) with
  | none => exact (h.expr _).bind fun _ => forward_pure _
  | some rule => exact h.statementForm rule.form

/-- A call that has no end where a check fails moves nothing there. -/
theorem forward_checked {α : Type} {p : Parse α} (passed : Cursor → Prop) [DecidablePred passed]
    (h : ∀ c, passed c → ForwardAt c p) :
    Forward fun c => if passed c then p c else .endless := by
  intro c
  by_cases hc : passed c
  · exact (h c hc).congr (if_pos hc)
  · exact forwardAt_endless (if_neg hc)

/-- Each construct calls for others with fewer tokens left, or a statement for an expression. -/
private theorem forward_below (n : Nat) : ∀ c : Cursor, c.remaining < n →
    (∀ power, ForwardAt c (g.expr power)) ∧ ForwardAt c g.statement := by
  induction n with
  | zero => exact fun _ hc => absurd hc (Nat.not_lt_zero _)
  | succ n ih =>
    have hexpr : ∀ c : Cursor, c.remaining < n + 1 → ∀ power, ForwardAt c (g.expr power) := by
      intro c hc power
      refine (g.forward_exprOver (r := ⟨g.typeExpr, _, _⟩) ?_ power c).congr
        (Grammar.expr.eq_1 g power c)
      exact ⟨fun power => (transports_typeExpr g power).forward,
        fun power => forward_checked _ fun d hd => (ih d (by omega)).1 power,
        forward_checked _ fun d hd => (ih d (by omega)).2⟩
    refine fun c hc => ⟨hexpr c hc, ?_⟩
    refine (g.forward_statementOver (r := ⟨g.typeExpr, _, _⟩) ?_ c).congr
      (Grammar.statement.eq_1 g c)
    exact ⟨fun power => (transports_typeExpr g power).forward,
      fun power => forward_checked _ fun d hd => hexpr d (by omega) power,
      forward_checked _ fun d hd => (ih d (by omega)).2⟩

/-- The parsers of every grammar move forward. -/
theorem readers_forward : g.readers.Forward where
  typeExpr power := (transports_typeExpr g power).forward
  expr power c := (g.forward_below (c.remaining + 1) c (Nat.lt_succ_self _)).1 power
  statement c := (g.forward_below (c.remaining + 1) c (Nat.lt_succ_self _)).2

end Grammar
end ScriptSyntax
