import ScriptSyntax.Proofs.Transport

/-! The script grammar on two lists of tokens that agree as far as the first one is read: no parser
reads behind the token at which it ends. -/
namespace ScriptSyntax
open Parse

/-- Readers of which the second ones do to moved tokens what the first ones do. -/
structure Readers.Transports (f : Position → Position) (r r' : Readers) : Prop where
  typeExpr : ∀ power,
    Parse.Transports f (TypeExpr.relocate f) (r.typeExpr power) (r'.typeExpr power)
  expr : ∀ power, Parse.Transports f (Expr.relocate f) (r.expr power) (r'.expr power)
  statement : Parse.Transports f (Statement.relocate f) r.statement r'.statement

namespace Readers.Transports
variable {f : Position → Position} {r r' : Readers} (h : r.Transports f r')
include h

theorem typeAfter (symbol : String) :
    Parse.Transports f (TypeExpr.relocate f) (r.typeAfter symbol) (r'.typeAfter symbol) := by
  refine (transports_acceptSymbol _).bind fun b => ?_
  cases b with
  | true => exact h.typeExpr _
  | false => exact transports_pure rfl

theorem blockRound : Parse.Transports f (mapStep (List.map (Statement.relocate f)))
    r.blockRound r'.blockRound := by
  refine transports_current.bind fun t => ?_
  change Parse.Transports f _ _
    (if t.kind = .endOfInput then _ else if t.isSymbol "\x7d" = true then _ else
      if t.kind = .newLine then _ else _)
  split
  · exact transports_complain _
  split
  · exact transports_advance.bind fun _ => transports_pure rfl
  split
  · exact transports_advance.bind fun _ => transports_pure rfl
  refine h.statement.bind fun s => (transports_acceptKind _).bind fun b => ?_
  cases b with
  | true => exact transports_pure rfl
  | false =>
    refine (transports_atSymbol _).bind fun b => ?_
    cases b with
    | true => exact transports_pure rfl
    | false => exact transports_complain _

theorem block : Opens f (Block.relocate f) r.block r'.block :=
  (opens_expectSymbol _).bind fun _ => (transports_collect h.blockRound).bind fun _ =>
    transports_lastEnd.bind fun _ => transports_pure (by
      rw [Block.relocate, relocateStatements_eq_map]
      rfl)

theorem parameter : Parse.Transports f (Parameter.relocate f) r.parameter r'.parameter :=
  (transports_expectName _).bind fun _ => (h.typeAfter _).bind fun _ => transports_pure rfl

theorem parameters :
    Parse.Transports f (List.map (Parameter.relocate f)) r.parameters r'.parameters :=
  (transports_expectSymbol _).bind fun _ => (transports_skip _).bind fun _ =>
    (transports_commaSeparated h.parameter).bind fun _ =>
      (transports_expectSymbol _).bind fun _ => transports_pure rfl

theorem signature : Parse.Transports f (Signature.relocate f) r.signature r'.signature :=
  h.parameters.bind fun _ => (h.typeAfter _).bind fun _ => transports_pure rfl

theorem exprStart (start : ExprStart) :
    Opens f (Expr.relocate f) (start.read r) (start.read r') := by
  cases start with
  | literal =>
    refine opens_current fun t => ?_
    simp only [t.kind_relocate, t.text_relocate]
    cases t.kind with
    | number =>
      dsimp only
      cases Double.ofText? t.text with
      | some _ => exact opens_advance.bind fun _ => transports_pure rfl
      | none => exact opens_refuse fun _ => rfl
    | name => exact opens_advance.bind fun _ => transports_pure rfl
    | string => exact opens_advance.bind fun _ => transports_pure rfl
    | symbol => exact opens_complain _
    | keyword _ => exact opens_complain _
    | newLine => exact opens_complain _
    | endOfInput => exact opens_complain _
  | prefixed =>
    exact opens_advance.bind fun _ => (h.expr _).bind fun _ => transports_pure (by
      rw [Expr.relocate, Expr.span_relocate]
      rfl)
  | grouping =>
    exact opens_advanceLine.bind fun _ => (h.expr _).bind fun _ =>
      (transports_skip _).bind fun _ => (transports_expectSymbol _).bind fun _ =>
        transports_pure rfl
  | closure =>
    exact opens_advance.bind fun _ => h.signature.bind fun _ => h.block.transports.bind fun _ =>
      transports_lastEnd.bind fun _ => transports_pure rfl

theorem exprTail (tail : ExprTail) (left : Expr) (power : BindingPower) :
    Parse.Transports f (Expr.relocate f) (tail.read r left power)
      (tail.read r' (left.relocate f) power) := by
  cases tail with
  | assignment =>
    exact transports_advanceLine.bind fun _ => (h.expr _).bind fun _ => transports_pure (by
      rw [Expr.relocate, Expr.span_relocate, Expr.span_relocate]
      rfl)
  | binary =>
    exact transports_advanceLine.bind fun _ => (h.expr _).bind fun _ => transports_pure (by
      rw [Expr.relocate, Expr.span_relocate, Expr.span_relocate]
      rfl)
  | call =>
    exact transports_advanceLine.bind fun _ => (transports_commaSeparated (h.expr _)).bind fun _ =>
      (transports_expectSymbol _).bind fun _ => transports_lastEnd.bind fun _ =>
        transports_pure (by
          rw [Expr.relocate, Expr.span_relocate, relocateExprs_eq_map]
          rfl)
  | member =>
    exact transports_advance.bind fun _ => (transports_expectName _).bind fun _ =>
      transports_lastEnd.bind fun _ => transports_pure (by
        rw [Expr.relocate, Expr.span_relocate]
        rfl)

theorem initializer (name : String) :
    Parse.Transports f (Expr.relocate f) (r.initializer name) (r'.initializer name) := by
  refine (transports_atSymbol _).bind fun b => ?_
  cases b with
  | true =>
    exact transports_advanceLine.bind fun _ => (h.expr _).bind fun _ =>
      transports_pure (Expr.named_relocate f name _)
  | false => exact transports_lastEnd.bind fun _ => transports_pure rfl

theorem elseBlock :
    Parse.Transports f (Option.map (Block.relocate f)) r.elseBlock r'.elseBlock := by
  refine (transports_acceptKeyword _).bind fun b => ?_
  cases b with
  | true => exact h.block.transports.bind fun _ => transports_pure rfl
  | false => exact transports_pure rfl

theorem loopRound : Parse.Transports f (mapStep (List.map (Statement.relocate f)))
    r.loopRound r'.loopRound := by
  refine (transports_skip _).bind fun _ => (transports_atSymbol _).bind fun b => ?_
  cases b with
  | true => exact transports_pure rfl
  | false =>
    refine transports_atToken.bind fun b => ?_
    cases b with
    | true => exact h.statement.bind fun _ => transports_pure rfl
    | false => exact transports_pure rfl

omit h in
theorem loopVariables :
    Parse.Transports f (List.map id) Readers.loopVariables Readers.loopVariables := by
  refine (transports_acceptKeyword _).bind fun b => ?_
  cases b with
  | true =>
    refine transports_collect ((transports_expectName _).bind fun _ =>
      (transports_acceptSymbol _).bind fun b => ?_)
    cases b <;> exact transports_pure rfl
  | false => exact transports_pure rfl

omit h in
theorem superclass :
    Parse.Transports f (Option.map id) Readers.superclass Readers.superclass := by
  refine (transports_acceptSymbol _).bind fun b => ?_
  cases b with
  | true => exact (transports_expectName _).bind fun _ => transports_pure rfl
  | false => exact transports_pure rfl

theorem statementForm (form : StatementForm) (hany : form ≠ .any) :
    Opens f (Statement.relocate f) (form.read r) (form.read r') := by
  cases form with
  | any => exact absurd rfl hany
  | block => exact h.block.bind fun _ => transports_pure rfl
  | declaration =>
    exact opens_advance.bind fun _ => (transports_expectName _).bind fun _ =>
      (h.typeAfter _).bind fun _ => (h.initializer _).bind fun _ => transports_lastEnd.bind fun _ =>
        transports_pure rfl
  | conditional =>
    exact opens_advance.bind fun _ => (h.expr _).bind fun _ => h.block.transports.bind fun _ =>
      h.elseBlock.bind fun _ => transports_lastEnd.bind fun _ => transports_pure (by
        rw [Statement.relocate, relocateElse_eq_map]
        rfl)
  | result =>
    exact opens_advance.bind fun _ => (h.expr _).bind fun _ => transports_lastEnd.bind fun _ =>
      transports_pure rfl
  | loop =>
    exact opens_advance.bind fun _ => (h.expr _).bind fun _ =>
      (transports_expectSymbol _).bind fun _ => (transports_skip _).bind fun _ =>
        loopVariables.bind fun names => (transports_collect h.loopRound).bind fun _ =>
          (transports_expectSymbol _).bind fun _ => transports_lastEnd.bind fun _ =>
            transports_pure (by
              rw [Statement.relocate, Block.relocate, relocateStatements_eq_map, List.map_id]
              rfl)
  | function =>
    exact opens_advance.bind fun _ => (transports_expectName _).bind fun _ =>
      h.signature.bind fun _ => h.block.transports.bind fun _ => transports_lastEnd.bind fun _ =>
        transports_pure rfl
  | classDefinition =>
    exact opens_advance.bind fun _ => (transports_expectName _).bind fun _ =>
      superclass.bind fun name => h.block.transports.bind fun _ => transports_lastEnd.bind fun _ =>
        transports_pure (by rw [Statement.relocate, Option.map_id]; rfl)

theorem anyForm (form : StatementForm) :
    Parse.Transports f (Statement.relocate f) (form.read r) (form.read r') := by
  by_cases hany : form = .any
  · subst hany
    exact h.statement
  · exact (h.statementForm form hany).transports

end Readers.Transports

namespace Grammar
variable {f : Position → Position} {r r' : Readers}

theorem transports_typeStart (start : TypeStart) :
    Transports f (TypeExpr.relocate f) start.read start.read := by
  cases start with
  | name =>
    exact (opens_expect (fun _ => rfl) _).transports.bind fun _ => transports_pure rfl

theorem transports_typeTail (tail : TypeTail) (left : TypeExpr) :
    Transports f (TypeExpr.relocate f) (tail.read left) (tail.read (left.relocate f)) := by
  cases tail with
  | array =>
    exact (transports_expectSymbol _).bind fun _ => (transports_expectSymbol _).bind fun _ =>
      transports_pure rfl

theorem transports_typeExpr (g : Grammar) (power : BindingPower) :
    Transports f (TypeExpr.relocate f) (g.typeExpr power) (g.typeExpr power) := by
  have hround : ∀ left, Transports f (mapStep (TypeExpr.relocate f)) (g.typeRound power left)
      (g.typeRound power (left.relocate f)) := fun left => by
    refine transports_current.bind fun t => ?_
    dsimp only
    rw [t.key_relocate]
    cases g.typePowers.get? t.key with
    | none => exact transports_pure rfl
    | some next =>
      dsimp only
      split
      · cases g.typeTails.get? t.key with
        | none => exact transports_complain _
        | some tail => exact (transports_typeTail tail left).bind fun _ => transports_pure rfl
      · exact transports_pure rfl
  refine transports_current.bind fun t => ?_
  rw [t.key_relocate]
  cases g.typeStarts.get? t.key with
  | none => exact transports_complain _
  | some start => exact (transports_typeStart start).bind fun a => transports_iterate hround a

theorem transports_exprRound (g : Grammar) (h : r.Transports f r') (power : BindingPower)
    (left : Expr) : Transports f (mapStep (Expr.relocate f)) (g.exprRound r power left)
      (g.exprRound r' power (left.relocate f)) := by
  refine transports_current.bind fun t => ?_
  dsimp only
  rw [t.key_relocate]
  split
  · cases g.tails.get? t.key with
    | none => exact transports_complain _
    | some tail => exact (h.exprTail tail left _).bind fun _ => transports_pure rfl
  · exact transports_pure rfl

theorem opens_exprOver (g : Grammar) (h : r.Transports f r') (power : BindingPower) :
    Opens f (Expr.relocate f) (g.exprOver r power) (g.exprOver r' power) := by
  refine opens_current fun t => ?_
  rw [t.key_relocate]
  cases g.starts.get? t.key with
  | none => exact opens_complain _
  | some start =>
    exact (h.exprStart start).bind fun a =>
      transports_iterate (transports_exprRound g h power) a

theorem transports_statementOver (h : r.Transports f r') :
    Transports f (Statement.relocate f) (script.statementOver r) (script.statementOver r') := by
  refine transports_current.bind fun t => ?_
  rw [find_rule_relocate]
  cases script.rules.find? (·.test t) with
  | none =>
    exact (h.expr _).bind fun e => transports_pure (by
      rw [Statement.relocate, Expr.span_relocate])
  | some rule => exact h.anyForm rule.form

/-- A parser with a check in front, which has no result where the check fails. -/
theorem transports_checked {α β : Type} {g : α → β} {p : Parse α} {q : Parse β}
    (passed : Cursor → Prop) [DecidablePred passed]
    (h : ∀ c, passed c → TransportsAt f g c p q) :
    Transports f g (fun c => if passed c then p c else .endless) q := by
  intro c
  by_cases hc : passed c
  · exact (h c hc).congr (if_pos hc)
  · exact transportsAt_endless (if_neg hc)

/-- The step is from the constructs that have fewer tokens left to the one at hand. -/
private theorem transports_below (n : Nat) : ∀ c : Cursor, c.remaining < n →
    (∀ power, TransportsAt f (Expr.relocate f) c (script.expr power) (script.expr power)) ∧
      TransportsAt f (Statement.relocate f) c script.statement script.statement := by
  induction n with
  | zero => exact fun _ hc => absurd hc (Nat.not_lt_zero _)
  | succ n ih =>
    have hexpr : ∀ c : Cursor, c.remaining < n + 1 → ∀ power,
        TransportsAt f (Expr.relocate f) c (script.expr power) (script.expr power) := by
      intro c hc power
      have hr : Readers.Transports f
          (checked (·.remaining < c.remaining) (·.remaining < c.remaining)) script.readers :=
        ⟨transports_typeExpr script,
          fun power => transports_checked _ fun d hd => (ih d (by omega)).1 power,
          transports_checked _ fun d hd => (ih d (by omega)).2⟩
      have hover := ((opens_exprOver script hr power).transports c).congr (Grammar.expr.eq_1 _ _ _)
      rwa [← script_expr] at hover
    refine fun c hc => ⟨hexpr c hc, ?_⟩
    have hr : Readers.Transports f
        (checked (·.remaining ≤ c.remaining) (·.remaining < c.remaining)) script.readers :=
      ⟨transports_typeExpr script,
        fun power => transports_checked _ fun d hd => hexpr d (by omega) power,
        transports_checked _ fun d hd => (ih d (by omega)).2⟩
    have hover := (transports_statementOver hr c).congr (Grammar.statement.eq_1 _ _)
    rwa [← script_statement] at hover

theorem script_transports : script.readers.Transports f script.readers where
  typeExpr := transports_typeExpr script
  expr power c := (transports_below (c.remaining + 1) c (Nat.lt_succ_self _)).1 power
  statement c := (transports_below (c.remaining + 1) c (Nat.lt_succ_self _)).2

theorem transports_checkedReaders (exprs statements : Cursor → Prop) [DecidablePred exprs]
    [DecidablePred statements] :
    (checked exprs statements).Transports f script.readers where
  typeExpr := transports_typeExpr script
  expr power := transports_checked _ fun c _ => script_transports.expr power c
  statement := transports_checked _ fun c _ => script_transports.statement c

theorem opens_expr (power : BindingPower) :
    Opens f (Expr.relocate f) (script.expr power) (script.expr power) := by
  rw [script_expr]
  exact opens_exprOver script script_transports power

/-- Statements look back only after they have consumed a token. -/
theorem opens_statement :
    Opens f (Statement.relocate f) script.statement script.statement := by
  refine ⟨script_transports.statement, fun c hc => ?_⟩
  rw [script_statement]
  refine freshAt_current ?_
  rw [find_rule_relocate]
  cases hrule : script.rules.find? (·.test c.current) with
  | none =>
    exact ((opens_expr .default).fresh c hc).bind fun e => transports_pure (by
      rw [Statement.relocate, Expr.span_relocate])
  | some rule => exact (script_transports.statementForm rule.form (script_rule hrule).2).fresh c hc

theorem transports_programRound : Transports f (mapStep (List.map (Statement.relocate f)))
    script.programRound script.programRound := by
  refine (transports_skip _).bind fun _ => transports_atToken.bind fun b => ?_
  cases b with
  | false => exact transports_pure rfl
  | true =>
    refine script_transports.statement.bind fun s => transports_atToken.bind fun b => ?_
    cases b with
    | false => exact transports_pure rfl
    | true =>
      refine (transports_acceptKind _).bind fun b => ?_
      cases b with
      | true => exact transports_pure rfl
      | false => exact transports_complain _

theorem transports_program (file : String) :
    Transports id (Block.relocate id) (script.program file) (script.program file) :=
  (transports_collect transports_programRound).bind fun _ => transports_lastEnd.bind fun _ =>
    transports_pure (by
      rw [Block.relocate, relocateStatements_eq_map]
      rfl)

end Grammar

/-- The same result with the cursor elsewhere. -/
def Outcome.movedTo {α : Type} (d : Cursor) : Outcome α → Outcome α
  | .done a _ => .done a d
  | .failed e _ => .failed e d
  | .endless => .endless

/-- A parser that reads no further than to the token at which it ends: from the same index of a list
that agrees up to there it gives the same result, and ends at the same index. -/
def Parse.ReadsOneAhead {α : Type} (p : Parse α) : Prop :=
  ∀ c d stop : Cursor, (p c).cursor? = some stop → d.index = c.index →
    (∀ i ≤ stop.index, d.tokens[i]? = c.tokens[i]?) →
    ∃ stop' : Cursor, stop'.index = stop.index ∧ stop'.tokens = d.tokens ∧
      p d = (p c).movedTo stop'

section OneAhead
variable {α : Type} {c d stop : Cursor} {ts : List Token}

theorem Cursor.consumed_head? (c : Cursor) :
    c.consumed.head? = if c.index = 0 then none else c.tokens[c.index - 1]? := by
  obtain ⟨consumed, upcoming, finish, _, rfl⟩ := c
  cases consumed with
  | nil => rfl
  | cons t rest => simp [Cursor.index, Cursor.tokens]

/-- Agreement up to the end of a passage makes it a passage of the other cursor. -/
theorem Cursor.Passes.of_agree (h : c.Passes ts stop) (hindex : d.index = c.index)
    (hagree : ∀ i ≤ stop.index, d.tokens[i]? = c.tokens[i]?) :
    ∃ stop', d.Passes ts stop' ∧ stop'.current = stop.current := by
  induction ts generalizing c d with
  | nil =>
    obtain rfl : c = stop := h
    refine ⟨d, .refl d, ?_⟩
    have hcur := hagree c.index (Nat.le_refl _)
    rw [c.current_getElem?, ← hindex, d.current_getElem?] at hcur
    exact Option.some.inj hcur
  | cons t ts ih =>
    have hlt := h.index
    rw [List.length_cons] at hlt
    obtain ⟨rfl, hk, h⟩ := h
    have hcur := hagree c.index (by omega)
    rw [c.current_getElem?, ← hindex, d.current_getElem?] at hcur
    have hcur := Option.some.inj hcur
    have hnext : d.Passes [c.current] d.next := ⟨hcur, hk, rfl⟩
    obtain ⟨stop', hstop, he⟩ := ih h
      (by rw [hnext.index, (Passes.next hk).index, hindex])
      (by rwa [d.tokens_next, c.tokens_next])
    exact ⟨stop', hnext.append hstop, he⟩

theorem Parse.Transports.readsOneAhead {g : α → α} {p : Parse α} (h : Transports id g p p)
    (hg : ∀ a, g a = a) : p.ReadsOneAhead := by
  intro c d stop hc hindex hagree
  obtain ⟨ts, hts, hp⟩ := h c stop hc
  obtain ⟨stop', hstop, hcur⟩ := hts.of_agree hindex hagree
  refine ⟨stop', ?_, hstop.tokens, ?_⟩
  · rw [hstop.index, hts.index, hindex]
  · have hid : Token.relocate id = id := rfl
    have hlatest : d.consumed.head? = c.consumed.head? := by
      rw [d.consumed_head?, c.consumed_head?, hindex]
      split
      · rfl
      · exact hagree _ (by have := hts.index; omega)
    rw [hp d stop' ⟨hts, by rwa [hid, List.map_id], by rw [hlatest, hid, Option.map_id]; rfl, hcur⟩]
    cases hpc : p c with
    | done a _ => rw [Outcome.transport, hg]; rfl
    | failed e _ => rfl
    | endless => rfl

/-- A cursor has the tokens it was made from, perhaps with an end of input behind them. -/
theorem Cursor.start_tokens (tokens : List Token) (file : String) :
    (∃ more, (Cursor.start tokens file).tokens = tokens ++ more) ∧
      (tokens.getLast?.map (·.kind) = some .endOfInput →
        (Cursor.start tokens file).tokens = tokens) := by
  rw [Cursor.start]
  cases hl : tokens.getLast? with
  | none =>
    rw [List.getLast?_eq_none_iff] at hl
    subst hl
    exact ⟨⟨_, rfl⟩, by simp⟩
  | some t =>
    obtain ⟨before, rfl⟩ := List.getLast?_eq_some_iff.1 hl
    by_cases ht : t.kind = .endOfInput
    · have htok : EndMark.token ⟨t.text, t.span⟩ = t := by rw [EndMark.token, ← ht]
      simp [ht, Cursor.tokens, htok]
    · simp [ht, Cursor.tokens]

theorem Cursor.start_index (tokens : List Token) (file : String) :
    (Cursor.start tokens file).index = 0 := by
  rw [Cursor.start]
  split
  · split <;> rfl
  · rfl

end OneAhead

/-- Statements, expressions, blocks and types are read with one token of lookahead. So is a whole
program, accepted or not, and nothing behind the first end of input has an effect on it. -/
theorem reads_one_token_ahead :
    ReadsOneAhead Grammar.script.statement ∧
    (∀ power, ReadsOneAhead (Grammar.script.expr power)) ∧
    ReadsOneAhead Grammar.script.readers.block ∧
    (∀ power, ReadsOneAhead (Grammar.script.typeExpr power)) ∧
    (∀ (tokens tokens' : List Token) (file : String) (stop : Cursor),
      tokens.getLast?.map (·.kind) = some .endOfInput →
      tokens'.getLast?.map (·.kind) = some .endOfInput →
      (parse tokens file).cursor? = some stop →
      (∀ i ≤ stop.index, tokens'[i]? = tokens[i]?) →
      ∃ stop' : Cursor, stop'.index = stop.index ∧ stop'.tokens = tokens' ∧
        parse tokens' file = (parse tokens file).movedTo stop') ∧
    (∀ (before after : List Token) (t : Token) (file : String), t.kind = .endOfInput →
      ∃ stop' : Cursor, stop'.index ≤ before.length ∧
        parse (before ++ t :: after) file = (parse (before ++ [t]) file).movedTo stop') := by
  have hprogram (file : String) : (Grammar.script.program file).ReadsOneAhead :=
    (Grammar.transports_program file).readsOneAhead Block.relocate_id
  refine ⟨Grammar.script_transports.statement.readsOneAhead Statement.relocate_id,
    fun power => (Grammar.script_transports.expr power).readsOneAhead Expr.relocate_id,
    Grammar.script_transports.block.transports.readsOneAhead Block.relocate_id,
    fun power => (Grammar.script_transports.typeExpr power).readsOneAhead TypeExpr.relocate_id,
    ?_, ?_⟩
  · intro tokens tokens' file stop hlast hlast' hstop hagree
    have ht := (Cursor.start_tokens tokens file).2 hlast
    have ht' := (Cursor.start_tokens tokens' file).2 hlast'
    obtain ⟨stop', hindex, htokens, hp⟩ := hprogram file (Cursor.start tokens file)
      (Cursor.start tokens' file) stop hstop
      (by rw [Cursor.start_index, Cursor.start_index]) (by rwa [ht, ht'])
    exact ⟨stop', hindex, htokens.trans ht', hp⟩
  · intro before after t file hend
    obtain ⟨more, hmore⟩ := (Cursor.start_tokens (before ++ t :: after) file).1
    have ht := (Cursor.start_tokens (before ++ [t]) file).2 (by simp [hend])
    cases hstop : (parse (before ++ [t]) file).cursor? with
    | none =>
      cases hp : parse (before ++ [t]) file with
      | endless => exact absurd hp (parse_ends _ _)
      | done _ _ => rw [hp] at hstop; cases hstop
      | failed _ _ => rw [hp] at hstop; cases hstop
    | some stop =>
      obtain ⟨ts, hts, -⟩ := Grammar.transports_program file _ stop hstop
      have hlen : stop.index ≤ before.length := by
        have hcount := stop.length_tokens
        rw [hts.tokens, ht, List.length_append, List.length_singleton] at hcount
        omega
      obtain ⟨stop', hindex, -, hp⟩ := hprogram file (Cursor.start (before ++ [t]) file)
        (Cursor.start (before ++ t :: after) file) stop hstop
        (by rw [Cursor.start_index, Cursor.start_index]) (by
          intro i hi
          have happend : before ++ t :: after ++ more = (before ++ [t]) ++ (after ++ more) := by
            simp
          rw [ht, hmore, happend, List.getElem?_append_left (by simp; omega)])
      exact ⟨stop', hindex ▸ hlen, hp⟩

/-- A stray parenthesis at index 1 is refused in one way, whatever is written behind it. -/
theorem reads_one_token_ahead_stray :
    let x : Token := ⟨.name, "x", default⟩
    let stray : Token := ⟨.symbol, ")", default⟩
    let eof : Token := ⟨.endOfInput, "EOF", default⟩
    ∃ stop stop' : Cursor, stop.index = 1 ∧ stop'.index = 1 ∧
      (parse [x, stray, eof] "f").cursor? = some stop ∧
      parse [x, stray, x, eof] "f" = (parse [x, stray, eof] "f").movedTo stop' := by
  intro x stray eof
  let stop : Cursor := { consumed := [x], upcoming := [stray], finish := ⟨"EOF", default⟩ }
  have hstop : (parse [x, stray, eof] "f").cursor? = some stop := by decide +kernel
  have hagree : ∀ i ≤ stop.index, [x, stray, x, eof][i]? = [x, stray, eof][i]? := by decide
  obtain ⟨stop', hindex, -, hp⟩ :=
    reads_one_token_ahead.2.2.2.2.1 _ _ "f" stop rfl rfl hstop hagree
  exact ⟨stop, stop', rfl, hindex, hstop, hp⟩

end ScriptSyntax
