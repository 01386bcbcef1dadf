import ScriptSyntax.Proofs.ExprCompleteness

/-! The script grammar accepts the language: what the rules of the grammar derive is read, with the
tree of the derivation. -/
namespace ScriptSyntax
open Parse
variable {ws vs nl nl' : List Terminal} {w : Terminal}

/-! Statements and blocks. -/

/-- What may stand behind a statement: nothing that it could go on with. -/
def Statement.StopsAt (s : Statement) (w : Terminal) : Prop :=
  w ∉ [.symbol ":", .symbol "=", .symbol "[", .keyword .kwElse] ∧
    (s.endsOpen → w.power ≤ .default)

def StatementComplete (s : Statement) (ws : List Terminal) : Prop :=
  ∀ w, s.StopsAt w → Grammar.script.readers.statement.Accepts ws w fun s' => s'.bare = s.bare

def BlockComplete (b : Block) (ws : List Terminal) : Prop :=
  ∀ w, Grammar.script.readers.block.Accepts ws w fun b' => b'.bare = b.bare

theorem stopsAt_end {s : Statement} (h : w ∈ [.newLine, .endOfInput, .symbol "\x7d"]) :
    s.StopsAt w := by
  simp only [List.mem_cons, List.not_mem_nil, or_false] at h
  rcases h with rfl | rfl | rfl <;> exact ⟨by decide, fun _ => by decide +kernel⟩

/-- In a loop the next statement may follow at once. -/
theorem stopsAt_fit {s : Statement} (hw : w.beginsStatement) (hfit : longestFit s (w :: vs)) :
    s.StopsAt w := by
  constructor
  · intro hmem
    simp only [List.mem_cons, List.not_mem_nil, or_false] at hmem
    rcases hmem with rfl | rfl | rfl | rfl <;> exact absurd hw (by decide)
  · intro hopen
    obtain ⟨hparen, hminus⟩ := hfit hopen
    cases w with
    | symbol text =>
      have hmem : text ∈ ["-", "!", "(", "\x7b"] := of_decide_eq_true hw
      simp only [List.mem_cons, List.not_mem_nil, or_false] at hmem
      rcases hmem with rfl | rfl | rfl | rfl
      · exact absurd rfl hminus
      · decide +kernel
      · exact absurd rfl hparen
      · decide +kernel
    | _ =>
      rw [Grammar.power_of_not_symbol (by simp)]
      exact Nat.le_refl _

theorem statement_of_form (form : StatementForm) {R : Statement → Prop}
    (hform : Grammar.form? (ws.headD w) = some form)
    (h : (form.read Grammar.script.readers).Accepts ws w R) :
    Grammar.script.readers.statement.Accepts ws w R := by
  intro c d hc hws hw
  obtain ⟨s, hs, hR⟩ := h c d hc hws hw
  refine ⟨s, ?_, hR⟩
  change Grammar.script.statement c = _
  rw [Grammar.script_statement, Grammar.statementOver_eq, ← hws.headD, hw, hform]
  exact hs

theorem elseBlock_accepts {b : Block} (h : BlockComplete b ws) :
    Grammar.script.readers.elseBlock.Accepts (.keyword .kwElse :: ws) w fun body =>
      body.map Block.bare = some b.bare :=
  accepts_accept (fun _ => Token.isKeyword_eq _) (.map (h w) fun _ hb => congrArg some hb)

theorem elseBlock_accepts_none (hw : w ≠ .keyword .kwElse) :
    Grammar.script.readers.elseBlock.Accepts [] w fun body => body = none :=
  accepts_unaccepted (fun _ => Token.isKeyword_eq _) hw (.pure rfl)

/-- An expression of the loosest level, before what binds nothing. -/
theorem ExprComplete.accepts_default {e : Expr} (h : ExprComplete .expr e ws)
    (hw : w.power ≤ .default) :
    (Grammar.script.readers.expr .default).Accepts ws w fun e' => e'.bare = e.bare :=
  h.accepts (by decide) hw (BindingPower.le_trans hw (by decide))

theorem power_brace : (Terminal.symbol "\x7b").power ≤ .default := by decide +kernel

namespace StatementComplete
variable {e : Expr} {b : Block}

theorem nested (h : BlockComplete b ws) (hbegin : ∀ w, ws.headD w = .symbol "\x7b") :
    StatementComplete (.block b) ws := by
  intro w _
  refine statement_of_form .block (by rw [hbegin]; rfl) (.map (h w) fun b' hb => ?_)
  exact congrArg Statement.block hb

theorem conditional (he : ExprComplete .expr e ws) (hb : BlockComplete b vs)
    (hbegin : ∀ w, vs.headD w = .symbol "\x7b") (span : Span) :
    StatementComplete (.conditional e b none span) (.keyword .kwIf :: (ws ++ vs)) := by
  intro w hw
  have helse : w ≠ .keyword .kwElse := by
    rintro rfl
    exact hw.1 (by decide)
  refine statement_of_form .conditional rfl (.advance fun o _ => .bind
    (he.accepts_default ?_) fun e' he' => .last (hb w) fun b' hb' => .last
      (elseBlock_accepts_none helse) fun body hbody => .lastEnd fun p => .pure ?_)
  · rw [hbegin]
    exact power_brace
  · rw [hbody]
    exact congrArg₂ (Statement.conditional · · none _) he' hb'

theorem alternative {elseBody : Block} {us : List Terminal} (he : ExprComplete .expr e ws)
    (hb : BlockComplete b vs) (helse : BlockComplete elseBody us)
    (hbegin : ∀ w, vs.headD w = .symbol "\x7b") (span : Span) :
    StatementComplete (.conditional e b (some elseBody) span)
      (.keyword .kwIf :: (ws ++ (vs ++ .keyword .kwElse :: us))) := by
  intro w _
  refine statement_of_form .conditional rfl (.advance fun o _ => .bind
    (he.accepts_default ?_) fun e' he' => .bind (hb _) fun b' hb' => .last
      (elseBlock_accepts helse) fun body hbody => .lastEnd fun p => .pure ?_)
  · cases vs with
    | nil => cases hbegin .newLine
    | cons v vs =>
      rw [List.cons_append, List.headD_cons, show v = _ from hbegin .newLine]
      exact power_brace
  · obtain ⟨b'', rfl, hb''⟩ := Option.map_eq_some_iff.1 hbody
    change Statement.conditional e'.bare b'.bare (some b''.bare) _ = _
    rw [he', hb', hb'']
    rfl

theorem function {signature : Signature} (hsig : SignatureText signature ws)
    (hb : BlockComplete b vs) (hbegin : ∀ w, vs.headD w = .symbol "\x7b") (x : String)
    (span : Span) :
    StatementComplete (.function x signature b span)
      (.keyword .kwFunction :: .name x :: (ws ++ vs)) := by
  intro w _
  refine statement_of_form .function rfl (.advance fun o _ => .expectName (.bind
    (signature_accepts hsig ?_ ?_) fun s hs => .last (hb w) fun b' hb' => .lastEnd fun p =>
      .pure ?_))
  · rw [hbegin]
    simp
  · rw [hbegin]
    simp
  · exact congrArg₂ (Statement.function x · · _) hs hb'

theorem result (he : ExprComplete .expr e ws) (span : Span) :
    StatementComplete (.result e span) (.keyword .kwReturn :: ws) := by
  intro w hw
  refine statement_of_form .result rfl (.advance fun o _ => .last
    (he.accepts_default (hw.2 rfl)) fun e' he' => .lastEnd fun p => .pure ?_)
  exact congrArg (Statement.result · _) he'

theorem classDefinition (hb : BlockComplete b ws) (hbegin : ∀ w, ws.headD w = .symbol "\x7b")
    (x : String) (superclass : Option String) (span : Span) :
    StatementComplete (.classDefinition x superclass b span)
      (.keyword .kwClass :: .name x :: (superclassText superclass ++ ws)) := by
  intro w _
  have hsuper : Readers.superclass.Accepts (superclassText superclass) (ws.headD w) fun y =>
      y = superclass := by
    cases superclass with
    | none =>
      refine accepts_unaccepted (fun _ => Token.isSymbol_eq ":") ?_ (.pure rfl)
      change ws.headD w ≠ _
      rw [hbegin]
      simp
    | some y => exact accepts_accept (fun _ => Token.isSymbol_eq _) (.expectName (.pure rfl))
  refine statement_of_form .classDefinition rfl (.advance fun o _ => .expectName (.bind hsuper
    fun y hy => .last (hb w) fun b' hb' => .lastEnd fun p => .pure ?_))
  rw [hy]
  exact congrArg (Statement.classDefinition x superclass · _) hb'

theorem keyword_form (changes : Bool) :
    Grammar.form? (.keyword (if changes then .kwVar else .kwLet)) = some .declaration := by
  cases changes <;> rfl

theorem isKeyword_var {t : Token} {changes : Bool}
    (ht : t.terminal = .keyword (if changes then .kwVar else .kwLet)) :
    t.isKeyword .kwVar = changes := by
  rw [Token.isKeyword_eq, ht]
  cases changes <;> rfl

theorem unassigned {type : TypeExpr} (ht : Annotation ":" type ws) (changes : Bool) (x : String)
    (valueSpan span : Span) :
    StatementComplete (.declaration changes x type (.unassigned valueSpan) span)
      (.keyword (if changes then .kwVar else .kwLet) :: .name x :: ws) := by
  intro w hw
  simp only [Statement.StopsAt, List.mem_cons, List.not_mem_nil, or_false, not_or] at hw
  obtain ⟨⟨hcolon, hequals, hbracket, -⟩, -⟩ := hw
  have hinit : (Grammar.script.readers.initializer x).Accepts [] w fun e =>
      ∃ span, e = .unassigned span := by
    refine .atSymbol ?_
    rw [decide_eq_false (by exact hequals)]
    exact .lastEnd fun p => .pure ⟨_, rfl⟩
  refine statement_of_form .declaration (keyword_form changes) (.advance fun o ho => .expectName
    (.last (typeAfter_accepts ht hcolon hbracket) fun t ht' => .last hinit fun e he =>
      .lastEnd fun p => .pure ?_))
  obtain ⟨s, rfl⟩ := he
  rw [isKeyword_var ho]
  exact congrArg (Statement.declaration changes x · _ _) ht'

theorem declaration {type : TypeExpr} (ht : Annotation ":" type ws)
    (he : ExprComplete .expr e vs) (hnl : EmptyLines nl)
    (hne : ∀ us w, (vs ++ us).headD w ≠ .newLine) (changes : Bool) (x : String) (span : Span)
    (hopen : (Statement.declaration changes x type (e.named x) span).endsOpen) :
    StatementComplete (.declaration changes x type (e.named x) span)
      (.keyword (if changes then .kwVar else .kwLet) :: .name x ::
        (ws ++ .symbol "=" :: (nl ++ vs))) := by
  intro w hw
  have hinit : (Grammar.script.readers.initializer x).Accepts (.symbol "=" :: (nl ++ vs)) w
      fun e' => e'.bare = (e.named x).bare := by
    refine .atSymbol ?_
    rw [List.headD_cons, decide_eq_true rfl]
    refine .advanceLine hnl ?_ fun _ _ => .map (he.accepts_default (hw.2 hopen)) fun e' he' =>
      Expr.bare_named x he'
    have hhead := hne [] w
    rwa [List.append_nil] at hhead
  refine statement_of_form .declaration (keyword_form changes) (.advance fun o ho => .expectName
    (.bind (typeAfter_accepts ht (by simp) (by simp)) fun t ht' => .last hinit fun e' he' =>
      .lastEnd fun p => .pure ?_))
  rw [isKeyword_var ho]
  exact congrArg₂ (Statement.declaration changes x · · _) ht' he'

theorem expression (he : ExprComplete .expr e ws) (hd : Derives longestFit (.expr .expr e) ws)
    (hne : ws.head? ≠ some (.keyword .kwFunction)) (span : Span) :
    StatementComplete (.expression e span) ws := by
  intro w hw c d hc hws hd'
  obtain ⟨e', hexpr, hbare⟩ := he.accepts_default (hw.2 rfl) c d hc hws hd'
  refine ⟨.expression e' e'.span, ?_, congrArg (Statement.expression · _) hbare⟩
  have hform : Grammar.form? c.current.terminal = none := by
    obtain ⟨v, vs, rfl, hv⟩ := hd.begins
    rw [(Cursor.spells_cons.1 hws).1]
    cases v with
    | symbol text =>
      have hmem : text ∈ ["-", "!", "("] := of_decide_eq_true hv
      refine if_neg fun htext => ?_
      rw [htext] at hmem
      exact absurd hmem (by decide)
    | keyword word =>
      have hword : word = .kwFunction := of_decide_eq_true hv
      exact absurd (by rw [hword]; rfl) hne
    | _ => rfl
  change Grammar.script.statement c = _
  rw [Grammar.script_statement, Grammar.statementOver_eq, hform]
  exact bind_done _ hexpr

/-- Statements of a loop are taken one by one, up to the brace that closes it. -/
theorem loop_statements {items : List (Statement × List Terminal)}
    (h : Loosely longestFit items ws)
    (hitems : ∀ i ∈ items, Derives longestFit (.statement i.1) i.2 ∧ StatementComplete i.1 i.2) :
    (collect Grammar.script.readers.loopRound).Accepts ws (.symbol "\x7d") fun ss =>
      ss.map Statement.bare = (items.map (·.1)).map Statement.bare := by
  induction h with
  | @nil nl hnl =>
    rw [← List.append_nil nl]
    exact .collect_done (.skip hnl (by simp) fun _ => .atSymbol (.pure ⟨[], rfl, rfl⟩))
  | @cons us nl vs s items hnl hfit hvs ih =>
    obtain ⟨⟨hs, hcomplete⟩, hrest⟩ := List.forall_mem_cons.1 hitems
    obtain ⟨v, us, rfl, hv⟩ := hs.begins
    have hbrace : v ≠ .symbol "\x7d" := by
      rintro rfl
      exact absurd hv (by simp [Phrase.MayBegin, Terminal.beginsStatement])
    have hend : v ≠ .endOfInput := by
      rintro rfl
      cases hv
    have hline : v ≠ .newLine := by
      rintro rfl
      cases hv
    have hstops : s.StopsAt (vs.headD (.symbol "\x7d")) := by
      rcases hvs.begins (fun i hi => (hrest i hi).1) with rfl | ⟨u, us, rfl, rfl | hu⟩
      · exact stopsAt_end (by simp)
      · exact stopsAt_end (by simp)
      · exact stopsAt_fit hu hfit
    rw [← List.append_assoc]
    refine .collect_yield (R := fun ss => ss.map Statement.bare = [s.bare]) (by simp)
      (.skip hnl hline fun _ => .atSymbol ?_)
      fun ss hss => (ih hrest).mono fun more hmore => by rw [List.map_append, hss, hmore]; rfl
    rw [List.headD_cons, decide_eq_false hbrace]
    refine .atToken ?_
    rw [List.headD_cons, decide_eq_true hend]
    exact .map (hcomplete _ hstops) fun s' hs' => ⟨[s'], rfl, congrArg (fun t => [t]) hs'⟩

theorem loopVariables_accepts (names : List String) (hw : w ≠ .symbol ",")
    (has : w ≠ .keyword .kwAs) :
    Readers.loopVariables.Accepts (loopNames names) w fun xs => xs = names := by
  cases names with
  | nil => exact accepts_unaccepted (fun _ => Token.isKeyword_eq _) has (.pure rfl)
  | cons x xs =>
    refine accepts_accept (fun _ => Token.isKeyword_eq _) ?_
    induction xs generalizing x with
    | nil =>
      exact .collect_done (.expectName (accepts_unaccepted (fun _ => Token.isSymbol_eq _) hw
        (.pure ⟨[x], rfl, rfl⟩)))
    | cons y ys ih =>
      have hassoc : Terminal.name x :: (y :: ys).flatMap (fun y => [.symbol ",", .name y]) =
          [.name x, .symbol ","] ++ .name y :: ys.flatMap fun y => [.symbol ",", .name y] := rfl
      rw [hassoc]
      refine .collect_yield (R := fun xs => xs = [x]) (by simp) (.expectName
        (accepts_accept (fun _ => Token.isSymbol_eq _) (.pure ⟨[x], rfl, rfl⟩)))
        fun _ hx => (ih y).mono fun more hmore => ?_
      rw [hx, hmore]
      rfl

theorem loop {items : List (Statement × List Terminal)} (he : ExprComplete .expr e ws)
    (hnl : EmptyLines nl)
    (hitems : ∀ i ∈ items, Derives longestFit (.statement i.1) i.2 ∧ StatementComplete i.1 i.2)
    (hvs : Loosely longestFit items vs) (names : List String) (bodySpan span : Span) :
    StatementComplete (.loop e names ⟨items.map (·.1), bodySpan⟩ span)
      (.keyword .kwFor :: (ws ++ .symbol "\x7b" :: (nl ++ (loopNames names ++
        (vs ++ [.symbol "\x7d"]))))) := by
  intro w _
  have hderives : ∀ i ∈ items, Derives longestFit (.statement i.1) i.2 :=
    fun i hi => (hitems i hi).1
  -- Without names the lines before the first statement are skipped with those after the brace.
  obtain ⟨nl', us, hsplit, hnl', hus, hbegin⟩ : ∃ nl' us,
      nl ++ (loopNames names ++ (vs ++ [.symbol "\x7d"])) =
        nl' ++ (loopNames names ++ (us ++ [.symbol "\x7d"])) ∧ EmptyLines nl' ∧
      Loosely longestFit items us ∧
      (loopNames names ++ (us ++ [Terminal.symbol "\x7d"])).headD w ≠ .newLine := by
    cases names with
    | nil =>
      obtain ⟨nl', us, rfl, hnl', hus, hbegin⟩ := hvs.split_lines hderives
      refine ⟨nl ++ nl', us, by simp [loopNames], hnl.append hnl', hus, ?_⟩
      rcases hbegin with rfl | ⟨v, us, rfl, hv⟩
      · simp [loopNames]
      · rintro rfl
        cases hv
    | cons x xs => exact ⟨nl, vs, rfl, hnl, hvs, by simp [loopNames]⟩
  have hnext : ∀ v ∈ [Terminal.symbol ",", .keyword .kwAs],
      (us ++ [Terminal.symbol "\x7d"]).headD w ≠ v := by
    intro v hv
    simp only [List.mem_cons, List.not_mem_nil, or_false] at hv
    rcases hus.begins hderives with rfl | ⟨u, us, rfl, rfl | hu⟩
    · rcases hv with rfl | rfl <;> simp
    · rcases hv with rfl | rfl <;> simp
    · rintro rfl
      rcases hv with rfl | rfl <;> cases hu
  rw [hsplit]
  refine statement_of_form .loop rfl (.advance fun o _ => .bind (he.accepts_default power_brace)
    fun e' he' => .expectSymbol fun brace => .skip hnl' hbegin fun _ => .bind
      (loopVariables_accepts names (hnext _ (by simp)) (hnext _ (by simp))) fun xs hxs => .bind
        (loop_statements hus hitems) fun ss hss => .expectSymbol fun _ => .lastEnd fun p =>
          .pure ?_)
  rw [hxs]
  exact congrArg₂ (Statement.loop · names · _) he' (Block.bare_eq hss _ _)

end StatementComplete

/-! Blocks. -/

/-- What comes after a statement of a block. -/
theorem blockRound_statement {R : ForInStep (List Statement) → Prop}
    (hbegin : (ws.headD w).beginsStatement)
    (h : (Grammar.script.readers.statement >>= fun s => acceptKind .newLine >>= fun b =>
      if b = true then pure (.yield [s])
      else Parse.atSymbol "\x7d" >>= fun b =>
        if b = true then pure (.yield [s])
        else complain .expectedSeparatorInBlock).Accepts ws w R) :
    Grammar.script.readers.blockRound.Accepts ws w R := by
  refine .current fun t _ ht => ?_
  rw [← ht] at hbegin
  have hend : t.kind ≠ .endOfInput := fun hk => by
    rw [Token.terminal_endOfInput.2 hk] at hbegin
    cases hbegin
  have hline : t.kind ≠ .newLine := fun hk => by
    rw [Token.terminal_newLine.2 hk] at hbegin
    cases hbegin
  have hbrace : ¬ t.isSymbol "\x7d" = true := fun hs => by
    rw [Token.isSymbol_eq, decide_eq_true_eq] at hs
    rw [hs] at hbegin
    exact absurd hbegin (by decide)
  rw [if_neg hend, if_neg hbrace, if_neg hline]
  exact h

theorem blockRound_close : Grammar.script.readers.blockRound.Accepts [.symbol "\x7d"] w
    fun step => ∃ ss, step = .done ss ∧ ss = [] := by
  refine .current fun t _ ht => ?_
  have hk := (Token.terminal_symbol.1 ht).1
  have hbrace : t.isSymbol "\x7d" = true := by rw [Token.isSymbol_eq, ht]; rfl
  rw [if_neg (by rw [hk]; decide), if_pos hbrace]
  exact .advance fun _ _ => .pure ⟨[], rfl, rfl⟩

theorem blockRound_line : Grammar.script.readers.blockRound.Accepts [.newLine] w
    fun step => ∃ ss, step = .yield ss ∧ ss = [] := by
  refine .current fun t _ ht => ?_
  have hk := Token.terminal_newLine.1 ht
  have hbrace : ¬ t.isSymbol "\x7d" = true := by
    rw [Token.isSymbol_eq, ht]
    simp
  rw [if_neg (by rw [hk]; decide), if_neg hbrace, if_pos hk]
  exact .advance fun _ _ => .pure ⟨[], rfl, rfl⟩

/-- Statements with what spells them. -/
def StatementText (ws : List Terminal) (s : Statement) : Prop :=
  Derives longestFit (.statement s) ws ∧ StatementComplete s ws

theorem StatementText.begins {s : Statement} (h : StatementText ws s) (us : List Terminal) :
    ((ws ++ us).headD w).beginsStatement := by
  obtain ⟨v, vs, rfl, hv⟩ := h.1.begins
  exact hv

theorem block_statements {ss : List Statement} (h : Items StatementText OnLines ws ss)
    (w : Terminal) : (collect Grammar.script.readers.blockRound).Accepts
      (ws ++ [.symbol "\x7d"]) w fun ss' => ss'.map Statement.bare = ss.map Statement.bare := by
  have hclose : (collect Grammar.script.readers.blockRound).Accepts [.symbol "\x7d"] w fun ss =>
      ss = [] := .collect_done blockRound_close
  refine Items.lines_induction ?_ ?_ ?_ ?_ h
  · exact hclose.mono fun ss hss => by rw [hss]
  · intro ws ss ih
    change Accepts _ ([.newLine] ++ (ws ++ [.symbol "\x7d"])) _ _
    refine .collect_yield (by simp) blockRound_line fun items hitems =>
      ih.mono fun more hmore => ?_
    rw [hitems]
    exact hmore
  · intro us s hs
    refine .collect_yield (R := fun ss => ss.map Statement.bare = [s.bare]) ?_
      (blockRound_statement (by simpa using hs.begins []) ?_)
      fun ss hss => hclose.mono fun more hmore => by rw [List.map_append, hss, hmore]; rfl
    · rintro rfl
      exact absurd (hs.begins (w := .newLine) []) (by decide)
    · refine .last (hs.2 _ (stopsAt_end (by simp))) fun s' hs' => accepts_unaccepted
        isNewLine_eq (by simp) (.atSymbol (.pure ⟨[s'], rfl, congrArg (fun t => [t]) hs'⟩))
  · intro us s ws ss hs ih
    have hassoc : us ++ .newLine :: ws ++ [.symbol "\x7d"] =
        (us ++ [.newLine]) ++ (ws ++ [.symbol "\x7d"]) := by simp
    rw [hassoc]
    refine .collect_yield (R := fun ss => ss.map Statement.bare = [s.bare]) (by simp)
      (blockRound_statement (hs.begins _) (.bind (hs.2 _ (stopsAt_end (by simp))) fun s' hs' =>
        accepts_accept isNewLine_eq (.pure ⟨[s'], rfl, congrArg (fun t => [t]) hs'⟩)))
      fun ss hss => ih.mono fun more hmore => by rw [List.map_append, hss, hmore]; rfl

theorem BlockComplete.block {ss : List Statement} (h : Items StatementText OnLines ws ss)
    (span : Span) : BlockComplete ⟨ss, span⟩ (.symbol "\x7b" :: (ws ++ [.symbol "\x7d"])) :=
  fun w => .expectSymbol fun _ => .last (block_statements h w) fun _ hss => .lastEnd fun _ =>
    .pure (Block.bare_eq hss _ _)

def Phrase.Complete : Phrase → List Terminal → Prop
  | expr tier e, ws => ExprComplete tier e ws
  | block b, ws => BlockComplete b ws
  | statement s, ws => StatementComplete s ws

theorem Derives.headD_block {b : Block} (h : Derives longestFit (.block b) ws) (w : Terminal) :
    ws.headD w = .symbol "\x7b" := by
  obtain ⟨v, vs, rfl, hv⟩ := h.begins
  exact hv

/-- Whatever the rules derive is read completely, if its numbers have values. -/
theorem Derives.complete {p : Phrase} (h : Derives longestFit p ws)
    (hfin : ∀ w ∈ ws, w.Finite) : p.Complete ws := by
  induction h with
  | number text span => exact .number (hfin _ (by simp)) span
  | string value span => exact .string value span
  | name x span => exact .name x span
  | grouping hnl he hnl' ih =>
    exact .grouping (ih fun w hw => hfin w (by simp [hw])) hnl hnl' he.headD_ne
  | closure span hsig hb ih =>
    exact .closure span hsig (ih fun w hw => hfin w (by simp [hw])) hb.headD_block
  | call span _ hitems hvs ih iha =>
    refine .call (ih fun w hw => hfin w (by simp [hw])) span (fun i hi => ?_) hvs
    have hsub := (hvs.isInfix (List.mem_map_of_mem (f := (·.2)) hi)).subset
    exact ⟨hitems i hi, iha i hi fun w hw => hfin w (by simp [hsub hw])⟩
  | member x span _ ih => exact .member (ih fun w hw => hfin w (by simp [hw])) x span
  | prefixed span hop _ ih => exact .prefixed (ih fun w hw => hfin w (by simp [hw])) span hop
  | binary span hop hn _ hnl hr ihl ihr =>
    exact .binary (ihl fun w hw => hfin w (by simp [hw])) (ihr fun w hw => hfin w (by simp [hw]))
      span hop hn hnl hr.headD_ne
  | assignment span hop _ hnl hv iht ihv =>
    exact .assignment (iht fun w hw => hfin w (by simp [hw]))
      (ihv fun w hw => hfin w (by simp [hw])) span hop hnl hv.headD_ne
  | tighter hn _ ih => exact .of_tighter (ih hfin) hn
  | block span hitems hws ih =>
    refine .block ⟨_, rfl, fun i hi => ⟨hitems i hi, ih i hi fun w hw => ?_⟩, hws⟩ span
    exact hfin w (by simp [(hws.isInfix (List.mem_map_of_mem (f := (·.2)) hi)).subset hw])
  | nested hb ih => exact .nested (ih hfin) hb.headD_block
  | conditional span _ hb ihc ihb =>
    exact .conditional (ihc fun w hw => hfin w (by simp [hw]))
      (ihb fun w hw => hfin w (by simp [hw])) hb.headD_block span
  | alternative span _ hb _ ihc ihb ihe =>
    exact .alternative (ihc fun w hw => hfin w (by simp [hw]))
      (ihb fun w hw => hfin w (by simp [hw])) (ihe fun w hw => hfin w (by simp [hw]))
      hb.headD_block span
  | function x span hsig hb ih =>
    exact .function hsig (ih fun w hw => hfin w (by simp [hw])) hb.headD_block x span
  | result span _ ih => exact .result (ih fun w hw => hfin w (by simp [hw])) span
  | loop names bodySpan span _ hnl hitems hvs ihe ihs =>
    refine .loop (ihe fun w hw => hfin w (by simp [hw])) hnl (fun i hi => ?_) hvs names bodySpan
      span
    exact ⟨hitems i hi, ihs i hi fun w hw => hfin w (by simp [(hvs.isInfix hi).subset hw])⟩
  | classDefinition x superclass span hb ih =>
    exact .classDefinition (ih fun w hw => hfin w (by simp [hw])) hb.headD_block x superclass span
  | unassigned changes x valueSpan span ht => exact .unassigned ht changes x valueSpan span
  | declaration changes x span ht hnl he ih =>
    exact .declaration ht (ih fun w hw => hfin w (by simp [hw])) hnl he.headD_ne changes x span
      (endsOpen_declaration he changes x _ span)
  | expression span he hne ih => exact .expression (ih hfin) he hne span

/-! Programs. -/

/-- What comes after a statement of a program. -/
theorem programRound_statement {s : Statement} {R : ForInStep (List Statement) → Prop}
    (hs : StatementText ws s) (hw : vs.headD w ∈ [.newLine, .endOfInput])
    (h : ∀ s', s'.bare = s.bare → (Parse.atToken >>= fun b =>
      if b = true then acceptKind .newLine >>= fun b =>
        if b = true then pure (.yield [s']) else complain .expectedSeparator
      else pure (.yield [s'])).Accepts vs w R) :
    Grammar.script.programRound.Accepts (ws ++ vs) w R := by
  have hbegin := hs.begins (w := w) vs
  have hline : (ws ++ vs).headD w ≠ .newLine := fun hl => by
    rw [hl] at hbegin
    cases hbegin
  have hend : (ws ++ vs).headD w ≠ .endOfInput := fun he => by
    rw [he] at hbegin
    cases hbegin
  change Accepts _ ([] ++ (ws ++ vs)) _ _
  refine .skip emptyLines_nil hline fun _ => .atToken ?_
  rw [decide_eq_true hend]
  refine .bind (hs.2 _ (stopsAt_end ?_)) h
  simp only [List.mem_cons, List.not_mem_nil, or_false] at hw ⊢
  exact hw.imp_right .inl

theorem program_statements {ss : List Statement} (h : Items StatementText OnLines ws ss) :
    (collect Grammar.script.programRound).Accepts ws .endOfInput fun ss' =>
      ss'.map Statement.bare = ss.map Statement.bare := by
  have hend : (collect Grammar.script.programRound).Accepts [] .endOfInput fun ss => ss = [] :=
    .collect_done (.skip emptyLines_nil (by simp) fun _ => .atToken (.pure ⟨[], rfl, rfl⟩))
  refine Items.lines_induction ?_ ?_ ?_ ?_ h
  · exact hend.mono fun ss hss => by rw [hss]
  · intro ws ss ih c d hc hws hd
    obtain ⟨hcur, -, hnext⟩ := Cursor.spells_cons.1 hws
    obtain ⟨ss', hss', hbare⟩ := ih c.next d hc.next hnext hd
    have hline := Grammar.collect_programRound_line (Token.terminal_newLine.1 hcur)
    exact ⟨ss', hline.trans hss', hbare⟩
  · intro us s hs
    have hround : Grammar.script.programRound.Accepts (us ++ []) .endOfInput fun step =>
        ∃ items, step = .yield items ∧ items.map Statement.bare = [s.bare] :=
      programRound_statement hs (by simp) fun s' hs' =>
        .atToken (.pure ⟨[s'], rfl, congrArg (fun t => [t]) hs'⟩)
    have hne : us ++ [] ≠ [] := by
      rintro hnil
      obtain ⟨v, vs, rfl, -⟩ := hs.1.begins
      cases hnil
    rw [← List.append_nil us, ← List.append_nil (us ++ [])]
    exact .collect_yield hne hround fun ss hss => hend.mono fun more hmore => by
      rw [List.map_append, hss, hmore]
      rfl
  · intro us s ws ss hs ih
    have hround : Grammar.script.programRound.Accepts (us ++ [.newLine]) (ws.headD .endOfInput)
        fun step => ∃ items, step = .yield items ∧ items.map Statement.bare = [s.bare] :=
      programRound_statement hs (by simp) fun s' hs' => .atToken
        (accepts_accept isNewLine_eq (.pure ⟨[s'], rfl, congrArg (fun t => [t]) hs'⟩))
    have hassoc : us ++ .newLine :: ws = (us ++ [.newLine]) ++ ws := by simp
    rw [hassoc]
    exact .collect_yield (by simp) hround fun ss hss => ih.mono fun more hmore => by
      rw [List.map_append, hss, hmore]
      rfl

theorem program_accepts {ss : List Statement} (file : String)
    (h : Items (fun us s => Derives longestFit (.statement s) us) OnLines ws ss)
    (hfin : ∀ w ∈ ws, w.Finite) :
    (Grammar.script.program file).Accepts ws .endOfInput fun b =>
      b.statements.map Statement.bare = ss.map Statement.bare := by
  obtain ⟨items, rfl, hitems, hws⟩ := h
  have htexts : Items StatementText OnLines ws (items.map (·.1)) := by
    refine ⟨items, rfl, fun i hi => ⟨hitems i hi, (hitems i hi).complete fun w hw => ?_⟩, hws⟩
    exact hfin w ((hws.isInfix (List.mem_map_of_mem (f := (·.2)) hi)).subset hw)
  exact .last (program_statements htexts) fun ss hss => .lastEnd fun _ => .pure hss

end ScriptSyntax
