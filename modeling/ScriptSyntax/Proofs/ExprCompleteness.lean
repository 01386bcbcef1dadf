import ScriptSyntax.Proofs.Accepting
import ScriptSyntax.Proofs.Relocation

/-! Derived types and expressions are read, with the tree of the derivation, by every parser of
expressions that is loose enough for them. -/
namespace ScriptSyntax
open Parse
variable {ws vs nl nl' : List Terminal} {w : Terminal}

/-! Tails and starts as the tables have them. -/
namespace Grammar
variable {r : Readers} {c d : Cursor} {p next : BindingPower} {e : Expr}

theorem TailOf.tables {text : String} {tail : ExprTail} (h : TailOf text next tail) :
    script.powers.get? text = some next ∧ script.tails.get? text = some tail := by
  cases h with
  | assignment hop =>
    simp only [List.mem_cons, List.not_mem_nil, or_false] at hop
    rcases hop with rfl | rfl | rfl <;> decide +kernel
  | binary tier hop =>
    cases tier with
    | logic | rel | add | mul =>
      simp only [Tier.operators, List.mem_cons, List.not_mem_nil, or_false] at hop
      rcases hop with rfl | rfl | rfl | rfl | rfl | rfl <;> decide +kernel
    | _ => cases hop
  | call htext => subst htext; decide +kernel
  | member htext => subst htext; decide +kernel

theorem TailOf.power_eq {text : String} {tail : ExprTail} (h : TailOf text next tail) :
    (Terminal.symbol text).power = next := by
  rw [Terminal.power, Terminal.key, h.tables.1]
  rfl

/-- A tail that binds tightly enough is read. -/
theorem exprRound_tail {text : String} {tail : ExprTail} (hc : c.Genuine)
    (hw : c.current.terminal = .symbol text) (htail : TailOf text next tail) (hp : p < next) :
    script.exprRound r p e c = (tail.read r e next >>= fun e' => pure (.yield e')) c := by
  have hkey : c.current.key = text := by rw [Token.key_eq hc.current, hw]; rfl
  rw [exprRound, current_bind]
  rw [hkey, htail.tables.1, htail.tables.2]
  exact congrFun (if_pos hp) c

/-- Before what does not bind tightly enough an expression ends. -/
theorem exprRound_stop (hc : c.Genuine) (hp : c.current.terminal.power ≤ p) :
    script.exprRound r p e c = .done (.done e) c := by
  refine exprRound_of_not_lt ?_
  rw [power_key hc.current]
  exact BindingPower.not_lt.2 hp

theorem expr_of_start {start : ExprStart} (hc : c.Genuine)
    (hstart : script.starts.get? c.current.terminal.key = some start)
    (hread : start.read script.readers c = .done e d) :
    script.expr p c = iterate (script.exprRound script.readers p) e d := by
  rw [script_expr, exprOver, current_bind, Token.key_eq hc.current, hstart]
  exact bind_done _ hread

end Grammar

/-- The words of an expression are consumed on the way to it, and what is left to do is to look for
more tails. -/
def ExprComplete (tier : Tier) (e : Expr) (ws : List Terminal) : Prop :=
  ∀ power < tier.power, ∀ c d : Cursor, c.Genuine → c.Spells ws d →
    d.current.terminal.power ≤ tier.bound →
      ∃ e', e'.bare = e.bare ∧ Grammar.script.expr power c =
        iterate (Grammar.script.exprRound Grammar.script.readers power) e' d

theorem ExprComplete.accepts {tier : Tier} {e : Expr} (h : ExprComplete tier e ws)
    {power : BindingPower} (hp : power < tier.power) (hw : w.power ≤ power)
    (hb : w.power ≤ tier.bound) :
    (Grammar.script.readers.expr power).Accepts ws w fun e' => e'.bare = e.bare := by
  intro c d hc hws hd
  obtain ⟨e', he, hexpr⟩ := h power hp c d hc hws (hd ▸ hb)
  exact ⟨e', hexpr.trans (iterate_done (Grammar.exprRound_stop (hws.genuine hc) (hd ▸ hw))), he⟩

/-- An expression that is a start. -/
theorem ExprComplete.of_start {tier : Tier} {e : Expr} (start : ExprStart) {v : Terminal}
    (hstart : Grammar.script.starts.get? v.key = some start)
    (h : ∀ w : Terminal, w.power ≤ tier.bound →
      (start.read Grammar.script.readers).Accepts (v :: ws) w fun e' => e'.bare = e.bare) :
    ExprComplete tier e (v :: ws) := by
  intro power _ c d hc hws hd
  obtain ⟨e', hread, he⟩ := h _ hd c d hc hws rfl
  refine ⟨e', he, Grammar.expr_of_start hc ?_ hread⟩
  rwa [(Cursor.spells_cons.1 hws).1]

/-- An expression that is another one and a tail. -/
theorem ExprComplete.of_tail {tier left : Tier} {e e' : Expr} {text : String}
    {next : BindingPower} {tail : ExprTail} (h : ExprComplete left e ws)
    (htail : Grammar.TailOf text next tail) (hbound : next ≤ left.bound)
    (hpower : ∀ power < tier.power, power < next ∧ power < left.power)
    (hread : ∀ (w : Terminal) (l : Expr), w.power ≤ tier.bound → l.bare = e.bare →
      (tail.read Grammar.script.readers l next).Accepts (.symbol text :: vs) w fun a =>
        a.bare = e'.bare) :
    ExprComplete tier e' (ws ++ .symbol text :: vs) := by
  intro power hp c f hc hws hf
  obtain ⟨hnext, hleft⟩ := hpower power hp
  obtain ⟨d, hd, hdf⟩ := Cursor.spells_append.1 hws
  have hgen := hd.genuine hc
  have hcur := (Cursor.spells_cons.1 hdf).1
  obtain ⟨l, hl, hexpr⟩ := h power hleft c d hc hd (by rwa [hcur, htail.power_eq])
  obtain ⟨a, ha, hbare⟩ := hread _ l hf hl d f hgen hdf rfl
  have hround : Grammar.script.exprRound Grammar.script.readers power l d = .done (.yield a) f := by
    rw [Grammar.exprRound_tail hgen hcur htail hnext]
    exact bind_done _ ha
  have hlt : f.remaining < d.remaining := by
    have hremaining := hdf.remaining
    rw [List.length_cons] at hremaining
    omega
  exact ⟨a, hbare, by rw [hexpr, iterate_yield hround hlt]⟩

/-! Types and signatures. -/

theorem type_complete {t : TypeExpr} (h : TypeText t ws) {c d : Cursor} (hc : c.Genuine)
    (hws : c.Spells ws d) : ∃ t', t'.bare = t.bare ∧ Grammar.script.typeExpr .default c =
      iterate (Grammar.script.typeRound .default) t' d := by
  induction h generalizing d with
  | named x p =>
    obtain ⟨hcur, -, hnext⟩ := Cursor.spells_cons.1 hws
    obtain ⟨hk, hx⟩ := Token.terminal_name.1 hcur
    refine ⟨.named x c.current.span.start, rfl, ?_⟩
    have hstart : Grammar.script.typeStarts.get? c.current.key = some .name := by
      rw [Token.key_eq hc.current, hcur, Terminal.key]
      decide +kernel
    have hread : TypeStart.name.read c = .done (.named x c.current.span.start) c.next := by
      rw [TypeStart.read, namedType, expectKind, expect_bind, decide_eq_true hk, if_pos rfl, hx]
      rfl
    rw [Grammar.typeExpr, current_bind, hstart, ← Cursor.spells_nil.1 hnext]
    exact bind_done _ hread
  | @array element ws _ ih =>
    obtain ⟨c₁, hws₁, hbrackets⟩ := Cursor.spells_append.1 hws
    obtain ⟨hopen, -, hclose⟩ := Cursor.spells_cons.1 hbrackets
    obtain ⟨hclose, -, hd⟩ := Cursor.spells_cons.1 hclose
    obtain ⟨t', ht', htype⟩ := ih hws₁
    refine ⟨.array t', congrArg TypeExpr.array ht', ?_⟩
    have hgen := (hws₁.genuine hc).current
    have hkey : c₁.current.key = "[" := by rw [Token.key_eq hgen, hopen]; rfl
    have htables : Grammar.script.typePowers.get? "[" = some .call ∧
        Grammar.script.typeTails.get? "[" = some .array := by decide +kernel
    have hread : arrayType t' c₁ = .done (.array t') d := by
      rw [arrayType, expectSymbol, expect_bind, Token.isSymbol_eq, decide_eq_true hopen, if_pos rfl,
        expectSymbol, expect_bind, Token.isSymbol_eq, decide_eq_true hclose, if_pos rfl,
        Cursor.spells_nil.1 hd]
      rfl
    have hround : Grammar.script.typeRound .default t' c₁ = .done (.yield (.array t')) d := by
      rw [Grammar.typeRound, current_bind, hkey, htables.1, htables.2]
      exact bind_done _ hread
    have hlt : d.remaining < c₁.remaining := by
      have hremaining := hbrackets.remaining
      simp only [List.length_cons] at hremaining
      omega
    rw [htype, iterate_yield hround hlt]

/-- Only an opening bracket goes on with a type. -/
theorem typePower_none (hw : w ≠ .symbol "[") : Grammar.script.typePowers.get? w.key = none := by
  have hkey : w.key ≠ "[" := by
    cases w with
    | symbol text => exact fun htext => hw (congrArg Terminal.symbol htext)
    | keyword word => cases word <;> decide
    | endOfInput | newLine | number _ | string _ | name _ => simp [Terminal.key]
  have htable : Grammar.script.typePowers = ({} : Table BindingPower).insert "[" .call := by
    decide +kernel
  rw [htable, Table.get?_insert, if_neg hkey]
  rfl

theorem typeExpr_accepts {t : TypeExpr} (h : TypeText t ws) (hw : w ≠ .symbol "[") :
    (Grammar.script.readers.typeExpr .default).Accepts ws w fun t' => t'.bare = t.bare := by
  intro c d hc hws hd
  obtain ⟨t', ht', htype⟩ := type_complete h hc hws
  have hnone : Grammar.script.typePowers.get? d.current.key = none := by
    rw [Token.key_eq (hws.genuine hc).current, hd]
    exact typePower_none hw
  refine ⟨t', htype.trans (iterate_done (Grammar.typeRound_of_not_lt ?_)), ht'⟩
  simp [hnone]

theorem typeAfter_accepts {symbol : String} {t : TypeExpr} (h : Annotation symbol t ws)
    (hw : w ≠ .symbol symbol) (hbracket : w ≠ .symbol "[") :
    (Grammar.script.readers.typeAfter symbol).Accepts ws w fun t' => t'.bare = t.bare := by
  cases h with
  | absent => exact accepts_unaccepted (fun _ => Token.isSymbol_eq symbol) hw (.pure rfl)
  | present ht =>
    exact accepts_accept (fun _ => Token.isSymbol_eq symbol) (typeExpr_accepts ht hbracket)

theorem parameter_accepts {p : Parameter} (h : ParameterText p ws)
    (hw : w ∈ [.newLine, .symbol ",", .symbol ")"]) :
    Grammar.script.readers.parameter.Accepts ws w fun p' => p'.bare = p.bare := by
  cases h with
  | intro x ht =>
    refine .expectName (.map (typeAfter_accepts ht ?_ ?_) fun t' ht' => ?_)
    · rintro rfl
      simp at hw
    · rintro rfl
      simp at hw
    · exact congrArg (Parameter.mk x) ht'

theorem signature_accepts {s : Signature} (h : SignatureText s ws)
    (hw : w ≠ .symbol "->") (hbracket : w ≠ .symbol "[") :
    Grammar.script.readers.signature.Accepts ws w fun s' => s'.bare = s.bare := by
  cases h with
  | @intro items result us vs hitems hus ht =>
    have hparameters : Grammar.script.readers.parameters.Accepts us (vs.headD w) fun ps =>
        ps.map Parameter.bare = (items.map (·.1)).map Parameter.bare := by
      cases hus with
      | @intro nl us hnl hus =>
        have hlist : Items (fun us p => ParameterText p us) Listed us (items.map (·.1)) :=
          ⟨items, rfl, hitems, hus⟩
        have hpiece : ∀ us p, ParameterText p us → ∃ v vs, us = v :: vs ∧ BeginsPiece v := by
          rintro us p ⟨x, ht⟩
          exact ⟨_, _, rfl, by simp [BeginsPiece]⟩
        refine .expectSymbol fun _ => .skip hnl ?_ fun _ => .bind (Accepts.commaSeparated hpiece
          (fun us p w hp hw => parameter_accepts hp hw) hlist) fun ps hps =>
            .expectSymbol fun _ => .pure hps
        have hhead := listed_headD hpiece hlist
        cases us with
        | nil => simp
        | cons u us => exact hhead
    refine .bind hparameters fun ps hps => .map (typeAfter_accepts ht hw hbracket) fun t' ht' => ?_
    exact congrArg₂ Signature.mk hps ht'

/-! Expressions. -/

namespace ExprComplete
variable {e e' : Expr} {tier tighter : Tier}

theorem number {text : String} (h : (Terminal.number text).Finite) (span : Span) :
    ExprComplete .primary (.number (numberValue text) span) [.number text] := by
  refine .of_start .literal (by rw [Terminal.key]; decide +kernel) fun w _ =>
    .current fun t _ ht => ?_
  obtain ⟨hk, rfl⟩ := Token.terminal_number.1 ht
  obtain ⟨v, hv⟩ := Option.isSome_iff_exists.1 h
  have hvalue : numberValue t.text = v := by rw [numberValue, hv]; rfl
  rw [hk]
  dsimp only
  rw [hv, hvalue]
  exact .advance fun _ _ => .pure rfl

theorem string (value : String) (span : Span) :
    ExprComplete .primary (.string value span) [.string value] := by
  refine .of_start .literal (by rw [Terminal.key]; decide +kernel) fun w _ =>
    .current fun t _ ht => ?_
  obtain ⟨hk, rfl⟩ := Token.terminal_string.1 ht
  rw [hk]
  exact .advance fun _ _ => .pure rfl

theorem name (x : String) (span : Span) : ExprComplete .primary (.name x span) [.name x] := by
  refine .of_start .literal (by rw [Terminal.key]; decide +kernel) fun w _ =>
    .current fun t _ ht => ?_
  obtain ⟨hk, rfl⟩ := Token.terminal_name.1 ht
  rw [hk]
  exact .advance fun _ _ => .pure rfl

theorem grouping (h : ExprComplete .expr e ws) (hnl : EmptyLines nl) (hnl' : EmptyLines nl')
    (hne : ∀ us w, (ws ++ us).headD w ≠ .newLine) :
    ExprComplete .primary e (.symbol "(" :: (nl ++ (ws ++ (nl' ++ [.symbol ")"])))) := by
  refine .of_start .grouping (by decide +kernel) fun w _ => .advanceLine hnl (hne _ _) fun _ _ => ?_
  have hclose : ((nl' ++ [Terminal.symbol ")"]).headD w).power = .default :=
    hnl'.headD (P := fun w => w.power = .default) power_newLine (by
      rw [List.headD_cons]
      decide +kernel)
  refine .bind (h.accepts (by decide) ?_ ?_) fun e' he => .skip hnl' (by simp)
    fun _ => .expectSymbol fun _ => .pure he
  all_goals rw [hclose]; decide

theorem closure {signature : Signature} {body : Block} (span : Span)
    (hsig : SignatureText signature ws)
    (hbody : ∀ w, Grammar.script.readers.block.Accepts vs w fun b => b.bare = body.bare)
    (hbrace : ∀ w, vs.headD w = .symbol "\x7b") :
    ExprComplete .primary (.closure none signature body span)
      (.keyword .kwFunction :: (ws ++ vs)) := by
  refine .of_start .closure (by decide +kernel) fun w _ => .advance fun o _ =>
    .bind (signature_accepts hsig ?_ ?_) fun s hs => .last (hbody w) fun b hb => .lastEnd fun p =>
      .pure ?_
  · rw [hbrace]
    simp
  · rw [hbrace]
    simp
  · exact congrArg₂ (Expr.closure none · · _) hs hb

theorem prefixed {operator : String} (h : ExprComplete .unary e ws) (span : Span)
    (hop : operator ∈ ["-", "!"]) :
    ExprComplete .unary (.prefixed operator e span) (.symbol operator :: ws) := by
  have hstart : Grammar.script.starts.get? (Terminal.symbol operator).key = some .prefixed := by
    simp only [List.mem_cons, List.not_mem_nil, or_false] at hop
    rcases hop with rfl | rfl <;> decide +kernel
  refine .of_start .prefixed hstart fun w hw => .advance fun o ho =>
    .map (h.accepts (by decide) hw hw) fun e' he => ?_
  rw [(Token.terminal_symbol.1 ho).2]
  exact congrArg (Expr.prefixed operator · _) he

theorem binary {operator : String} {left right : Expr} (hl : ExprComplete tier left ws)
    (hr : ExprComplete tighter right vs) (span : Span) (hop : operator ∈ tier.operators)
    (hnext : tier.next? = some tighter) (hnl : EmptyLines nl)
    (hne : ∀ us w, (vs ++ us).headD w ≠ .newLine) :
    ExprComplete tier (.binary operator left right span)
      (ws ++ .symbol operator :: (nl ++ vs)) := by
  obtain ⟨-, hbound, -⟩ := Tier.next_of_operator hop
  refine hl.of_tail (.binary tier hop) (hbound ▸ Nat.le_refl _) (fun p hp => ⟨hp, hp⟩)
    fun w l hw hl' => .advanceLine hnl ?_ fun o ho => .map (hr.accepts (Tier.next_lt hop hnext)
      (hbound ▸ hw) (BindingPower.le_trans hw (Tier.next_le hnext).2)) fun r hr' => ?_
  · have hhead := hne [] w
    rwa [List.append_nil] at hhead
  · rw [(Token.terminal_symbol.1 ho).2]
    exact congrArg₂ (Expr.binary operator · · _) hl' hr'

theorem assignment {operator : String} {target value : Expr} (ht : ExprComplete .logic target ws)
    (hv : ExprComplete .expr value vs) (span : Span) (hop : operator ∈ ["=", "+=", "-="])
    (hnl : EmptyLines nl) (hne : ∀ us w, (vs ++ us).headD w ≠ .newLine) :
    ExprComplete .expr (.assignment operator target value span)
      (ws ++ .symbol operator :: (nl ++ vs)) := by
  refine ht.of_tail (.assignment hop) (by decide)
    (fun p hp => ⟨hp, BindingPower.lt_of_lt_of_le hp (by decide)⟩)
    fun w l hw hl => .advanceLine hnl ?_ fun o ho =>
      .map (hv.accepts (by decide) hw hw) fun v hv' => ?_
  · have hhead := hne [] w
    rwa [List.append_nil] at hhead
  · rw [(Token.terminal_symbol.1 ho).2]
    exact congrArg₂ (Expr.assignment operator · · _) hl hv'

theorem member {object : Expr} (h : ExprComplete .suffixed object ws) (x : String) (span : Span) :
    ExprComplete .suffixed (.member object x span) (ws ++ [.symbol ".", .name x]) := by
  refine h.of_tail (.member rfl) (by decide)
    (fun p hp => ⟨BindingPower.lt_of_lt_of_le hp (by decide), hp⟩) fun w l _ hl =>
      .advance fun _ _ => .expectName (.lastEnd fun p => .pure ?_)
  exact congrArg (Expr.member · x _) hl

theorem call {callee : Expr} {items : List (Expr × List Terminal)}
    (h : ExprComplete .suffixed callee ws) (span : Span)
    (hitems : ∀ i ∈ items, Derives longestFit (.expr .expr i.1) i.2 ∧ ExprComplete .expr i.1 i.2)
    (hvs : Parenthesized (items.map (·.2)) vs) :
    ExprComplete .suffixed (.call callee (items.map (·.1)) span) (ws ++ vs) := by
  cases hvs with
  | @intro nl us hnl hus =>
    have hlist : Items (fun us e => Derives longestFit (.expr .expr e) us ∧ ExprComplete .expr e us)
        Listed us (items.map (·.1)) := ⟨items, rfl, hitems, hus⟩
    have hpiece : ∀ us e, Derives longestFit (.expr .expr e) us ∧ ExprComplete .expr e us →
        ∃ v vs, us = v :: vs ∧ BeginsPiece v := by
      rintro us e ⟨he, -⟩
      obtain ⟨v, vs, rfl, hv⟩ := he.begins
      refine ⟨v, vs, rfl, ?_, ?_, ?_⟩ <;> rintro rfl <;>
        exact absurd (show Terminal.beginsExpr _ from hv) (by decide)
    have hitem : ∀ us e (w : Terminal),
        Derives longestFit (.expr .expr e) us ∧ ExprComplete .expr e us →
          w ∈ [.newLine, .symbol ",", .symbol ")"] →
            (Grammar.script.readers.expr .default).Accepts us w fun e' => e'.bare = e.bare := by
      intro us e w he hw
      have hpower : w.power = .default := by
        simp only [List.mem_cons, List.not_mem_nil, or_false] at hw
        rcases hw with rfl | rfl | rfl <;> decide +kernel
      refine he.2.accepts (by decide) ?_ ?_ <;> rw [hpower] <;> decide
    refine h.of_tail (.call rfl) (by decide) (fun p hp => ⟨hp, hp⟩) fun w l _ hl =>
      .advanceLine hnl ?_ fun _ _ => .bind (.commaSeparated hpiece hitem hlist) fun es hes =>
        .expectSymbol fun _ => .lastEnd fun p => .pure (Expr.bare_call hl hes _ _)
    have hhead := listed_headD hpiece hlist
    cases us with
    | nil => simp
    | cons u us => exact hhead

theorem of_tighter (h : ExprComplete tighter e ws) (hnext : tier.next? = some tighter) :
    ExprComplete tier e ws := by
  obtain ⟨hpower, hbound⟩ := Tier.next_le hnext
  exact fun power hp c d hc hws hd => h power (BindingPower.lt_of_lt_of_le hp hpower) c d hc hws
    (BindingPower.le_trans hd hbound)

end ExprComplete

end ScriptSyntax
