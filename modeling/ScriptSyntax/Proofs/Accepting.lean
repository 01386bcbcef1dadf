import ScriptSyntax.Proofs.Recursion
import ScriptSyntax.Proofs.Vocabulary

/-! Parsers on words that they are known to accept: a parser consumes exactly these, as long as the
right terminal stands behind them. -/
namespace ScriptSyntax.Parse
variable {α β : Type} {p : Parse α} {ws vs nl : List Terminal} {w v : Terminal}
  {R : α → Prop} {S : β → Prop}

/-- Wherever some words stand before a terminal, a parser consumes them with a value of some kind.
-/
def Accepts (p : Parse α) (ws : List Terminal) (w : Terminal) (R : α → Prop) : Prop :=
  ∀ c d : Cursor, c.Genuine → c.Spells ws d → d.current.terminal = w → ∃ a, p c = .done a d ∧ R a

theorem Accepts.mono {R' : α → Prop} (h : p.Accepts ws w R) (hR : ∀ a, R a → R' a) :
    p.Accepts ws w R' := by
  intro c d hc hws hw
  obtain ⟨a, hp, ha⟩ := h c d hc hws hw
  exact ⟨a, hp, hR a ha⟩

theorem Accepts.pure {a : α} (h : R a) : Accepts (pure a) [] w R := by
  intro c d _ hws _
  rw [Cursor.spells_nil.1 hws]
  exact ⟨a, rfl, h⟩

theorem Accepts.bind {f : α → Parse β} (hp : p.Accepts ws (vs.headD w) R)
    (hf : ∀ a, R a → (f a).Accepts vs w S) : (p >>= f).Accepts (ws ++ vs) w S := by
  intro c e hc hws hw
  obtain ⟨d, hd, he⟩ := Cursor.spells_append.1 hws
  obtain ⟨a, hpc, ha⟩ := hp c d hc hd (by rw [← hw, he.headD])
  rw [bind_done f hpc]
  exact hf a ha d e (hd.genuine hc) he hw

/-- What comes after the last token consumes nothing. -/
theorem Accepts.last {f : α → Parse β} (hp : p.Accepts ws w R)
    (hf : ∀ a, R a → (f a).Accepts [] w S) : (p >>= f).Accepts ws w S := by
  have hbind : (p >>= f).Accepts (ws ++ []) w S := .bind hp hf
  rwa [List.append_nil] at hbind

theorem Accepts.map {g : α → β} (hp : p.Accepts ws w R) (hg : ∀ a, R a → S (g a)) :
    (p >>= fun a => Pure.pure (g a)).Accepts ws w S :=
  .last hp fun a ha => .pure (hg a ha)

theorem Accepts.current {f : Token → Parse α}
    (hf : ∀ t, t.Genuine → t.terminal = ws.headD w → (f t).Accepts ws w R) :
    (current >>= f).Accepts ws w R := fun c d hc hws hw =>
  hf c.current hc.current (by rw [← hw, hws.headD]) c d hc hws hw

theorem Accepts.lastEnd {f : Position → Parse α} (hf : ∀ p, (f p).Accepts ws w R) :
    (lastEnd >>= f).Accepts ws w R := fun c d hc hws hw => hf c.lastEnd c d hc hws hw

theorem Accepts.atSymbol {s : String} {f : Bool → Parse α}
    (hf : (f (decide (ws.headD w = .symbol s))).Accepts ws w R) :
    (atSymbol s >>= f).Accepts ws w R := by
  intro c d hc hws hw
  have hhead : c.current.terminal = ws.headD w := by rw [← hw, hws.headD]
  rw [atSymbol_bind, Token.isSymbol_eq, hhead]
  exact hf c d hc hws hw

theorem Accepts.atToken {f : Bool → Parse α}
    (hf : (f (decide (ws.headD w ≠ .endOfInput))).Accepts ws w R) :
    (atToken >>= f).Accepts ws w R := by
  intro c d hc hws hw
  have hhead : c.current.terminal = ws.headD w := by rw [← hw, hws.headD]
  have hdec : decide (c.current.kind ≠ .endOfInput) = decide (ws.headD w ≠ .endOfInput) := by
    rw [← hhead]
    exact decide_eq_decide.2 (not_congr Token.terminal_endOfInput.symm)
  rw [atToken_bind, hdec]
  exact hf c d hc hws hw

theorem Accepts.advance {f : Token → Parse α}
    (hf : ∀ t, t.terminal = v → (f t).Accepts ws w R) : (advance >>= f).Accepts (v :: ws) w R := by
  intro c d hc hws hw
  obtain ⟨hv, -, hnext⟩ := Cursor.spells_cons.1 hws
  rw [advance_bind]
  exact hf c.current hv c.next d hc.next hnext hw

theorem Accepts.skip {f : Nat → Parse α} (hnl : EmptyLines nl) (hne : ws.headD w ≠ .newLine)
    (hf : ∀ n, (f n).Accepts ws w R) : (skip .newLine >>= f).Accepts (nl ++ ws) w R := by
  intro c e hc hws hw
  obtain ⟨d, hd, he⟩ := Cursor.spells_append.1 hws
  rw [← hw, he.headD] at hne
  rw [skip_bind, hd.skip hnl hne]
  exact hf _ d e (hd.genuine hc) he hw

theorem Accepts.advanceLine {f : Token → Parse α} (hnl : EmptyLines nl)
    (hne : ws.headD w ≠ .newLine) (hf : ∀ t, t.terminal = v → (f t).Accepts ws w R) :
    (advanceLine >>= f).Accepts (v :: (nl ++ ws)) w R := by
  rw [Parse.advanceLine, bind_assoc]
  refine .advance fun t ht => ?_
  rw [bind_assoc]
  exact .skip hnl hne fun _ => hf t ht

/-- A test that only one terminal passes. -/
theorem accepts_accept {test : Token → Bool} {f : Bool → Parse α}
    (htest : ∀ t, test t = decide (t.terminal = v)) (hf : (f true).Accepts ws w R) :
    (accept test >>= f).Accepts (v :: ws) w R := by
  intro c d hc hws hw
  obtain ⟨hv, -, hnext⟩ := Cursor.spells_cons.1 hws
  rw [accept_bind, htest, decide_eq_true hv, if_pos rfl]
  exact hf c.next d hc.next hnext hw

theorem accepts_unaccepted {test : Token → Bool} {f : Bool → Parse α}
    (htest : ∀ t, test t = decide (t.terminal = v)) (hne : ws.headD w ≠ v)
    (hf : (f false).Accepts ws w R) : (accept test >>= f).Accepts ws w R := by
  intro c d hc hws hw
  rw [← hw, hws.headD] at hne
  rw [accept_bind, htest, decide_eq_false hne, if_neg Bool.false_ne_true]
  exact hf c d hc hws hw

theorem isNewLine_eq (t : Token) :
    decide (t.kind = .newLine) = decide (t.terminal = .newLine) :=
  decide_eq_decide.2 Token.terminal_newLine.symm

theorem Accepts.expectSymbol {s : String} {f : Token → Parse α}
    (hf : ∀ t, (f t).Accepts ws w R) :
    (expectSymbol s >>= f).Accepts (.symbol s :: ws) w R := by
  intro c d hc hws hw
  obtain ⟨hv, -, hnext⟩ := Cursor.spells_cons.1 hws
  rw [Parse.expectSymbol, expect_bind, Token.isSymbol_eq, decide_eq_true hv, if_pos rfl]
  exact hf c.current c.next d hc.next hnext hw

theorem Accepts.expectNameToken {x : String} {k : Complaint} {f : Token → Parse α}
    (hf : ∀ t, t.text = x → (f t).Accepts ws w R) :
    (expectKind .name k >>= f).Accepts (.name x :: ws) w R := by
  intro c d hc hws hw
  obtain ⟨hv, -, hnext⟩ := Cursor.spells_cons.1 hws
  obtain ⟨hk, hx⟩ := Token.terminal_name.1 hv
  rw [expectKind, expect_bind, decide_eq_true hk, if_pos rfl]
  exact hf c.current hx c.next d hc.next hnext hw

theorem Accepts.expectName {x : String} {role : NameRole} {f : String → Parse α}
    (hf : (f x).Accepts ws w R) : (expectName role >>= f).Accepts (.name x :: ws) w R := by
  rw [Parse.expectName, bind_assoc]
  refine .expectNameToken fun t ht => ?_
  rw [← ht] at hf
  exact hf

/-! Repetition. -/

theorem iterate_done {round : α → Parse (ForInStep α)} {a b : α} {c d : Cursor}
    (h : round a c = .done (.done b) d) : iterate round a c = .done b d := by
  rw [iterate, h]

theorem iterate_yield {round : α → Parse (ForInStep α)} {a b : α} {c d : Cursor}
    (h : round a c = .done (.yield b) d) (hlt : d.remaining < c.remaining) :
    iterate round a c = iterate round b d := by
  rw [iterate, h]
  exact if_pos hlt

/-- The result of rounds is that of the first one, or that of the others behind it. -/
theorem iterate_eq_done {round : α → Parse (ForInStep α)} {a b : α} {c d : Cursor} :
    iterate round a c = .done b d ↔ round a c = .done (.done b) d ∨
      ∃ a' c', round a c = .done (.yield a') c' ∧ c'.remaining < c.remaining ∧
        iterate round a' c' = .done b d := by
  rw [iterate]
  cases hround : round a c with
  | done step c' =>
    cases step with
    | done b' => simp
    | yield next => by_cases hless : c'.remaining < c.remaining <;> simp [hless, and_assoc]
  | failed | endless => simp

section Collect
variable {round : Parse (ForInStep (List α))} {R : List α → Prop} {S : List α → Prop}

theorem Accepts.collect_done
    (h : round.Accepts ws w fun step => ∃ items, step = .done items ∧ R items) :
    (collect round).Accepts ws w R := by
  intro c d hc hws hw
  obtain ⟨_, hround, items, rfl, hR⟩ := h c d hc hws hw
  refine ⟨items, ?_, hR⟩
  rw [collect, hround]

/-- A round that goes on consumes some words, and the others are left for the rest. -/
theorem Accepts.collect_yield (hne : ws ≠ [])
    (h : round.Accepts ws (vs.headD w) fun step => ∃ items, step = .yield items ∧ R items)
    (hrest : ∀ items, R items → (collect round).Accepts vs w fun more => S (items ++ more)) :
    (collect round).Accepts (ws ++ vs) w S := by
  intro c e hc hws hw
  obtain ⟨d, hd, he⟩ := Cursor.spells_append.1 hws
  obtain ⟨_, hround, items, rfl, hR⟩ := h c d hc hd (by rw [← hw, he.headD])
  obtain ⟨more, hmore, hS⟩ := hrest items hR d e (hd.genuine hc) he hw
  have hlen := List.length_pos_iff.2 hne
  have hlt : d.remaining < c.remaining := by
    have hremaining := hd.remaining
    omega
  refine ⟨items ++ more, ?_, hS⟩
  rw [collect, hround]
  simp only [hlt, if_true, hmore]

end Collect

/-- A piece of a list with commas ends neither the list nor a line. -/
def BeginsPiece (w : Terminal) : Prop := w ≠ .newLine ∧ w ≠ .symbol ")" ∧ w ≠ .symbol ","

theorem listed_headD {spells : List Terminal → α → Prop} {values : List α}
    (hpiece : ∀ us a, spells us a → ∃ v vs, us = v :: vs ∧ BeginsPiece v)
    (h : Items spells Listed ws values) : ws.headD (.symbol ")") ≠ .newLine := by
  refine Items.listed_induction ?_ ?_ ?_ h
  · simp
  · rintro us a nl ha -
    obtain ⟨v, vs, rfl, hv⟩ := hpiece us a ha
    exact hv.1
  · rintro us a nl nl' ws values ha - - - -
    obtain ⟨v, vs, rfl, hv⟩ := hpiece us a ha
    exact hv.1

/-- The items of a list are consumed one by one, with their commas and lines. -/
theorem Accepts.commaSeparated {item : Parse α} {spells : List Terminal → α → Prop} {g : α → β}
    {values : List α}
    (hpiece : ∀ us a, spells us a → ∃ v vs, us = v :: vs ∧ BeginsPiece v)
    (hitem : ∀ us a w, spells us a → w ∈ [.newLine, .symbol ",", .symbol ")"] →
      item.Accepts us w fun b => g b = g a)
    (h : Items spells Listed ws values) :
    (commaSeparated item).Accepts ws (.symbol ")") fun bs => bs.map g = values.map g := by
  refine Items.listed_induction ?_ ?_ ?_ h
  · exact .collect_done (.atSymbol (.pure ⟨[], rfl, rfl⟩))
  · intro us a nl ha hnl
    obtain ⟨v, vs, rfl, hv⟩ := hpiece us a ha
    refine .collect_done (.atSymbol ?_)
    rw [show decide ((v :: vs ++ nl).headD (.symbol ")") = .symbol ")") = false from
      decide_eq_false hv.2.1]
    rw [← List.append_nil nl]
    refine .bind (hitem _ a _ ha (hnl.headD (by simp) (by simp))) fun b hb => ?_
    exact .skip hnl (by simp) fun _ => accepts_unaccepted (fun _ => Token.isSymbol_eq _)
      (by simp) (.pure ⟨[b], rfl, by simp [hb]⟩)
  · intro us a nl nl' ws values ha hnl hnl' hws ih
    obtain ⟨v, vs, rfl, hv⟩ := hpiece us a ha
    have hassoc : v :: vs ++ (nl ++ .symbol "," :: (nl' ++ ws)) =
        (v :: vs ++ (nl ++ .symbol "," :: nl')) ++ ws := by simp
    rw [hassoc]
    refine .collect_yield (R := fun bs => bs.map g = [g a]) (by simp) (.atSymbol ?_)
      fun bs hbs => ih.mono fun more hmore => by rw [List.map_append, hbs, hmore]; rfl
    rw [show decide ((v :: vs ++ (nl ++ .symbol "," :: nl')).headD (ws.headD (.symbol ")")) =
      .symbol ")") = false from decide_eq_false hv.2.1]
    refine .bind (hitem _ a _ ha (hnl.headD (by simp) (by simp))) fun b hb =>
      .skip hnl (by simp) fun _ => accepts_accept (fun _ => Token.isSymbol_eq _) ?_
    rw [← List.append_nil nl']
    exact .skip hnl' (listed_headD hpiece hws) fun _ => .pure ⟨[b], rfl, by simp [hb]⟩

end ScriptSyntax.Parse
