import ScriptSyntax.Proofs.Forward
import ScriptSyntax.Proofs.Progress
import ScriptSyntax.Session

/-! The cursor over a whole session, whatever the tokens are, whichever grammar there is from one
request to the next, and whether the requests succeed. -/
namespace ScriptSyntax
open Parse

/-! What a way of the cursor says about the list of tokens. -/

namespace Cursor
variable {c d : Cursor} {ts : List Token}

theorem Passes.getElem? (h : c.Passes ts d) {i : Nat} (hi : i < ts.length) :
    c.tokens[c.index + i]? = ts[i]? := by
  rw [Cursor.tokens, h.lists.1, List.append_assoc, Cursor.index, ← List.length_reverse,
    List.getElem?_append_right (Nat.le_add_right _ _), Nat.add_sub_cancel_left, List.append_assoc,
    List.getElem?_append_left hi]

theorem LeadsTo.tokens (h : c.LeadsTo d) : d.tokens = c.tokens := by
  obtain ⟨ts, hts⟩ := h
  exact hts.tokens

theorem LeadsTo.index (h : c.LeadsTo d) : c.index ≤ d.index := by
  obtain ⟨ts, hts⟩ := h
  rw [hts.index]
  exact Nat.le_add_right _ _

theorem index_next (c : Cursor) :
    c.next.index = c.index + if c.current.kind = .endOfInput then 0 else 1 := by
  split
  · next h => rw [next_of_end h, Nat.add_zero]
  · next h => exact (Passes.next h).index

/-- Skipping passes the whole run, and nothing where the kind is that of the end. -/
theorem skip_maximal (c : Cursor) (kind : TokenKind) :
    (c.skip kind).index = c.index + (c.run kind).length ∧
    (∀ i < (c.run kind).length, (c.tokens[c.index + i]?).map (·.kind) = some kind) ∧
    if kind = .endOfInput then (c.run kind).length = 0
    else (c.tokens[c.index + (c.run kind).length]?).map (·.kind) ≠ some kind := by
  have hpasses := c.passes_skip kind
  refine ⟨hpasses.index, fun i hi => ?_, ?_⟩
  · rw [hpasses.getElem? hi, List.getElem?_eq_getElem hi, Option.map_some,
      kind_of_mem_run (List.getElem_mem hi)]
  · split
    · next hk => rw [run, if_pos hk, List.length_nil]
    · next hk =>
      rw [← hpasses.index, ← hpasses.tokens, current_getElem?, Option.map_some]
      exact fun h => c.current_skip_ne hk (Option.some.inj h)

theorem first_end_lt (c : Cursor) :
    c.tokens.findIdx (·.kind = .endOfInput) < c.tokens.length :=
  List.findIdx_lt_length_of_exists ⟨c.finish.token, by simp [tokens], decide_eq_true rfl⟩

/-- A cursor is made in front of all its tokens, so what it is led past is no end of input. -/
theorem LeadsTo.le_first_end {given : List Token} {file : String}
    (h : (start given file).LeadsTo c) :
    c.index ≤ c.tokens.findIdx (·.kind = .endOfInput) := by
  obtain ⟨ts, hts⟩ := h
  have hindex := hts.index
  rw [start_index, Nat.zero_add] at hindex
  refine List.le_findIdx_of_not c.index_lt fun j hj => ?_
  have hget := hts.getElem? (hindex ▸ hj)
  rw [start_index, Nat.zero_add, ← hts.tokens,
    List.getElem?_eq_getElem (Nat.lt_trans hj c.index_lt),
    List.getElem?_eq_getElem (hindex ▸ hj)] at hget
  rw [Option.some.inj hget]
  exact decide_eq_false (hts.kind_ne _ (List.getElem_mem _))

end Cursor

/-! Requests. -/

namespace Request

/-- Requests that do no more than to look at tokens, to give a name, or to change the grammar. -/
def looks : Request → Bool
  | current | currentKind | atToken | position | lastEnd | atSymbol _ | atKeyword _ | complaint _
  | named _ | addScript | addTypes | addRule _ | addStart _ _ | addTail _ _ _ | addTypeStart _ _
  | addTypeTail _ _ _ | listing => true
  | _ => false

/-- The test of requests that consume the current token if it passes. -/
def accepted? : Request → Option (Token → Bool)
  | acceptSymbol text => some (·.isSymbol text)
  | acceptKeyword word => some (·.isKeyword word)
  | acceptKind kind => some (·.kind = kind)
  | _ => none

/-- The test of requests that refuse the current token unless it passes. -/
def expected? : Request → Option (Token → Bool)
  | expectKind kind _ => some (·.kind = kind)
  | expectSymbol text => some (·.isSymbol text)
  | _ => none

end Request

namespace Session
variable {s t u : Session} {r : Request}

theorem parser_forward (s : Session) (r : Request) : (s.parser r).Forward := by
  have hg := s.grammar.readers_forward
  cases r with
  | current | currentKind | position => exact forward_current.bind fun _ => forward_pure _
  | listing => exact forward_current.bind fun _ => forward_pure _
  | atToken => exact forward_atToken.bind fun _ => forward_pure _
  | lastEnd => exact forward_lastEnd.bind fun _ => forward_pure _
  | advance acrossLines =>
    cases acrossLines with
    | true => exact forward_advanceLine.bind fun _ => forward_pure _
    | false => exact forward_advance.bind fun _ => forward_pure _
  | skip kind => exact (forward_skip kind).bind fun _ => forward_pure _
  | atSymbol text => exact (forward_atSymbol text).bind fun _ => forward_pure _
  | acceptSymbol text => exact (forward_acceptSymbol text).bind fun _ => forward_pure _
  | atKeyword word =>
    exact (forward_current.bind fun _ => forward_pure _).bind fun _ => forward_pure _
  | acceptKeyword word => exact (forward_acceptKeyword word).bind fun _ => forward_pure _
  | acceptKind kind => exact (forward_acceptKind kind).bind fun _ => forward_pure _
  | expectKind kind message => exact (forward_expect _ _).bind fun _ => forward_pure _
  | expectSymbol text => exact (forward_expectSymbol text).bind fun _ => forward_pure _
  | complaint message => exact forward_complain _
  | block => exact hg.block.bind fun _ => forward_pure _
  | parameters => exact hg.parameters.bind fun _ => forward_pure _
  | statement form => exact (hg.statementForm form).bind fun _ => forward_pure _
  | expr power => exact (hg.expr power).bind fun _ => forward_pure _
  | exprStart start => exact (hg.exprStart start).bind fun _ => forward_pure _
  | exprTail tail power => exact (hg.exprTail tail s.expr power).bind fun _ => forward_pure _
  | named name => exact forward_pure _
  | typeExpr power => exact (hg.typeExpr power).bind fun _ => forward_pure _
  | resultType => exact (hg.typeAfter "->").bind fun _ => forward_pure _
  | typeStart start =>
    exact (Grammar.transports_typeStart start).forward.bind fun _ => forward_pure _
  | typeTail tail =>
    exact (Grammar.transports_typeTail tail s.typeExpr).forward.bind fun _ => forward_pure _
  | addScript | addTypes | addRule | addStart | addTail | addTypeStart | addTypeTail =>
    exact forward_pure _

/-- The cursor after a request is where the parser left it. Without an end it stays. -/
theorem answer_cursor (s : Session) (r : Request) :
    (s.answer r).2.cursor = ((s.parser r s.cursor).cursor?).getD s.cursor := by
  rw [answer]
  cases s.parser r s.cursor with
  | done reply c => cases reply <;> rfl
  | failed e c => rfl
  | endless => rfl

theorem answer_done {reply : Reply} {c : Cursor} (h : s.parser r s.cursor = .done reply c) :
    (s.answer r).1 = reply ∧ (s.answer r).2.cursor = c := by
  rw [answer, h]
  cases reply <;> exact ⟨rfl, rfl⟩

theorem answer_failed {e : Error} {c : Cursor} (h : s.parser r s.cursor = .failed e c) :
    (s.answer r).1 = .error e ∧ (s.answer r).2.cursor = c := by
  rw [answer, h]
  exact ⟨rfl, rfl⟩

theorem answer_forward (s : Session) (r : Request) :
    s.cursor.LeadsTo (s.answer r).2.cursor := by
  rw [answer_cursor]
  cases hd : (s.parser r s.cursor).cursor? with
  | none => exact .refl _
  | some d => exact s.parser_forward r s.cursor d hd

theorem answer_looks (hr : r.looks = true) : (s.answer r).2.cursor = s.cursor := by
  rw [answer_cursor]
  cases r with
  | current | currentKind | atToken | position | lastEnd | atSymbol | atKeyword | complaint | named
  | addScript | addTypes | addRule | addStart | addTail | addTypeStart | addTypeTail | listing =>
    rfl
  | _ => cases hr

theorem answer_accepted {test : Token → Bool} (hr : r.accepted? = some test) :
    (s.answer r).1 = .flag (test s.cursor.current) ∧
      (s.answer r).2.cursor = if test s.cursor.current then s.cursor.next else s.cursor := by
  have hparser : s.parser r = accept test >>= fun b => pure (.flag b) := by
    cases r with
    | acceptSymbol | acceptKeyword | acceptKind =>
      obtain rfl := Option.some.inj hr
      rfl
    | _ => cases hr
  have hrun := accept_bind s.cursor test fun b => pure (Reply.flag b)
  rw [← hparser] at hrun
  by_cases ht : test s.cursor.current = true
  · rw [if_pos ht] at hrun ⊢
    rw [ht]
    exact answer_done hrun
  · rw [if_neg ht] at hrun ⊢
    rw [Bool.eq_false_iff.2 ht]
    exact answer_done hrun

theorem answer_expected {test : Token → Bool} (hr : r.expected? = some test) :
    if test s.cursor.current then
      (s.answer r).1 = .token s.cursor.current ∧ (s.answer r).2.cursor = s.cursor.next
    else (∃ e, (s.answer r).1 = .error e) ∧ (s.answer r).2.cursor = s.cursor := by
  have hparser : ∃ k, s.parser r = expect test k >>= fun t => pure (.token t) := by
    cases r with
    | expectKind kind message =>
      obtain rfl := Option.some.inj hr
      exact ⟨_, rfl⟩
    | expectSymbol text =>
      obtain rfl := Option.some.inj hr
      exact ⟨_, rfl⟩
    | _ => cases hr
  obtain ⟨k, hparser⟩ := hparser
  have hrun := expect_bind s.cursor test k fun t => pure (Reply.token t)
  rw [← hparser] at hrun
  split
  · next ht =>
    rw [if_pos ht] at hrun
    exact answer_done hrun
  · next ht =>
    rw [if_neg ht] at hrun
    obtain ⟨hreply, hcursor⟩ := answer_failed hrun
    exact ⟨⟨_, hreply⟩, hcursor⟩

/-! Runs. -/

/-- Sessions that requests lead to one after the other. In between, any expression and any type may
take the place of the latest ones. -/
inductive Leads : Session → Session → Prop
  | refl (s : Session) : Leads s s
  | answer {s t : Session} (r : Request) : Leads s t → Leads s (t.answer r).2
  | given {s t : Session} (expr : Expr) (typeExpr : TypeExpr) : Leads s t →
    Leads s { t with expr, typeExpr }

theorem Leads.trans (h : Leads s t) (h' : Leads t u) : Leads s u := by
  induction h' with
  | refl => exact h
  | answer r _ ih => exact .answer r ih
  | given e a _ ih => exact .given e a ih

/-- The requests of a list are one after the other. -/
theorem leads_after (s : Session) (rs : List Request) : Leads s (s.after rs) := by
  induction rs generalizing s with
  | nil => exact .refl s
  | cons r rs ih => exact (Leads.answer r (.refl s)).trans (ih (s.answer r).2)

theorem Leads.forward (h : Leads s t) : s.cursor.LeadsTo t.cursor := by
  induction h with
  | refl => exact .refl _
  | answer r _ ih => exact ih.trans (answer_forward _ r)
  | given e a _ ih => exact ih

end Session

/-- Whatever a session is asked for, in whatever order: the tokens stay the same ones, the cursor
never moves back and never past the first end of input, so there always is a current token. Looking
moves nothing. A test that the current token fails moves nothing either, and one that it passes
consumes it, unless it ends the input. Skipping passes exactly the run of tokens of the kind. -/
theorem cursor_over_session {g : Grammar} {given : List Token} {file : String} {s : Session}
    (h : (Session.start g given file).Leads s) :
    s.cursor.tokens = (Cursor.start given file).tokens ∧
    s.cursor.index ≤ s.cursor.tokens.findIdx (·.kind = .endOfInput) ∧
    s.cursor.tokens.findIdx (·.kind = .endOfInput) < s.cursor.tokens.length ∧
    s.cursor.tokens[s.cursor.index]? = some s.cursor.current ∧
    (∀ t, s.Leads t → s.cursor.index ≤ t.cursor.index) ∧
    (∀ r : Request, r.looks = true → (s.answer r).2.cursor = s.cursor) ∧
    (∀ (r : Request) test, r.accepted? = some test →
      (s.answer r).1 = .flag (test s.cursor.current) ∧
      (s.answer r).2.cursor = if test s.cursor.current then s.cursor.next else s.cursor) ∧
    (∀ (r : Request) test, r.expected? = some test →
      if test s.cursor.current then
        (s.answer r).1 = .token s.cursor.current ∧ (s.answer r).2.cursor = s.cursor.next
      else (∃ e, (s.answer r).1 = .error e) ∧ (s.answer r).2.cursor = s.cursor) ∧
    s.cursor.next.index = s.cursor.index +
      (if s.cursor.current.kind = .endOfInput then 0 else 1) ∧
    (∀ kind, ∃ n, (s.answer (.skip kind)).1 = .count n ∧
      (s.answer (.skip kind)).2.cursor.index = s.cursor.index + n ∧
      (∀ i < n, (s.cursor.tokens[s.cursor.index + i]?).map (·.kind) = some kind) ∧
      if kind = .endOfInput then n = 0
      else (s.cursor.tokens[s.cursor.index + n]?).map (·.kind) ≠ some kind) := by
  have hway : (Cursor.start given file).LeadsTo s.cursor := h.forward
  refine ⟨hway.tokens, hway.le_first_end, s.cursor.first_end_lt, s.cursor.current_getElem?,
    fun t ht => ht.forward.index, fun r hr => Session.answer_looks hr,
    fun r test hr => Session.answer_accepted hr, fun r test hr => Session.answer_expected hr,
    s.cursor.index_next, fun kind => ?_⟩
  obtain ⟨hindex, hkind, hstop⟩ := s.cursor.skip_maximal kind
  have hrun : s.parser (.skip kind) s.cursor =
      .done (.count (s.cursor.run kind).length) (s.cursor.skip kind) := rfl
  obtain ⟨hreply, hcursor⟩ := Session.answer_done hrun
  exact ⟨_, hreply, by rw [hcursor, hindex], hkind, hstop⟩

/-- An end of input in the middle stops the cursor, and the statement after it is not read. -/
theorem cursor_over_session_inner_end :
    let place : UInt32 → Position := fun offset => ⟨offset, "shell"⟩
    let given : List Token :=
      [⟨.name, "x", place 0, place 1⟩, ⟨.endOfInput, "EOF", place 1, place 1⟩,
        ⟨.keyword .kwReturn, "return", place 1, place 7⟩]
    let s := (Session.start .script given "shell").after [.advance false, .statement .any]
    s.cursor.tokens = given ++ [⟨.endOfInput, "EOF", place 7, place 7⟩] ∧ s.cursor.index ≤ 1 ∧
      (s.answer (.advance true)).2.cursor.index ≤ 1 := by
  intro place given s
  have hs : (Session.start .script given "shell").Leads s := Session.leads_after _ _
  obtain ⟨htokens, hindex, -⟩ := cursor_over_session hs
  obtain ⟨htokens', hindex', -⟩ := cursor_over_session (hs.answer (.advance true))
  rw [htokens] at hindex
  rw [htokens'] at hindex'
  exact ⟨htokens, hindex, hindex'⟩

end ScriptSyntax
