import ScriptSyntax.Proofs.Lookahead

/-! Every parser of the script grammar comes to an end inside its tokens, wherever it is called, and
the constructs leave at least one token behind them. -/
namespace ScriptSyntax

/-- Another cursor in the same tokens, at a token of them, and at least so many tokens further on.
-/
def Cursor.Reaches (c : Cursor) (least : Nat) (d : Cursor) : Prop :=
  d.tokens = c.tokens ∧ c.index + least ≤ d.index ∧ d.index < c.tokens.length

/-- A value or an error, and the cursor at a token in both cases. -/
def Outcome.Stops {α : Type} (c : Cursor) (least : Nat) : Outcome α → Prop
  | .done _ d => c.Reaches least d
  | .failed _ d => c.Reaches 0 d
  | .endless => False

/-- From every cursor a parser has an end, and a value only so many tokens further on. -/
def Parse.Stops {α : Type} (p : Parse α) (least : Nat) : Prop := ∀ c, (p c).Stops c least

theorem Cursor.index_lt (c : Cursor) : c.index < c.tokens.length := by
  rw [length_tokens]
  omega

/-- Each place in a list of tokens is the place of a cursor. -/
theorem Cursor.exists_at (c : Cursor) {i : Nat} (hi : i < c.tokens.length) :
    ∃ d : Cursor, d.tokens = c.tokens ∧ d.index = i := by
  let all := c.consumed.reverse ++ c.upcoming
  have hle : i ≤ all.length := by
    rw [Cursor.tokens, List.length_append, List.length_singleton] at hi
    exact Nat.le_of_lt_succ hi
  refine ⟨{ consumed := (all.take i).reverse, upcoming := all.drop i, finish := c.finish }, ?_, ?_⟩
  · rw [Cursor.tokens, List.reverse_reverse, List.take_append_drop]
    rfl
  · rw [Cursor.index, List.length_reverse, List.length_take, Nat.min_eq_left hle]

/-- The latest end is that of a token of the list. -/
theorem Cursor.lastEnd_getElem? (c : Cursor) (h : c.index ≠ 0) :
    (c.tokens[c.index - 1]?).map (·.span.stop) = some c.lastEnd := by
  have hhead := c.consumed_head?
  rw [if_neg h] at hhead
  rw [← hhead, lastEnd]
  cases hc : c.consumed with
  | nil => exact absurd (congrArg List.length hc) h
  | cons t rest => rfl

namespace Parse
variable {α β : Type} {f : Position → Position} {g : α → β} {p : Parse α} {q : Parse β} {c : Cursor}
  {least : Nat}

/-- The way of the cursor gives the place, the count of the tokens that are left gives the rest. -/
theorem TransportsAt.stops (ht : TransportsAt f g c p q) (ha : AgreeAt c p p fun _ => least) :
    (p c).Stops c least := by
  have hend := ha.2
  have hway : ∀ d, (p c).cursor? = some d → d.tokens = c.tokens ∧
      d.index + d.remaining = c.index + c.remaining ∧ c.index ≤ d.index := by
    intro d hd
    obtain ⟨ts, hts, -⟩ := ht d hd
    have hindex := hts.index
    have hremaining := hts.remaining
    exact ⟨hts.tokens, by omega, by omega⟩
  cases hp : p c with
  | done a d =>
    rw [hp] at hend hway
    obtain ⟨htokens, hsum, -⟩ := hway d rfl
    have hleast : d.remaining + least ≤ c.remaining := hend
    exact ⟨htokens, by omega, htokens ▸ d.index_lt⟩
  | failed e d =>
    rw [hp] at hway
    obtain ⟨htokens, -, hle⟩ := hway d rfl
    exact ⟨htokens, hle, htokens ▸ d.index_lt⟩
  | endless =>
    rw [hp] at hend
    exact hend

theorem Transports.stops (ht : Transports f g p q) (ha : ∀ n, Agree n p p fun _ => least) :
    p.Stops least := fun c => (ht c).stops (ha _ c (Nat.lt_succ_self _))

end Parse

open Grammar Parse in
/-- Whatever the tokens are, and at whichever of them a cursor stands: what the cursor shows are
tokens of the list, also after it has moved, and every parser of the script grammar ends with a
value or an error at a token of the list. All but the whole program and the optional result type
consume a token for a value. -/
theorem parsers_stop :
    (∀ (tokens : List Token) (file : String) (i : Nat),
      i < (Cursor.start tokens file).tokens.length →
        ∃ c : Cursor, c.tokens = (Cursor.start tokens file).tokens ∧ c.index = i) ∧
    (∀ c : Cursor, c.tokens[c.index]? = some c.current ∧
      (c.index ≠ 0 → (c.tokens[c.index - 1]?).map (·.span.stop) = some c.lastEnd) ∧
      c.next.tokens = c.tokens ∧ ∀ kind, (c.skip kind).tokens = c.tokens) ∧
    (∀ (tokens : List Token) (file : String),
      (parse tokens file).Stops (Cursor.start tokens file) 0) ∧
    Stops script.statement 1 ∧
    (∀ power, Stops (script.expr power) 1) ∧
    Stops script.readers.block 1 ∧
    Stops script.readers.parameters 1 ∧
    Stops script.readers.resultType 0 ∧
    (∀ power, Stops (script.typeExpr power) 1) ∧
    (∀ form : StatementForm, Stops (form.read script.readers) 1) ∧
    (∀ start : ExprStart, Stops (start.read script.readers) 1) ∧
    (∀ (tail : ExprTail) (left : Expr) (power : BindingPower),
      Stops (tail.read script.readers left power) 1) ∧
    (∀ start : TypeStart, Stops start.read 1) ∧
    (∀ (tail : TypeTail) (left : TypeExpr), Stops (tail.read left) 1) := by
  have ht : script.readers.Transports id script.readers := script_transports
  have ha := readers_agree
  have hnext : ∀ c : Cursor, c.next.remaining < c.remaining + 1 := fun c =>
    Nat.lt_succ_of_le c.remaining_next_le
  have hstatement : Stops script.statement 1 := ht.statement.stops fun n => (ha n).statement
  refine ⟨fun tokens file i hi => (Cursor.start tokens file).exists_at hi,
    fun c =>
      ⟨c.current_getElem?, c.lastEnd_getElem?, c.tokens_next, fun kind => c.tokens_skip kind⟩,
    fun tokens file => (transports_program file _).stops
      (agree_program file _ (Nat.lt_succ_self _)),
    hstatement, fun power => (ht.expr power).stops fun n => (ha n).expr power,
    ht.block.transports.stops fun n => (ha n).block, ht.parameters.stops fun n => (ha n).parameters,
    (ht.typeAfter "->").stops fun n => (ha n).typeAfter "->",
    fun power => (ht.typeExpr power).stops fun n => (ha n).typeExpr power, ?_, ?_, ?_, ?_, ?_⟩
  · intro form c
    by_cases hform : form = .any
    · exact hform ▸ hstatement c
    · exact ((ht.statementForm form hform).transports c).stops
        ((ha _).statementForm form hform (hnext c))
  · exact fun start c =>
      ((ht.exprStart start).transports c).stops ((ha _).exprStart start (hnext c))
  · exact fun tail left power c =>
      (ht.exprTail tail left power c).stops ((ha _).exprTail tail left power (hnext c))
  · exact fun start => (transports_typeStart (f := id) start).stops fun n => agree_typeStart start
  · exact fun tail left =>
      (transports_typeTail (f := id) tail left).stops fun n => agree_typeTail tail left

open Grammar in
/-- A result statement asked for behind an end of input in the middle of a list. -/
theorem parsers_stop_behind_end :
    let tokens : List Token :=
      [⟨.name, "x", default⟩, ⟨.endOfInput, "EOF", default⟩, ⟨.symbol, "let", default⟩]
    2 < (Cursor.start tokens "f").tokens.length ∧
      ∃ c : Cursor, c.tokens = (Cursor.start tokens "f").tokens ∧ c.index = 2 ∧
        (StatementForm.result.read script.readers c).Stops c 1 := by
  intro tokens
  have hlt : 2 < (Cursor.start tokens "f").tokens.length := by decide
  obtain ⟨c, htokens, hindex⟩ := parsers_stop.1 tokens "f" 2 hlt
  exact ⟨hlt, c, htokens, hindex, parsers_stop.2.2.2.2.2.2.2.2.2.1 .result c⟩

end ScriptSyntax
