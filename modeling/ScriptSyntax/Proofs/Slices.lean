import ScriptSyntax.Proofs.Spans

/-! Statements cut out of their source. The text under a statement's span has the tokens of the
statement, and from these it is read again as it was. -/
namespace ScriptSyntax
open Parse Text

variable {s t text last : List Char} {p q : Pattern} {l : Lexeme} {ls ls' : List Lexeme}
  {file : String} {place : Place}

/-! Lexemes of a text that is cut where one of them ends. -/

namespace Pattern

private theorem symbols_comment : ∀ s ∈ symbols, ¬ ['/', '/'] <+: s := by decide

/-- A symbol is a piece of no other pattern. -/
theorem symbol_of_matches (hs : s ∈ symbols) (hp : p ∈ all) (h : p.regex.Matches s) :
    p = symbol s := by
  cases s with
  | nil => exact absurd hs (by decide)
  | cons c cs =>
    obtain ⟨hword, hdigit, hblank, hline, hquote⟩ := symbols_plain _ hs c List.mem_cons_self
    have hb := begins_of_matches h
    cases p with
    | word =>
      rw [begins, hword] at hb
      cases hb
    | number =>
      rw [begins, hdigit] at hb
      cases hb
    | blanks =>
      rw [begins, hblank] at hb
      cases hb
    | newLine => exact absurd (of_decide_eq_true hb) hline
    | string => exact absurd (of_decide_eq_true hb) hquote
    | comment =>
      obtain ⟨cs', -, heq⟩ := matches_comment.1 h
      exact absurd ⟨cs', heq.symm⟩ (symbols_comment _ hs)
    | symbol t => rw [matches_symbol.1 h]

/-- No text is a piece of two patterns. -/
theorem eq_of_matches (hne : s ≠ []) (hp : p ∈ all) (hq : q ∈ all) (h : p.regex.Matches s)
    (h' : q.regex.Matches s) : p = q := by
  obtain ⟨c, cs, rfl⟩ := List.exists_cons_of_ne_nil hne
  have hb := begins_of_matches h
  have hb' := begins_of_matches h'
  cases p with
  | word =>
    rcases begins_wordPart hq hb' (isWordPart_iff.2 (.inl hb)) with rfl | rfl
    · rfl
    · rw [begins, isWordStart_of_isDigit hb'] at hb
      cases hb
  | number =>
    rcases begins_wordPart hq hb' (isWordPart_iff.2 (.inr hb)) with rfl | rfl
    · rw [begins, isWordStart_of_isDigit hb] at hb'
      cases hb'
    · rfl
  | blanks => exact (begins_blank hq hb' hb).symm
  | newLine =>
    obtain rfl := of_decide_eq_true hb
    exact (begins_newLine hq hb').symm
  | string =>
    obtain rfl := of_decide_eq_true hb
    exact (begins_quote hq hb').symm
  | comment =>
    obtain rfl := of_decide_eq_true hb
    cases q with
    | comment => rfl
    | symbol t =>
      obtain rfl := matches_symbol.1 h'
      exact symbol_of_matches (by simpa [all] using hq) hp h
    | word | number | blanks | newLine | string => cases hb'
  | symbol t =>
    obtain rfl := matches_symbol.1 h
    exact (symbol_of_matches (by simpa [all] using hp) hq h').symm

end Pattern

namespace Lexeme

/-- Lexemes that are read with the same text are the same. -/
theorem first?_unique {l' : Lexeme} (h : first? s = some l) (h' : first? t = some l')
    (htext : l'.text = l.text) : l' = l := by
  obtain ⟨hp, hread⟩ := first?_pattern h
  obtain ⟨hp', hread'⟩ := first?_pattern h'
  have hpattern := Pattern.eq_of_matches (first?_isPrefix h).1 hp' hp
    (htext ▸ Pattern.matches_of_read? hread') (Pattern.matches_of_read? hread)
  obtain ⟨pattern, text⟩ := l
  obtain ⟨pattern', text'⟩ := l'
  obtain rfl : pattern' = pattern := hpattern
  obtain rfl : text' = text := htext
  rfl

/-- A lexeme is the same where less follows it. -/
theorem first?_cut (h : first? (l.text ++ (s ++ t)) = some l) : first? (l.text ++ s) = some l := by
  obtain ⟨hp, hread⟩ := first?_pattern h
  obtain ⟨hne, -⟩ := first?_isPrefix h
  obtain ⟨l', hl', hpre⟩ := first?_longest hp (Pattern.matches_of_read? hread) hne s
  obtain ⟨hne', hpre'⟩ := first?_isPrefix hl'
  have hcut : l.text ++ s <+: l.text ++ (s ++ t) := ⟨t, List.append_assoc _ _ _⟩
  have htext : l'.text = l.text :=
    ((isPiece hl').isPrefix hne' h (hpre'.trans hcut)).eq_of_length_le hpre.length_le
  exact hl'.trans (congrArg some (first?_unique h hl' htext))

theorem Reads.drop (h : Reads text (ls ++ ls') last) :
    Reads (ls'.flatMap Lexeme.text ++ last) ls' last := by
  induction ls generalizing text with
  | nil => exact h.text_eq ▸ h
  | cons l ls ih =>
    cases h with
    | step _ next => exact ih next

theorem Reads.take (h : Reads text (ls ++ ls') last) : Reads (ls.flatMap Lexeme.text) ls [] := by
  induction ls generalizing text with
  | nil => exact .stop rfl
  | cons l ls ih =>
    rw [List.cons_append] at h
    cases h with
    | step hfirst next =>
      rw [next.text_eq, List.flatMap_append, List.append_assoc] at hfirst
      exact .step (first?_cut hfirst) (ih next)

theorem span_of_token? {t : Token} (h : l.token? place = some t) :
    t.span = place.span (byteCount l.text) := by
  rw [token?] at h
  cases hp : l.pattern <;> rw [hp] at h <;> cases h <;> rfl

end Lexeme

variable {read : List Char} {before ts behind : List Token} {t u : Token}

/-- The lexeme of one of the tokens. -/
theorem tokensFrom_split (h : (tokensFrom (.after file read) ls).1 = before ++ t :: behind) :
    ∃ front l rest, ls = front ++ l :: rest ∧
      (tokensFrom (.after file read) front).1 = before ∧
      l.token? (.after file (read ++ front.flatMap Lexeme.text)) = some t ∧
      (tokensFrom (.after file (read ++ front.flatMap Lexeme.text ++ l.text)) rest).1 = behind := by
  induction ls generalizing read before with
  | nil => simp [tokensFrom] at h
  | cons l ls ih =>
    have hmore : ∀ before', (tokensFrom (.after file (read ++ l.text)) ls).1 =
        before' ++ t :: behind → (l.token? (.after file read)).toList ++ before' = before →
        ∃ front l' rest, l :: ls = front ++ l' :: rest ∧
          (tokensFrom (.after file read) front).1 = before ∧
          l'.token? (.after file (read ++ front.flatMap Lexeme.text)) = some t ∧
          (tokensFrom (.after file (read ++ front.flatMap Lexeme.text ++ l'.text)) rest).1 =
            behind := by
      intro before' htokens hbefore
      obtain ⟨front, l', rest, rfl, hfront, ht, hrest⟩ := ih htokens
      refine ⟨l :: front, l', rest, rfl, ?_, ?_, ?_⟩
      · rw [tokensFrom_cons, Place.advance_after, hfront, hbefore]
      · rwa [List.flatMap_cons, ← List.append_assoc]
      · rwa [List.flatMap_cons, ← List.append_assoc]
    rw [tokensFrom_cons, Place.advance_after] at h
    cases hl : l.token? (.after file read) with
    | none =>
      rw [hl] at h hmore
      exact hmore before h rfl
    | some u =>
      rw [hl] at h hmore
      cases before with
      | nil =>
        obtain ⟨rfl, hrest⟩ := List.cons.inj h
        exact ⟨[], l, ls, rfl, rfl, by simpa using hl, by simpa using hrest⟩
      | cons v before =>
        obtain ⟨rfl, hrest⟩ := List.cons.inj h
        exact hmore before hrest rfl

/-- Tokens one after the other are those of a piece of text, from the start of the first one to the
end of the last one. -/
theorem tokensFrom_slice (h : Lexeme.Reads text ls [])
    (hts : (tokensFrom (.start file) ls).1 = before ++ ts ++ behind) (hne : ts ≠ []) :
    ∃ head middle tail mid, text = head ++ middle ++ tail ∧ Lexeme.Reads middle mid [] ∧
      (tokensFrom (.after file head) mid).1 = ts ∧
      (∀ t, ts.head? = some t → t.span.start = (Place.after file head).position) ∧
      (∀ u, ts.getLast? = some u → u.span.stop = (Place.after file (head ++ middle)).position) := by
  obtain ⟨us, u, rfl⟩ : ∃ us u, ts = us ++ [u] := ⟨_, _, (List.dropLast_concat_getLast hne).symm⟩
  rw [← Place.after_nil, ← List.append_assoc, List.append_assoc] at hts
  -- First what follows the last token is cut off, then what stands before the first one.
  obtain ⟨front', lu, rest, rfl, hfront', hlu, -⟩ := tokensFrom_split hts
  rw [List.nil_append] at hlu
  have hts' : (tokensFrom (.after file []) (front' ++ [lu])).1 = before ++ (us ++ [u]) := by
    rw [tokensFrom_append, hfront', tokensFrom_stop, List.nil_append, tokensFrom_cons, hlu,
      List.append_assoc]
    rfl
  obtain ⟨t, ts', hcons⟩ := List.exists_cons_of_ne_nil hne
  rw [hcons] at hts' ⊢
  obtain ⟨front, lt, mid, hls, hfront, hlt, hmid⟩ := tokensFrom_split hts'
  rw [List.nil_append] at hlt hmid
  have happend : front' ++ lu :: rest = front ++ ((lt :: mid) ++ rest) := by
    rw [← List.singleton_append, ← List.append_assoc, hls, List.append_assoc]
  have htext : front.flatMap Lexeme.text ++ (lt :: mid).flatMap Lexeme.text =
      front'.flatMap Lexeme.text ++ lu.text := by
    rw [← List.flatMap_append, ← hls, List.flatMap_append, List.flatMap_singleton]
  rw [happend] at h
  refine ⟨front.flatMap Lexeme.text, (lt :: mid).flatMap Lexeme.text, rest.flatMap Lexeme.text,
    lt :: mid, ?_, h.drop.take, ?_, ?_, ?_⟩
  · rw [h.text_eq, List.append_nil, List.flatMap_append, List.flatMap_append, List.append_assoc]
  · rw [tokensFrom_cons, hlt, Place.advance_after, hmid]
    rfl
  · rintro _ ⟨⟩
    rw [Lexeme.span_of_token? hlt]
    rfl
  · intro u' hu'
    rw [← hcons, List.getLast?_concat] at hu'
    obtain rfl := Option.some.inj hu'
    rw [Lexeme.span_of_token? hlu, htext, ← Place.advance_after]
    rfl

/-! The span of a statement that begins with a word or a brace of its own. -/

namespace Parse
variable {α : Type} {start : Position}

/-- Statements that begin at a position and end where the parser ends. -/
def ClosesFrom (start : Position) (p : Parse Statement) : Prop :=
  ∀ c s d, p c = .done s d → s.span = ⟨start, d.lastEnd⟩

theorem closesFrom_bind {p : Parse α} {f : α → Parse Statement}
    (h : ∀ a, ClosesFrom start (f a)) : ClosesFrom start (p >>= f) := by
  intro c s d hs
  obtain ⟨a, e, -, hf⟩ := bind_eq_done.1 hs
  exact h a e s d hf

theorem closesFrom_lastEnd {f : Position → Statement} (h : ∀ p, (f p).span = ⟨start, p⟩) :
    ClosesFrom start (lastEnd >>= fun p => pure (f p)) := by
  intro c s d hs
  obtain ⟨rfl, rfl⟩ := Outcome.done.inj hs
  exact h _

end Parse

theorem StatementForm.closes {form : StatementForm} (hform : form ≠ .any) (r : Readers) (c : Cursor)
    {st : Statement} {d : Cursor} (h : form.read r c = .done st d) :
    st.span = ⟨c.current.span.start, d.lastEnd⟩ := by
  have hadvance : ∀ k : Token → Parse Statement, form.read r = advance >>= k →
      (∀ t, ClosesFrom t.span.start (k t)) → st.span = ⟨c.current.span.start, d.lastEnd⟩ := by
    intro k hk hcloses
    rw [hk, advance_bind] at h
    exact hcloses _ _ _ _ h
  cases form with
  | any => exact absurd rfl hform
  | block =>
    have hblock : StatementForm.read r .block = expectSymbol "\x7b" >>= fun opening =>
        collect r.blockRound >>= fun ss => lastEnd >>= fun stop =>
          pure (.block ⟨ss, opening.span.start, stop⟩) := by
      simp only [StatementForm.read, Readers.block, bind_assoc, pure_bind]
    rw [hblock, expectSymbol, expect_bind] at h
    split at h
    · exact (closesFrom_bind fun _ => closesFrom_lastEnd fun _ => rfl) _ _ _ h
    · cases h
  | declaration | conditional | function | classDefinition =>
    exact hadvance _ rfl fun _ => closesFrom_bind fun _ => closesFrom_bind fun _ =>
      closesFrom_bind fun _ => closesFrom_lastEnd fun _ => rfl
  | result => exact hadvance _ rfl fun _ => closesFrom_bind fun _ => closesFrom_lastEnd fun _ => rfl
  | loop =>
    exact hadvance _ rfl fun _ => closesFrom_bind fun _ => closesFrom_bind fun _ =>
      closesFrom_bind fun _ => closesFrom_bind fun _ => closesFrom_bind fun _ =>
        closesFrom_bind fun _ => closesFrom_lastEnd fun _ => rfl

/-- A statement that is no expression extends from its first token to where reading ended. -/
theorem statement_span {st : Statement} {c d : Cursor}
    (h : Grammar.script.statement c = .done st d)
    (hne : ∀ value span, st ≠ .expression value span) :
    st.span = ⟨c.current.span.start, d.lastEnd⟩ := by
  rw [Grammar.script_statement, Grammar.statementOver, current_bind] at h
  cases hrule : Grammar.script.rules.find? (·.test c.current) with
  | none =>
    rw [hrule] at h
    obtain ⟨e, d', -, hpure⟩ := bind_eq_done.1 h
    exact absurd (Outcome.done.inj hpure).1.symm (hne _ _)
  | some rule =>
    rw [hrule] at h
    exact StatementForm.closes (Grammar.script_rule hrule).2 _ _ h

/-! Statements again, from their own tokens. -/

/-- A position before which so many bytes are taken away. -/
def Position.back (bytes : UInt32) (p : Position) : Position := ⟨p.offset - bytes, p.file⟩

section
variable {c d : Cursor} {tokens : List Token} {st : Statement}

/-- A statement is read from its tokens alone, wherever they are. -/
theorem statement_alone (f : Position → Position) (h : Grammar.script.statement c = .done st d) :
    ∃ ts, ts ≠ [] ∧ c.Passes ts d ∧ ∀ last name, last.kind = .endOfInput →
      ∃ stop, Grammar.script.statement
          (Cursor.start (ts.map (Token.relocate f) ++ [last]) name) = .done (st.relocate f) stop ∧
        stop.current.kind = .endOfInput := by
  obtain ⟨ts, hne, hts, -⟩ := Grammar.statement_settles h
  refine ⟨ts, hne, hts, fun last name hlast => ?_⟩
  have hc : c.current.kind ≠ .endOfInput := by
    obtain ⟨t, ts', rfl⟩ := List.exists_cons_of_ne_nil hne
    obtain ⟨rfl, hk, -⟩ := hts
    exact hk
  -- The tokens are moved with all that follows them, and then the end takes the place of this.
  let moved : Cursor :=
    { consumed := [], upcoming := c.upcoming.map (Token.relocate f)
      finish := ⟨c.finish.text, c.finish.span.relocate f⟩ }
  obtain ⟨us, hus, -, hfresh⟩ := (Grammar.opens_statement (f := f)).fresh c hc d (by rw [h]; rfl)
  obtain rfl : us = ts := hus.unique hts
  obtain ⟨moved', hmoved, hcur⟩ := hus.moved (d := moved) rfl rfl
  have hread := hfresh moved moved' hmoved hcur
  rw [h] at hread
  obtain ⟨vs, -, hvs, hsettle⟩ := Grammar.statement_settles hread
  obtain rfl : vs = us.map (Token.relocate f) := hvs.unique hmoved
  obtain ⟨hconsumed, hup, hfinish⟩ :=
    Cursor.start_closed hlast (us.map (Token.relocate f)) name
  obtain ⟨stop, hstop, hrest⟩ :=
    Cursor.passes_of_upcoming (hup.trans (List.append_nil _).symm) hmoved.kind_ne
  have hend : stop.current = last := by
    rw [Cursor.current, hrest, hstop.lists.2.2, hfinish]
    rfl
  exact ⟨stop, hsettle _ _ hstop (by rw [hconsumed]) (.inr (.inl (hend ▸ hlast))), hend ▸ hlast⟩

end

/-! The text under a span. -/

/-- The text under a span of a source, if there are characters from end to end. -/
def Span.text? (span : Span) (source : String) : Option String := do
  let (_, rest) ← cutAt? span.start.offset.toNat source.toList
  let (text, _) ← cutAt? (span.stop.offset.toNat - span.start.offset.toNat) rest
  return String.ofList text

theorem Span.text?_after {head middle tail : List Char} {source : String}
    (htext : source.toList = head ++ middle ++ tail) (hsize : source.utf8ByteSize ≤ maxOffset) :
    Span.text? ⟨(Place.after file head).position, (Place.after file (head ++ middle)).position⟩
      source = some (String.ofList middle) := by
  rw [← byteCount_toList, htext, byteCount_append, byteCount_append] at hsize
  rw [text?, Place.offset_after (by omega), Place.offset_after (by rw [byteCount_append]; omega),
    htext, List.append_assoc, cutAt?_byteCount, byteCount_append, Nat.add_sub_cancel_left]
  simp only [Option.bind_eq_bind, Option.bind_some, cutAt?_byteCount]
  rfl

/-- Where a piece of text stands alone, its tokens are moved back by what stood before it. -/
theorem tokensFrom_back {head middle : List Char} {mid : List Lexeme}
    (hsize : byteCount (head ++ middle) ≤ maxOffset) (h : Lexeme.Reads middle mid []) :
    (tokensFrom (.start file) mid).1 = (tokensFrom (.after file head) mid).1.map
      (Token.relocate (Position.back (Place.after file head).position.offset)) := by
  have hhead : (Place.after file head).position.offset.toNat = byteCount head :=
    Place.offset_after (by rw [byteCount_append] at hsize; omega)
  generalize (Place.after file head).position.offset = bytes at hhead
  let ahead : Position → Position := fun p => ⟨p.offset + bytes, p.file⟩
  have hmoves : MovesBehind ahead file head middle := by
    refine movesBehind_of_offset hsize fun p hp => ⟨rfl, ?_⟩
    rw [byteCount_append, maxOffset] at hsize
    rw [UInt32.toNat_add, hhead]
    exact Nat.mod_eq_of_lt (by omega)
  have hprefix : [] ++ mid.flatMap Lexeme.text <+: middle := ⟨[], h.text_eq.symm⟩
  have hahead := tokensFrom_moves hmoves hprefix
  have hback : Token.relocate (Position.back bytes) ∘ Token.relocate ahead = id := by
    funext t
    obtain ⟨kind, text, ⟨start, startFile⟩, ⟨stop, stopFile⟩⟩ := t
    simp only [Function.comp_apply, Token.relocate, Span.relocate, Position.back, ahead,
      UInt32.add_sub_cancel, id]
  rw [List.append_nil, Place.after_nil] at hahead
  rw [hahead, List.map_map, hback, List.map_id]

theorem Cursor.Passes.ends {c d : Cursor} (h : c.Passes ts d) (hne : ts ≠ []) :
    ts.head? = some c.current ∧ ∃ u, ts.getLast? = some u ∧ d.lastEnd = u.span.stop := by
  constructor
  · obtain ⟨t, ts', rfl⟩ := List.exists_cons_of_ne_nil hne
    rw [h.1, List.head?_cons]
  · obtain ⟨us, u, rfl⟩ : ∃ us u, ts = us ++ [u] := ⟨_, _, (List.dropLast_concat_getLast hne).symm⟩
    refine ⟨u, List.getLast?_concat, ?_⟩
    rw [lastEnd, h.lists.2.1, List.reverse_append]
    rfl

/-- The span of a statement covers just its own text. The text under the span of a statement that
is no expression, at any depth of a program, gives tokens from which the statement is read again,
moved to the beginning, and then comes the end of the input. -/
theorem statements_alone {source : String} {origin : Option String} {name : String}
    {program : Block} {st : Statement} (h : Accepted source origin name program)
    (hst : (Node.statement st).Within (.block program))
    (hne : ∀ value span, st ≠ .expression value span) :
    ∃ text tokens stop, st.span.text? source = some text ∧ tokenize text origin = .ok tokens ∧
      Grammar.script.statement (Cursor.start tokens name) =
        .done (st.relocate (Position.back st.span.start.offset)) stop ∧
      stop.current.kind = .endOfInput := by
  obtain ⟨tokens, stop, htokens, hparse⟩ := h
  obtain ⟨hsize, ls, hreads, rfl⟩ := reads_of_tokenize htokens
  obtain ⟨-, -, -, hread⟩ := parse_lays ⟨_, tokens_along htokens⟩ (by simp [Token.endAt]) hparse
  obtain ⟨c, d, hc, hd⟩ :
      ∃ c d : Cursor, c.tokens = _ ∧ Grammar.script.statement c = .done st d := by
    cases hst with
    | child hmem hst =>
      obtain ⟨s, hs, rfl⟩ := List.mem_map.1 hmem
      obtain ⟨-, hstatement, -⟩ := (hread s hs).within hst
      exact hstatement st rfl
  obtain ⟨ts, htsne, hts, halone⟩ :=
    statement_alone (Position.back st.span.start.offset) hd
  rw [Cursor.tokens, hts.lists.1, ← List.append_assoc c.consumed.reverse] at hc
  obtain ⟨hlist, -⟩ := List.append_inj' hc rfl
  obtain ⟨head, middle, tail, mid, htext, hmid, hfrom, hstart, hstop⟩ :=
    tokensFrom_slice hreads hlist.symm htsne
  obtain ⟨hfirst, u, hu, hlast⟩ := hts.ends htsne
  have hspan := statement_span hd hne
  rw [hstart _ hfirst, hlast, hstop u hu] at hspan
  have hmiddle : byteCount (head ++ middle) ≤ maxOffset := by
    rw [← byteCount_toList, htext, byteCount_append] at hsize
    omega
  have hslice : (String.ofList middle).utf8ByteSize ≤ maxOffset := by
    rw [utf8ByteSize_ofList]
    rw [byteCount_append] at hmiddle
    omega
  obtain ⟨stop', hstatement, hend⟩ := halone (.endAt _) name rfl
  refine ⟨String.ofList middle, _, stop', ?_,
    tokenize_of_reads hslice (by rwa [String.toList_ofList]) origin, ?_, hend⟩
  · rw [hspan]
    exact Span.text?_after htext hsize
  · rw [tokensFrom_back hmiddle hmid, hfrom, ← hstatement, hspan]

/-- A declaration in a block of the second statement. -/
theorem statements_alone_nested :
    let source := "x\nif a { let y }"
    ∃ program st tokens stop, Accepted source none "shell" program ∧
      (Node.statement st).Within (.block program) ∧ st.span.text? source = some "let y" ∧
      tokenize "let y" none = .ok tokens ∧
      Grammar.script.statement (Cursor.start tokens "shell") =
        .done (st.relocate (Position.back 9)) stop ∧ stop.current.kind = .endOfInput := by
  intro source
  have hcheck : isProgram source none "shell" (fun b =>
      (Node.block b).children.any fun outer => outer.children.any fun body => body.children.any fun
        | .statement st => !st.endsOpen && st.span = ⟨⟨9, "shell"⟩, ⟨14, "shell"⟩⟩
        | .expr _ | .block _ => false) = true := by decide +kernel
  obtain ⟨program, h, htest⟩ := exists_of_isProgram hcheck
  simp only [List.any_eq_true] at htest
  obtain ⟨outer, houter, body, hbody, inner, hinner, htest⟩ := htest
  cases inner with
  | expr | block => cases htest
  | statement st =>
    rw [Bool.and_eq_true, Bool.not_eq_true', decide_eq_true_eq] at htest
    obtain ⟨hclosed, hspan⟩ := htest
    have hst : (Node.statement st).Within (.block program) :=
      .child houter (.child hbody (.child hinner (.refl _)))
    have hne : ∀ value span, st ≠ .expression value span := by
      rintro value span rfl
      cases hclosed
    obtain ⟨text, tokens, stop, htext, htokens, hstatement, hend⟩ := statements_alone h hst hne
    have hcut : st.span.text? source = some "let y" := by
      rw [hspan]
      decide +kernel
    obtain rfl : "let y" = text := Option.some.inj (hcut.symm.trans htext)
    rw [hspan] at hstatement
    exact ⟨program, st, tokens, stop, h, hst, hcut, htokens, hstatement, hend⟩

end ScriptSyntax
