import ScriptSyntax.Proofs.Splitting

/-! The tokens of a source tile it: between them there is nothing but blanks and comments. -/
namespace ScriptSyntax
open Text

/-- Blanks and comments, each comment reaching up to the end of its line or of the source. The
second text is what follows them. -/
inductive Skipped : List Char → List Char → Prop where
  | nil {rest : List Char} : Skipped [] rest
  | blanks {run gap rest : List Char} (h : Pattern.blanks.regex.Matches run)
      (next : Skipped gap rest) : Skipped (run ++ gap) rest
  | comment {text gap rest : List Char} (h : Pattern.comment.regex.Matches text)
      (hend : gap ++ rest = [] ∨ ∃ after, gap ++ rest = '\n' :: after)
      (next : Skipped gap rest) : Skipped (text ++ gap) rest

namespace Token

/-- What a token says of the piece of source text that it stands for. -/
def Shows (t : Token) (piece : List Char) : Prop :=
  match t.kind with
  | .endOfInput => piece = []
  | .newLine => piece = t.text.toList ∧ Pattern.newLine.regex.Matches piece
  | .number => piece = t.text.toList ∧ Pattern.number.regex.Matches piece
  | .symbol => piece = t.text.toList ∧ piece ∈ Pattern.symbols
  | .string => Pattern.string.regex.Matches piece ∧ t.text.toList = StringLiteral.denoted piece
  | .name => piece = t.text.toList ∧ Pattern.word.regex.Matches piece ∧
      ∀ word : Keyword, t.text ≠ word.text
  | .keyword word => piece = t.text.toList ∧ t.text = word.text

/-- The span of a token is that of a piece behind the text read before it. -/
structure Covers (t : Token) (file : String) (read piece : List Char) : Prop where
  start : t.span.start.offset.toNat = byteCount read
  stop : t.span.stop.offset.toNat = byteCount (read ++ piece)
  startFile : t.span.start.file = file
  stopFile : t.span.stop.file = file

end Token

/-- Tokens that tile a text behind the text already read. -/
inductive Tiles (file : String) : List Char → List Char → List Token → Prop where
  | last {read gap : List Char} {t : Token} (hgap : Skipped gap [])
      (hspan : t.Covers file (read ++ gap) []) (hkind : t.kind = .endOfInput) :
      Tiles file read gap [t]
  | token {read gap piece rest : List Char} {t : Token} {ts : List Token}
      (hgap : Skipped gap (piece ++ rest)) (hspan : t.Covers file (read ++ gap) piece)
      (hkind : t.kind ≠ .endOfInput) (hshows : t.Shows piece) (hne : piece ≠ [])
      (next : Tiles file (read ++ gap ++ piece) rest ts) :
      Tiles file read (gap ++ piece ++ rest) (t :: ts)

variable {file : String} {read text rest gap piece : List Char} {t : Token} {ts : List Token}
  {l : Lexeme} {ls : List Lexeme}

theorem Lexeme.covers_after (h : byteCount (read ++ piece) ≤ maxOffset) {kind : TokenKind}
    {value : String} :
    Token.Covers ⟨kind, value, (Place.after file read).span (byteCount piece)⟩ file read piece where
  start := Place.offset_after (by rw [byteCount_append] at h; omega)
  stop := by
    rw [Place.span, Place.advance_after]
    exact Place.offset_after h
  startFile := rfl
  stopFile := rfl

/-- A lexeme that is not skipped gives a token for its text. -/
theorem Lexeme.token?_covers (hfirst : first? (l.text ++ rest) = some l)
    (h : byteCount (read ++ l.text) ≤ maxOffset)
    (ht : l.token? (.after file read) = some t) :
    t.Covers file read l.text ∧ t.kind ≠ .endOfInput ∧ t.Shows l.text := by
  obtain ⟨hp, hread⟩ := first?_pattern hfirst
  have hl := Pattern.matches_of_read? hread
  rw [token?] at ht
  cases hpattern : l.pattern with
  | word =>
    rw [hpattern] at ht hl
    obtain rfl := Option.some.inj ht
    refine ⟨covers_after h, ?_⟩
    cases hk : Keyword.ofText? (String.ofList l.text) with
    | none =>
      refine ⟨by simp, String.toList_ofList.symm, hl, fun word heq => ?_⟩
      rw [Keyword.ofText?_eq_some_iff.2 heq] at hk
      cases hk
    | some word => exact ⟨by simp, String.toList_ofList.symm, Keyword.ofText?_eq_some_iff.1 hk⟩
  | symbol s =>
    rw [hpattern] at ht hp hl
    obtain rfl := Option.some.inj ht
    rw [Pattern.matches_symbol] at hl
    refine ⟨covers_after h, by simp, String.toList_ofList.symm, ?_⟩
    rw [hl]
    simpa [Pattern.all] using hp
  | string =>
    rw [hpattern] at ht hl
    obtain rfl := Option.some.inj ht
    exact ⟨covers_after h, by simp, hl, String.toList_ofList⟩
  | number | newLine =>
    rw [hpattern] at ht hl
    obtain rfl := Option.some.inj ht
    exact ⟨covers_after h, by simp, String.toList_ofList.symm, hl⟩
  | blanks | comment =>
    rw [hpattern] at ht
    cases ht

/-- A lexeme that is skipped belongs to the gap before the next token. -/
theorem Lexeme.token?_skipped (hfirst : first? (l.text ++ rest) = some l) {place : Place}
    (ht : l.token? place = none) :
    Pattern.blanks.regex.Matches l.text ∨ Pattern.comment.regex.Matches l.text ∧
      (rest = [] ∨ ∃ after, rest = '\n' :: after) := by
  have hl := Pattern.matches_of_read? (first?_pattern hfirst).2
  rw [token?] at ht
  cases hpattern : l.pattern with
  | word | number | newLine | string | symbol =>
    rw [hpattern] at ht
    cases ht
  | blanks => exact .inl (hpattern ▸ hl)
  | comment =>
    rw [hpattern] at hl
    refine .inr ⟨hl, ?_⟩
    cases rest with
    | nil => exact .inl rfl
    | cons c rest =>
      refine .inr ⟨rest, congrArg (· :: rest) ?_⟩
      by_contra hc
      exact Lexeme.ends hfirst (isPiece_comment_grow hl hc)

theorem Tiles.skip (h : Tiles file (read ++ gap) text ts)
    (hgap : ∀ gap' rest, text = gap' ++ rest → Skipped gap' rest → Skipped (gap ++ gap') rest) :
    Tiles file read (gap ++ text) ts := by
  cases h with
  | last hgap' hspan hkind =>
    rw [List.append_assoc] at hspan
    exact .last (hgap _ [] (by simp) hgap') hspan hkind
  | @token _ gap' piece rest t ts hgap' hspan hkind hshows hne next =>
    rw [List.append_assoc read] at hspan next
    rw [← List.append_assoc, ← List.append_assoc]
    exact .token (hgap _ _ (by simp) hgap') hspan hkind hshows hne next

theorem Tiles.adjacent (hspan : t.Covers file read piece) (hkind : t.kind ≠ .endOfInput)
    (hshows : t.Shows piece) (hne : piece ≠ []) (next : Tiles file (read ++ piece) rest ts) :
    Tiles file read (piece ++ rest) (t :: ts) := by
  rw [← List.append_nil read] at hspan next
  exact .token .nil hspan hkind hshows hne next

theorem tiles_of_reads (h : Lexeme.Reads text ls [])
    (hsize : byteCount (read ++ text) ≤ maxOffset) :
    Tiles file read text ((tokensFrom (.after file read) ls).1 ++
      [.endAt (Place.after file (read ++ text)).position]) := by
  generalize hnil : ([] : List Char) = last at h
  induction h generalizing read with
  | stop h =>
    subst hnil
    rw [List.append_nil] at hsize ⊢
    refine .last .nil ?_ rfl
    rw [List.append_nil]
    have hend := @Place.offset_after file _ hsize
    exact ⟨hend, by rwa [List.append_nil], rfl, rfl⟩
  | @step l ls rest last hfirst _ ih =>
    rw [← List.append_assoc] at hsize ⊢
    have hnext := ih hsize hnil
    have hle : byteCount (read ++ l.text) ≤ maxOffset := by
      rw [byteCount_append] at hsize
      omega
    rw [tokensFrom, Place.advance_after]
    cases ht : l.token? (Place.after file read) with
    | none =>
      refine hnext.skip fun gap rest' hrest hgap => ?_
      rcases Lexeme.token?_skipped hfirst ht with hblanks | ⟨hcomment, hend⟩
      · exact .blanks hblanks hgap
      · exact .comment hcomment (hrest ▸ hend) hgap
    | some t =>
      obtain ⟨hspan, hkind, hshows⟩ := Lexeme.token?_covers hfirst hle ht
      have hne := (Lexeme.first?_isPrefix hfirst).1
      exact .adjacent hspan hkind hshows hne hnext

theorem Tiles.ne_nil (h : Tiles file read text ts) : ts ≠ [] := by
  cases h <;> exact List.cons_ne_nil _ _

/-- Each token covers a character at least, but for the end of the input. -/
theorem Tiles.length_le (h : Tiles file read text ts) : ts.length ≤ text.length + 1 := by
  induction h with
  | last => exact Nat.le_add_left _ _
  | token _ _ _ _ hne _ ih =>
    have hpiece := List.length_pos_iff.2 hne
    rw [List.length_cons, List.length_append, List.length_append]
    omega

/-- The tokens of a source tile its text. -/
theorem tiles_of_tokenize {source : String} {origin : Option String} {tokens : List Token}
    (h : tokenize source origin = .ok tokens) : source.utf8ByteSize ≤ maxOffset ∧
      Tiles (origin.getD defaultFile) [] source.toList tokens := by
  obtain ⟨hsize, ls, hreads, rfl⟩ := reads_of_tokenize h
  refine ⟨hsize, tiles_of_reads hreads ?_⟩
  rwa [List.nil_append, byteCount_toList]

/-- A source has no more tokens than bytes, apart from the end of the input. -/
theorem tokenize_length_le {source : String} {origin : Option String} {tokens : List Token}
    (h : tokenize source origin = .ok tokens) : tokens.length ≤ source.utf8ByteSize + 1 := by
  obtain ⟨-, htiles⟩ := tiles_of_tokenize h
  have hlength := length_le_byteCount source.toList
  rw [byteCount_toList] at hlength
  exact htiles.length_le.trans (Nat.succ_le_succ hlength)

/-- The offset at which tokens end that begin at a given one. -/
def endOffset (start : Nat) : List Token → Nat
  | [] => start
  | t :: ts => endOffset t.span.stop.offset.toNat ts

/-- Every token of a tiling stands behind what the tokens before it reach up to and a gap that is
skipped. -/
theorem Tiles.split (h : Tiles file read text ts) {left right : List Token}
    (hts : ts = left ++ t :: right) :
    ∃ before gap piece rest, read ++ text = before ++ gap ++ piece ++ rest ∧
      endOffset (byteCount read) left = byteCount before ∧ Skipped gap (piece ++ rest) ∧
      t.Covers file (before ++ gap) piece ∧ t.Shows piece ∧
      (t.kind = .endOfInput ↔ right = []) ∧ (piece = [] ↔ right = []) ∧
      (right = [] → rest = []) := by
  induction h generalizing left with
  | @last read gap u hgap hspan hkind =>
    cases left with
    | nil =>
      obtain ⟨rfl, rfl⟩ := List.cons.inj hts
      refine ⟨read, gap, [], [], by simp, rfl, hgap, hspan, ?_, by simp [hkind], by simp, by simp⟩
      rw [Token.Shows, hkind]
    | cons v left => simp at hts
  | @token read gap piece rest u ts hgap hspan hkind hshows hne next ih =>
    cases left with
    | nil =>
      obtain ⟨rfl, rfl⟩ := List.cons.inj hts
      have hright := next.ne_nil
      exact ⟨read, gap, piece, rest, by simp, rfl, hgap, hspan, hshows, by simp [hkind, hright],
        by simp [hne, hright], fun h => absurd h hright⟩
    | cons v left =>
      obtain ⟨rfl, hrest⟩ := List.cons.inj hts
      obtain ⟨before, gap', piece', rest', htext, hend, hlies⟩ := ih hrest
      refine ⟨before, gap', piece', rest', by simpa using htext, ?_, hlies⟩
      rw [endOffset, hspan.stop, hend]

/-- The tokens of a source tile it. Each one covers a piece that it shows, behind a gap of blanks
and comments that begins where the token before it ends; no offset is cut off. Only the last one
ends the input and covers nothing, at the end of the source. -/
theorem tokens_tile {source : String} {file : Option String} {tokens : List Token}
    (h : tokenize source file = .ok tokens) :
    tokens ≠ [] ∧ ∀ left t right, tokens = left ++ t :: right →
      ∃ before gap piece rest, source.toList = before ++ gap ++ piece ++ rest ∧
        endOffset 0 left = byteCount before ∧ Skipped gap (piece ++ rest) ∧
        t.Covers (file.getD defaultFile) (before ++ gap) piece ∧ t.Shows piece ∧
        (t.kind = .endOfInput ↔ right = []) ∧ (piece = [] ↔ right = []) ∧
        (right = [] → t.span.start.offset.toNat = source.utf8ByteSize) := by
  obtain ⟨-, htiles⟩ := tiles_of_tokenize h
  refine ⟨htiles.ne_nil, fun left t right hts => ?_⟩
  obtain ⟨before, gap, piece, rest, htext, hend, hgap, hspan, hshows, hkind, hpiece, hrest⟩ :=
    htiles.split hts
  refine ⟨before, gap, piece, rest, htext, hend, hgap, hspan, hshows, hkind, hpiece,
    fun hright => ?_⟩
  obtain rfl := hpiece.2 hright
  rw [hspan.start, ← byteCount_toList, ← List.nil_append source.toList, htext, hrest hright,
    List.append_nil, List.append_nil]

/-- A comment with a character of two bytes in the gap before the end of its line. -/
theorem tokens_tile_comment :
    let place : UInt32 → Position := fun offset => ⟨offset, "shell"⟩
    let x : Token := ⟨.name, "x", place 0, place 1⟩
    let line : Token := ⟨.newLine, "\n", place 7, place 8⟩
    tokenize "x // é\n" none = .ok [x, line, .endAt (place 8)] ∧ ∃ before gap piece rest,
      "x // é\n".toList = before ++ gap ++ piece ++ rest ∧ endOffset 0 [x] = byteCount before ∧
        Skipped gap (piece ++ rest) ∧ line.Covers "shell" (before ++ gap) piece ∧
        line.Shows piece := by
  intro place x line
  have htokens : tokenize "x // é\n" none = .ok [x, line, .endAt (place 8)] := by decide +kernel
  obtain ⟨before, gap, piece, rest, htext, hend, hgap, hspan, hshows, -⟩ :=
    (tokens_tile htokens).2 [x] line _ rfl
  exact ⟨htokens, before, gap, piece, rest, htext, hend, hgap, hspan, hshows⟩

end ScriptSyntax
