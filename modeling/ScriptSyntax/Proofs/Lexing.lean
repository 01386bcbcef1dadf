import ScriptSyntax.Proofs.Scanning
import ScriptSyntax.Proofs.Vocabulary

/-! What the lexer makes of source text: its tokens are genuine and end with the end of the input,
and each list of words that it knows is the outcome of some text. -/
namespace ScriptSyntax
variable {ws : List Terminal} {w : Terminal} {rest : List Char}

/-! Tokens of a source. -/

/-- A lexeme gives a genuine token, and none that ends the input. -/
theorem Lexeme.token?_genuine {place : Place} {l : Lexeme} {t : Token}
    (hp : l.pattern ∈ Pattern.all) (hread : ∃ text, l.pattern.read? text = some l.text)
    (ht : l.token? place = some t) : t.Genuine ∧ t.kind ≠ .endOfInput := by
  obtain ⟨text, hread⟩ := hread
  rw [token?] at ht
  cases hpattern : l.pattern with
  | word =>
    rw [hpattern] at ht
    obtain rfl := Option.some.inj ht
    cases hk : Keyword.ofText? (String.ofList l.text) with
    | none => exact ⟨⟨by simp, by simp⟩, by simp⟩
    | some word =>
      refine ⟨⟨by simp, fun word' hw => ?_⟩, by simp⟩
      simp only [Option.elim_some, TokenKind.keyword.injEq] at hw
      rw [← hw]
      exact Keyword.ofText?_eq_some_iff.1 hk
  | symbol s =>
    rw [hpattern] at ht hread hp
    obtain rfl := Option.some.inj ht
    have hs : s ∈ Pattern.symbols := by simpa [Pattern.all] using hp
    have htext : l.text = s :=
      Pattern.matches_symbol.1 (Pattern.matches_of_read? (p := .symbol s) hread)
    refine ⟨⟨fun _ => ?_, by simp⟩, by simp⟩
    rwa [String.toList_ofList, htext]
  | number | newLine | string =>
    rw [hpattern] at ht
    obtain rfl := Option.some.inj ht
    exact ⟨⟨by simp, by simp⟩, by simp⟩
  | blanks | comment =>
    rw [hpattern] at ht
    cases ht

theorem tokensFrom_genuine {ls : List Lexeme} (place : Place)
    (h : ∀ l ∈ ls, l.pattern ∈ Pattern.all ∧ ∃ t, l.pattern.read? t = some l.text) :
    ∀ t ∈ (tokensFrom place ls).1, t.Genuine ∧ t.kind ≠ .endOfInput :=
  tokensFrom_forall place fun l hl _ _ ht => l.token?_genuine (h l hl).1 (h l hl).2 ht

/-- The tokens of a source whatever its size. -/
def scan (source : String) (file : Option String) : Except Error (List Token) :=
  let (lexemes, rest) := Lexeme.readAll source.toList
  let (tokens, stop) := tokensFrom (Place.start (file.getD defaultFile)) lexemes
  match rest with
  | [] => .ok (tokens ++ [.endAt stop.position])
  | c :: _ => .error ⟨.unrecognised (String.singleton c), stop.position⟩

theorem tokenize_eq_scan {source : String} (file : Option String)
    (h : source.utf8ByteSize ≤ maxOffset) : tokenize source file = scan source file :=
  if_neg (Nat.not_lt.2 h)

theorem scan_of_tokenize {source : String} {file : Option String} {tokens : List Token}
    (h : tokenize source file = .ok tokens) : scan source file = .ok tokens := by
  rw [tokenize] at h
  split at h
  · cases h
  · exact h

/-- Tokens of a source: genuine ones, and an end of input behind them. -/
theorem scan_tokens {source : String} {file : Option String} {tokens : List Token}
    (h : scan source file = .ok tokens) : ∃ before t, tokens = before ++ [t] ∧
      t.kind = .endOfInput ∧ ∀ t ∈ before, t.Genuine ∧ t.kind ≠ .endOfInput := by
  simp only [scan] at h
  split at h
  · refine ⟨_, _, (Except.ok.inj h).symm, rfl, ?_⟩
    exact tokensFrom_genuine _ (Lexeme.reads_readAll _).pattern
  · cases h

/-! Words as source text. -/

/-- A character inside a string literal. -/
def StringLiteral.escape : Char → List Char
  | '\\' => ['\\', '\\']
  | '"' => ['\\', '"']
  | '\n' => ['\\', 'n']
  | c => [c]

/-- The text of a word. -/
def Terminal.spelled : Terminal → List Char
  | endOfInput => []
  | newLine => ['\n']
  | number text | symbol text | name text => text.toList
  | string value => '"' :: (value.toList.flatMap StringLiteral.escape ++ ['"'])
  | keyword word => word.text.toList

/-- Words with a blank after each. -/
def spell (ws : List Terminal) : List Char := ws.flatMap fun w => w.spelled ++ [' ']

namespace StringLiteral

theorem tail?_escape (cs rest : List Char) :
    tail? (cs.flatMap escape ++ '"' :: rest) = some (cs.flatMap escape ++ ['"']) := by
  induction cs with
  | nil => rfl
  | cons c cs ih =>
    rw [List.flatMap_cons, List.append_assoc, List.append_assoc]
    rw [escape.eq_def]
    split
    · simp [tail?, ih]
    · simp [tail?, ih]
    · simp [tail?, ih]
    · next hslash hquote hline =>
      rw [List.singleton_append, List.singleton_append, tail?_cons hquote hslash hline, ih]
      rfl

theorem unescape_escape (cs : List Char) : unescape (cs.flatMap escape) = cs := by
  induction cs with
  | nil => rfl
  | cons c cs ih =>
    rw [List.flatMap_cons, escape.eq_def]
    split
    · simp [unescape, meaning, ih]
    · simp [unescape, meaning, ih]
    · simp [unescape, meaning, ih]
    · next hslash _ _ =>
      rw [List.singleton_append, unescape.eq_def]
      split
      · next h => exact absurd (List.cons.inj h).1 hslash
      · next h =>
        obtain ⟨rfl, rfl⟩ := List.cons.inj h
        rw [ih]
      · next h => cases h

end StringLiteral

namespace Lexeme

theorem first?_symbol_blank {s : List Char} (h : s ∈ Pattern.symbols) (rest : List Char) :
    first? (s ++ ' ' :: rest) = some ⟨.symbol s, s⟩ := by
  simp only [Pattern.symbols, List.mem_cons, List.not_mem_nil, or_false] at h
  rcases h with rfl | rfl | rfl | rfl | rfl | rfl | rfl | rfl | rfl | rfl | rfl | rfl | rfl |
    rfl | rfl | rfl | rfl | rfl | rfl | rfl | rfl | rfl | rfl | rfl | rfl | rfl | rfl <;> rfl

theorem readString?_escape (cs rest : List Char) :
    Pattern.readString? ('"' :: (cs.flatMap StringLiteral.escape ++ ['"']) ++ rest) =
      some ('"' :: (cs.flatMap StringLiteral.escape ++ ['"'])) := by
  rw [List.cons_append, List.append_assoc, Pattern.readString?, List.singleton_append,
    StringLiteral.tail?_escape]
  rfl

/-- A word before a blank is read as one lexeme, which gives the word back. -/
theorem first?_spelled (hw : w.Lexical) (rest : List Char) :
    ∃ l, first? (w.spelled ++ ' ' :: rest) = some l ∧ l.text = w.spelled ∧
      ∀ place, (l.token? place).map Token.terminal = some w := by
  cases w with
  | endOfInput => exact hw.elim
  | newLine => exact ⟨⟨.newLine, ['\n']⟩, rfl, rfl, fun _ => rfl⟩
  | number text =>
    have hread : Pattern.readNumber? text.toList = some text.toList := hw
    have hbehind := Pattern.readNumber?_behind (c := ' ') (by decide) (by decide) text.toList rest
    refine ⟨⟨.number, text.toList⟩, first?_number (hbehind.trans hread), rfl, fun _ => ?_⟩
    simp [token?, Token.terminal]
  | string value =>
    refine ⟨⟨.string, (Terminal.string value).spelled⟩, first?_string
      (readString?_escape value.toList _), rfl, fun _ => ?_⟩
    simp [token?, Token.terminal, Terminal.spelled, StringLiteral.denoted,
      StringLiteral.unescape_escape]
  | symbol text =>
    refine ⟨⟨.symbol text.toList, text.toList⟩, first?_symbol_blank hw rest, rfl, fun _ => ?_⟩
    simp [token?, Token.terminal]
  | name x =>
    obtain ⟨hread, hkeyword⟩ := hw
    have hbehind := Pattern.readWord?_behind (c := ' ') (by decide) x.toList rest
    refine ⟨⟨.word, x.toList⟩, first?_word (hbehind.trans hread), rfl, fun _ => ?_⟩
    simp [token?, Token.terminal, hkeyword]
  | keyword word =>
    have hread : Pattern.readWord? word.text.toList = some word.text.toList := by
      cases word <;> decide +kernel
    have hbehind := Pattern.readWord?_behind (c := ' ') (by decide) word.text.toList rest
    refine ⟨⟨.word, word.text.toList⟩, first?_word (hbehind.trans hread), rfl, fun _ => ?_⟩
    simp [token?, Token.terminal, Keyword.ofText?_text]

end Lexeme

/-- No word begins with a blank, for blanks leave no token. -/
theorem takeWhile_spell (h : ∀ w ∈ ws, w.Lexical) : (spell ws).takeWhile isBlank = [] := by
  cases ws with
  | nil => rfl
  | cons w ws =>
    obtain ⟨l, hl, htext, htoken⟩ := Lexeme.first?_spelled (h w List.mem_cons_self) (spell ws)
    rw [spell, List.flatMap_cons, List.append_assoc]
    cases hs : w.spelled with
    | nil =>
      obtain ⟨hne, -⟩ := Lexeme.first?_isPrefix hl
      exact absurd (htext.trans hs) hne
    | cons c cs =>
      by_cases hc : isBlank c = true
      · have hread := Pattern.readBlanks?_cons hc (cs ++ ' ' :: spell ws)
        rw [hs, List.cons_append, Lexeme.first?_blanks hread] at hl
        obtain rfl := Option.some.inj hl
        cases htoken default
      · rw [List.cons_append, List.takeWhile_cons, if_neg hc]

/-- The tokens of a text of words are these words. -/
theorem reads_spell (h : ∀ w ∈ ws, w.Lexical) :
    ∃ ls, Lexeme.Reads (spell ws) ls [] ∧
      ∀ place, (tokensFrom place ls).1.map Token.terminal = ws := by
  induction ws with
  | nil => exact ⟨[], .stop rfl, fun _ => rfl⟩
  | cons w ws ih =>
    obtain ⟨hw, hws⟩ := List.forall_mem_cons.1 h
    obtain ⟨ls, hls, hwords⟩ := ih hws
    obtain ⟨l, hl, htext, htoken⟩ := Lexeme.first?_spelled hw (spell ws)
    have hblank : Lexeme.first? ([' '] ++ spell ws) = some ⟨.blanks, [' ']⟩ := by
      rw [List.singleton_append, Lexeme.first?_blanks (Pattern.readBlanks?_cons (by decide) _),
        takeWhile_spell hws]
    have hbehind := Lexeme.Reads.step (l := ⟨.blanks, [' ']⟩) hblank hls
    refine ⟨l :: ⟨.blanks, [' ']⟩ :: ls, ?_, fun place => ?_⟩
    · rw [spell, List.flatMap_cons, List.append_assoc, ← htext]
      rw [← htext] at hl
      exact .step hl hbehind
    · obtain ⟨t, ht, htw⟩ := Option.map_eq_some_iff.1 (htoken place)
      have hnone : ∀ p, Lexeme.token? p ⟨.blanks, [' ']⟩ = none := fun _ => rfl
      simp only [tokensFrom, ht, hnone, Option.toList_some, Option.toList_none,
        List.nil_append, List.singleton_append, List.map_cons, htw, hwords]

/-- A list of words is what the lexer makes of their text. -/
theorem scan_spell (h : ∀ w ∈ ws, w.Lexical) (file : Option String) :
    ∃ before t, scan (String.ofList (spell ws)) file = .ok (before ++ [t]) ∧
      t.kind = .endOfInput ∧ (∀ t ∈ before, t.Genuine ∧ t.kind ≠ .endOfInput) ∧
        before.map Token.terminal = ws := by
  obtain ⟨ls, hls, hwords⟩ := reads_spell h
  refine ⟨(tokensFrom (Place.start (file.getD defaultFile)) ls).1,
    .endAt (tokensFrom (Place.start (file.getD defaultFile)) ls).2.position, ?_, rfl, ?_,
    hwords _⟩
  · rw [scan, String.toList_ofList, hls.readAll_eq]
  · exact tokensFrom_genuine _ hls.pattern

end ScriptSyntax
