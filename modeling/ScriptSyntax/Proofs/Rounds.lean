import ScriptSyntax.Proofs.Matching
import ScriptSyntax.Proofs.Scanning
import ScriptSyntax.SourceReader

/-! The lexer as a loop that moves a reader over the source, one match in a round. -/
namespace ScriptSyntax
open Text

namespace Lexeme
variable {text : List Char} {l : Lexeme}

/-- What the first pattern to match at the beginning of a text matches there. -/
def firstMatch? (text : List Char) : Option Lexeme :=
  Pattern.all.findSome? fun p => (p.regex.find? text).map (Lexeme.mk p)

theorem firstMatch?_eq (text : List Char) : firstMatch? text = first? text :=
  findSome?_congr fun p hp => by rw [Pattern.find?_regex hp]

/-- A piece at the beginning of a text that every match of a pattern there is a part of. -/
structure IsLongest (text piece : List Char) : Prop where
  ne_nil : piece ≠ []
  isPrefix : piece <+: text
  longest : ∀ p ∈ Pattern.all, ∀ s, s <+: text → p.regex.Matches s → s <+: piece

theorem isLongest_of_first? (h : first? text = some l) : IsLongest text l.text := by
  obtain ⟨hne, hpre⟩ := first?_isPrefix h
  refine ⟨hne, hpre, fun p hp s hs hmatches => ?_⟩
  obtain ⟨rest, rfl⟩ := hs
  rcases eq_or_ne s [] with rfl | hs
  · exact List.nil_prefix
  · obtain ⟨l', hl', hlong⟩ := first?_longest hp hmatches hs rest
    obtain rfl := Option.some.inj (h.symm.trans hl')
    exact hlong

theorem not_matches_of_first? (h : first? text = none) {p : Pattern} (hp : p ∈ Pattern.all)
    {s : List Char} (hs : s <+: text) : ¬ p.regex.Matches s := by
  rw [← firstMatch?_eq, firstMatch?, List.findSome?_eq_none_iff] at h
  exact Regex.find?_eq_none_iff.1 (Option.map_eq_none_iff.1 (h p hp)) s hs

end Lexeme

/-- Where a lexer reads, and the tokens that it has made. -/
structure Lexer where
  reader : SourceReader
  tokens : List Token

/-- What comes of a round of the loop: its end with an outcome, or another round. There is no
outcome if the reader is not between two characters. -/
inductive Round where
  | stops (outcome : Except Error (List Token))
  | goesOn (next : Lexer)
  | breaks

namespace Lexer

def start (source file : String) : Lexer := ⟨.start source file, []⟩

/-- Makes a token of the next bytes and moves past them. -/
def push (x : Lexer) (kind : TokenKind) (text : String) (bytes : Nat) : Lexer :=
  ⟨x.reader.advance bytes, x.tokens ++ [⟨kind, text, x.reader.place.span bytes⟩]⟩

/-- Handles a match. Patterns of a fixed text make a token of this text, whatever was matched. -/
def handle (x : Lexer) (l : Lexeme) : Lexer :=
  let text := String.ofList l.text
  let bytes := byteCount l.text
  match l.pattern with
  | .word => x.push ((Keyword.ofText? text).elim .name .keyword) text bytes
  | .number => x.push .number text bytes
  | .blanks | .comment => { x with reader := x.reader.advance bytes }
  | .newLine => x.push .newLine "\n" (byteCount ['\n'])
  | .string => x.push .string (String.ofList (StringLiteral.denoted l.text)) bytes
  | .symbol s => x.push .symbol (String.ofList s) (byteCount s)

/-- One round: the end of the source closes the tokens, and anything else has to match. -/
def round (x : Lexer) : Round :=
  let position := x.reader.place.position
  if x.reader.atEnd then .stops (.ok (x.tokens ++ [.endAt position]))
  else match x.reader.rest? with
    | none => .breaks
    | some text => match Lexeme.firstMatch? text.toList with
      | some l => .goesOn (x.handle l)
      | none =>
        .stops (.error ⟨.unrecognised (text.toList.head?.elim "" String.singleton), position⟩)

/-- Rounds up to one that stops. -/
inductive Ends : Lexer → Except Error (List Token) → Prop
  | stop {x : Lexer} {outcome : Except Error (List Token)} (h : x.round = .stops outcome) :
    Ends x outcome
  | next {x y : Lexer} {outcome : Except Error (List Token)} (h : x.round = .goesOn y)
    (hy : Ends y outcome) : Ends x outcome

variable {x : Lexer} {o o' : Except Error (List Token)}

theorem Ends.unique (h : x.Ends o) (h' : x.Ends o') : o = o' := by
  induction h with
  | stop h =>
    cases h' with
    | stop h' => exact Round.stops.inj (h.symm.trans h')
    | next h' => cases h.symm.trans h'
  | next h _ ih =>
    cases h' with
    | stop h' => cases h.symm.trans h'
    | next h' hy =>
      obtain rfl := Round.goesOn.inj (h.symm.trans h')
      exact ih hy

/-- However it is handled, a match moves the reader over just the bytes that were matched, and it
leaves the token of the lexeme. -/
theorem handle_eq {l : Lexeme} {text : List Char} (h : Lexeme.first? text = some l) (x : Lexer) :
    x.handle l = ⟨x.reader.advance (byteCount l.text),
      x.tokens ++ (l.token? x.reader.place).toList⟩ := by
  obtain ⟨p, piece⟩ := l
  have hmatches : p.regex.Matches piece :=
    Pattern.matches_of_read? (Lexeme.first?_pattern h).2
  cases p with
  | newLine =>
    obtain rfl := Pattern.matches_newLine.1 hmatches
    rfl
  | symbol s =>
    obtain rfl := Pattern.matches_symbol.1 hmatches
    rfl
  | blanks | comment => exact congrArg (Lexer.mk _) (List.append_nil _).symm
  | word | number | string => rfl

end Lexer

/-! Readers at the end of a piece of their source. -/

namespace SourceReader
variable {source file : String} {read text : List Char}

/-- A reader between two characters stands behind the first of them. -/
theorem exists_after {r : SourceReader} {rest : String} (h : r.rest? = some rest) :
    ∃ file read, r = ⟨r.source, .after file read⟩ ∧ r.source.toList = read ++ rest.toList := by
  obtain ⟨⟨read, text⟩, hcut, rfl⟩ := Option.map_eq_some_iff.1 h
  obtain ⟨htext, hcount⟩ := cutAt?_eq_some hcut
  refine ⟨r.place.file, read, ?_, by rwa [String.toList_ofList]⟩
  rw [Place.after, hcount]
  simp [Place.start, Place.advance]

section
variable (hsize : source.utf8ByteSize ≤ maxOffset) (htext : source.toList = read ++ text)
include hsize htext

theorem byteCount_read_le : byteCount read ≤ maxOffset := by
  rw [← byteCount_toList, htext, byteCount_append] at hsize
  omega

theorem rest?_after : (⟨source, .after file read⟩ : SourceReader).rest? =
    some (String.ofList text) := by
  rw [rest?, Place.toNat_after (byteCount_read_le hsize htext), htext, cutAt?_byteCount]
  rfl

theorem atEnd_after : (⟨source, .after file read⟩ : SourceReader).atEnd = decide (text = []) := by
  rw [atEnd, Place.toNat_after (byteCount_read_le hsize htext), ← byteCount_toList, htext,
    byteCount_append, decide_eq_decide, ← byteCount_eq_zero_iff]
  omega

end
end SourceReader

namespace Lexer
variable {source file : String} {read text last : List Char} {l : Lexeme} {ls : List Lexeme}

section
variable (hsize : source.utf8ByteSize ≤ maxOffset) (htext : source.toList = read ++ text)
include hsize htext

theorem round_end (hend : text = []) (tokens : List Token) :
    round ⟨⟨source, .after file read⟩, tokens⟩ =
      .stops (.ok (tokens ++ [.endAt (Place.after file read).position])) := by
  rw [round, SourceReader.atEnd_after hsize htext, decide_eq_true hend]
  rfl

theorem round_match (h : Lexeme.first? text = some l) (tokens : List Token) :
    round ⟨⟨source, .after file read⟩, tokens⟩ =
      .goesOn ⟨⟨source, .after file (read ++ l.text)⟩,
        tokens ++ (l.token? (.after file read)).toList⟩ := by
  rw [round, SourceReader.atEnd_after hsize htext, decide_eq_false (Lexeme.ne_nil_of_first? h),
    SourceReader.rest?_after hsize htext]
  dsimp only
  rw [String.toList_ofList, Lexeme.firstMatch?_eq, h, ← Place.advance_after]
  exact congrArg Round.goesOn (handle_eq h _)

theorem round_none {c : Char} {rest : List Char} (hc : text = c :: rest)
    (h : Lexeme.first? text = none) (tokens : List Token) :
    round ⟨⟨source, .after file read⟩, tokens⟩ =
      .stops (.error ⟨.unrecognised (String.singleton c), (Place.after file read).position⟩) := by
  rw [round, SourceReader.atEnd_after hsize htext, decide_eq_false (by rw [hc]; exact nofun),
    SourceReader.rest?_after hsize htext]
  dsimp only
  rw [String.toList_ofList, Lexeme.firstMatch?_eq, h, hc]
  rfl

end

/-- A round takes the longest match at the place, and moves the reader behind it. Only where no
pattern matches anything the loop is left. -/
theorem round_cases {x : Lexer} {text : String} (hsize : x.reader.source.utf8ByteSize ≤ maxOffset)
    (hrest : x.reader.rest? = some text) (hne : text ≠ "") :
    match x.round with
    | .goesOn y => ∃ piece rest : String, Lexeme.IsLongest text.toList piece.toList ∧
        text = piece ++ rest ∧ y.reader.source = x.reader.source ∧ y.reader.rest? = some rest
    | .stops o => (∃ e, o = .error e) ∧
        ∀ p ∈ Pattern.all, ∀ s, s <+: text.toList → ¬ p.regex.Matches s
    | .breaks => False := by
  obtain ⟨⟨source, place⟩, tokens⟩ := x
  obtain ⟨file, read, hreader, htext⟩ := SourceReader.exists_after hrest
  obtain rfl : place = .after file read := congrArg SourceReader.place hreader
  cases h : Lexeme.first? text.toList with
  | some l =>
    obtain ⟨rest, hlexeme⟩ := (Lexeme.first?_isPrefix h).2
    rw [round_match hsize htext h]
    refine ⟨String.ofList l.text, String.ofList rest, ?_, ?_, rfl, ?_⟩
    · rw [String.toList_ofList]
      exact Lexeme.isLongest_of_first? h
    · rw [← String.ofList_append, hlexeme, String.ofList_toList]
    · exact SourceReader.rest?_after hsize
        (htext.trans (by rw [← hlexeme, List.append_assoc]))
  | none =>
    obtain ⟨c, rest, hc⟩ := List.exists_cons_of_ne_nil (mt String.toList_eq_nil_iff.1 hne)
    rw [round_none hsize htext hc h]
    exact ⟨⟨_, rfl⟩, fun p hp s hs => Lexeme.not_matches_of_first? h hp hs⟩

/-! All rounds. -/

/-- The outcome when some tokens are made and a text is left in which no lexeme begins. -/
def outcome (tokens : List Token) (stop : Position) : List Char → Except Error (List Token)
  | [] => .ok (tokens ++ [.endAt stop])
  | c :: _ => .error ⟨.unrecognised (String.singleton c), stop⟩

/-- The rounds over a text read its lexemes one by one. -/
theorem ends_of_reads (hsize : source.utf8ByteSize ≤ maxOffset) (h : Lexeme.Reads text ls last)
    (htext : source.toList = read ++ text) (tokens : List Token) :
    Ends ⟨⟨source, .after file read⟩, tokens⟩
      (outcome (tokens ++ (tokensFrom (.after file read) ls).1)
        (tokensFrom (.after file read) ls).2.position last) := by
  induction h generalizing read tokens with
  | @stop text h =>
    refine .stop ?_
    rw [tokensFrom, List.append_nil]
    cases text with
    | nil => exact round_end hsize htext rfl tokens
    | cons c rest => exact round_none hsize htext rfl h tokens
  | @step l _ _ _ h _ ih =>
    have hrest := ih (htext.trans (List.append_assoc _ _ _).symm)
      (tokens ++ (l.token? (.after file read)).toList)
    refine .next (round_match hsize htext h tokens) ?_
    rwa [tokensFrom_cons, Place.advance_after, ← List.append_assoc tokens]

/-- The loop over a source always ends, with the tokens of the source or with its error. -/
theorem ends_tokenize (hsize : source.utf8ByteSize ≤ maxOffset) (origin : Option String) :
    Ends (start source (origin.getD defaultFile)) (tokenize source origin) := by
  have houtcome : tokenize source origin = outcome
      (tokensFrom (.start (origin.getD defaultFile)) (Lexeme.readAll source.toList).1).1
      (tokensFrom (.start (origin.getD defaultFile)) (Lexeme.readAll source.toList).1).2.position
      (Lexeme.readAll source.toList).2 := by
    rw [tokenize, if_neg (Nat.not_lt.2 hsize)]
    rfl
  rw [houtcome]
  exact ends_of_reads hsize (Lexeme.reads_readAll source.toList) (List.nil_append _).symm []

end Lexer

/-- The first pattern that matches at the beginning of a text takes the longest match of all, which
is not empty, and moves the lexer over just its bytes. So each round takes the longest match at its
place and leaves what follows it, and the loop over a source comes to an end. -/
theorem rounds_take_longest :
    (∀ text, match Lexeme.firstMatch? text with
      | some l => Lexeme.IsLongest text l.text ∧
          ∀ x : Lexer, (x.handle l).reader = x.reader.advance (byteCount l.text)
      | none => ∀ p ∈ Pattern.all, ∀ s, s <+: text → ¬ p.regex.Matches s) ∧
    (∀ (x : Lexer) (text : String), x.reader.source.utf8ByteSize ≤ maxOffset →
      x.reader.rest? = some text → text ≠ "" →
      match x.round with
      | .goesOn y => ∃ piece rest : String, Lexeme.IsLongest text.toList piece.toList ∧
          text = piece ++ rest ∧ y.reader.source = x.reader.source ∧ y.reader.rest? = some rest
      | .stops o => (∃ e, o = .error e) ∧
          ∀ p ∈ Pattern.all, ∀ s, s <+: text.toList → ¬ p.regex.Matches s
      | .breaks => False) ∧
    ∀ (source : String) (origin : Option String), source.utf8ByteSize ≤ maxOffset →
      ∀ o, (Lexer.start source (origin.getD defaultFile)).Ends o ↔ tokenize source origin = o := by
  refine ⟨fun text => ?_, fun x text hsize hrest hne => ?_, fun source origin hsize o => ?_⟩
  · rw [Lexeme.firstMatch?_eq]
    cases h : Lexeme.first? text with
    | some l =>
      exact ⟨Lexeme.isLongest_of_first? h, fun x => congrArg Lexer.reader (Lexer.handle_eq h x)⟩
    | none => exact fun p hp s hs => Lexeme.not_matches_of_first? h hp hs
  · exact Lexer.round_cases hsize hrest hne
  · have hends := Lexer.ends_tokenize hsize origin
    exact ⟨fun h => hends.unique h, fun h => h ▸ hends⟩

/-- A point belongs to a number only with a digit behind it. The slashes in the string begin no
comment, and the quote behind the backslash does not end it. -/
theorem rounds_take_longest_number :
    let source := "1.5.>=\"//\\\"\""
    let x := Lexer.start source "shell"
    let span (i j : UInt32) : Span := ⟨⟨i, "shell"⟩, ⟨j, "shell"⟩⟩
    source.utf8ByteSize ≤ maxOffset ∧ x.reader.rest? = some source ∧ source ≠ "" ∧
    Lexeme.firstMatch? source.toList = some ⟨.number, "1.5".toList⟩ ∧
    Lexeme.IsLongest source.toList "1.5".toList ∧
    (∃ y, x.round = .goesOn y ∧ ∃ piece rest : String, source = piece ++ rest ∧
      y.reader.rest? = some rest) ∧
    x.Ends (.ok [⟨.number, "1.5", span 0 3⟩, ⟨.symbol, ".", span 3 4⟩, ⟨.symbol, ">=", span 4 6⟩,
      ⟨.string, "//\"", span 6 12⟩, ⟨.endOfInput, "EOF", span 12 12⟩]) := by
  intro source x span
  obtain ⟨hfirst, hround, hloop⟩ := rounds_take_longest
  have hsize : source.utf8ByteSize ≤ maxOffset := by decide +kernel
  have hrest : x.reader.rest? = some source := by decide +kernel
  have hne : source ≠ "" := by decide
  have hlexeme : Lexeme.first? source.toList = some ⟨.number, "1.5".toList⟩ := by decide +kernel
  have hmatch := (Lexeme.firstMatch?_eq source.toList).trans hlexeme
  have hlongest := hfirst source.toList
  rw [hmatch] at hlongest
  have hgoes : x.round = .goesOn _ :=
    Lexer.round_match hsize (List.nil_append _).symm hlexeme []
  have hnext := hround x source hsize hrest hne
  rw [hgoes] at hnext
  obtain ⟨piece, rest, -, hsplit, -, hleft⟩ := hnext
  exact ⟨hsize, hrest, hne, hmatch, hlongest.1, ⟨_, hgoes, piece, rest, hsplit, hleft⟩,
    (hloop source none hsize _).2 (by decide +kernel)⟩

end ScriptSyntax
