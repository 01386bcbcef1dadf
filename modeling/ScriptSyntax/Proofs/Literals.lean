import Mathlib.Data.List.Forall2
import ScriptSyntax.Proofs.Quoting
import ScriptSyntax.Proofs.Scanning
import ScriptSyntax.Render

/-! String literals as whole sources. What stands between the quotes falls into pieces that denote
parts of the value. Every text has a literal, and its quoted form is one, unless a character is
written by its code point. -/
namespace ScriptSyntax

namespace StringLiteral
variable {text t piece part literal : List Char} {pieces parts : List (List Char)} {c l : Char}

/-- What a piece between the quotes denotes: a character itself, an escape the character it is for,
and a backslash in front of any other character the two of them. -/
inductive Denotes : List Char → List Char → Prop
  | plain {c : Char} (hquote : c ≠ '"') (hslash : c ≠ '\\') (hline : c ≠ '\n') : Denotes [c] [c]
  | escape {l c : Char} (h : Text.meaning? l = some c) : Denotes ['\\', l] [c]
  | kept {l : Char} (h : Text.meaning? l = none) (hline : l ≠ '\n') : Denotes ['\\', l] ['\\', l]

/-- As `unescape`, but a backslash that has no character behind it is refused. -/
def unescape? : List Char → Option (List Char)
  | [] => some []
  | ['\\'] => none
  | '\\' :: c :: rest => (unescape? rest).map (meaning c ++ ·)
  | c :: rest => (unescape? rest).map (c :: ·)

theorem unescape_of_unescape? (h : unescape? text = some t) : unescape text = t := by
  fun_induction unescape? text generalizing t with
  | case1 => exact Option.some.inj h
  | case2 => cases h
  | case3 c rest ih =>
    obtain ⟨u, hu, rfl⟩ := Option.map_eq_some_iff.1 h
    rw [unescape, ih hu]
  | case4 c rest hlast hpair ih =>
    obtain ⟨u, hu, rfl⟩ := Option.map_eq_some_iff.1 h
    rw [unescape, ih hu]
    exact hpair

theorem meaning_eq (l : Char) : meaning l = (Text.meaning? l).elim ['\\', l] fun c => [c] := by
  rw [meaning.eq_def, Text.meaning?.eq_def]
  split <;> simp_all

/-- The pieces are those of the pattern. -/
theorem Denotes.item (h : Denotes piece part) : stringItem.Matches piece := by
  cases h with
  | plain hquote hslash hline => exact matches_stringItem.2 (.inr ⟨_, hquote, hslash, hline, rfl⟩)
  | @escape l c h =>
    refine matches_stringItem.2 (.inl ⟨l, ?_, rfl⟩)
    rintro rfl
    cases h
  | kept _ hline => exact matches_stringItem.2 (.inl ⟨_, hline, rfl⟩)

theorem exists_denotes (h : stringItem.Matches piece) : ∃ part, Denotes piece part := by
  rcases matches_stringItem.1 h with ⟨l, hline, rfl⟩ | ⟨c, hquote, hslash, hline, rfl⟩
  · cases hl : Text.meaning? l with
    | none => exact ⟨_, .kept hl hline⟩
    | some c => exact ⟨_, .escape hl⟩
  · exact ⟨_, .plain hquote hslash hline⟩

theorem exists_parts (h : ∀ i ∈ pieces, stringItem.Matches i) :
    ∃ parts, List.Forall₂ Denotes pieces parts := by
  induction pieces with
  | nil => exact ⟨[], .nil⟩
  | cons piece pieces ih =>
    obtain ⟨hpiece, hpieces⟩ := List.forall_mem_cons.1 h
    obtain ⟨part, hpart⟩ := exists_denotes hpiece
    obtain ⟨parts, hparts⟩ := ih hpieces
    exact ⟨part :: parts, .cons hpart hparts⟩

/-- Unescaping takes one piece after the other. -/
theorem unescape?_piece (h : Denotes piece part) (rest : List Char) :
    unescape? (piece ++ rest) = (unescape? rest).map (part ++ ·) := by
  cases h with
  | plain _ hslash _ =>
    rw [List.singleton_append, unescape?]
    · rfl
    · exact fun hc _ => hslash hc
    · exact fun _ _ hc _ => hslash hc
  | escape h =>
    rw [List.cons_append, List.singleton_append, unescape?, meaning_eq, h]
    rfl
  | kept h hline =>
    rw [List.cons_append, List.singleton_append, unescape?, meaning_eq, h]
    rfl

theorem unescape?_flatten (h : List.Forall₂ Denotes pieces parts) :
    unescape? pieces.flatten = some parts.flatten := by
  induction h with
  | nil => rfl
  | cons hpiece _ ih =>
    rw [List.flatten_cons, unescape?_piece hpiece, ih, List.flatten_cons]
    rfl

/-- A literal of some pieces. -/
def ofPieces (pieces : List (List Char)) : List Char := '"' :: (pieces.flatten ++ ['"'])

theorem unescape?_ofPieces (h : List.Forall₂ Denotes pieces parts) :
    unescape? (ofPieces pieces).tail.dropLast = some parts.flatten := by
  rw [ofPieces, List.tail_cons, List.dropLast_concat, unescape?_flatten h]

theorem denoted_ofPieces (h : List.Forall₂ Denotes pieces parts) :
    denoted (ofPieces pieces) = parts.flatten :=
  unescape_of_unescape? (unescape?_ofPieces h)

theorem matches_ofPieces (h : List.Forall₂ Denotes pieces parts) :
    Pattern.string.regex.Matches (ofPieces pieces) := by
  refine Pattern.matches_string.2 ⟨pieces, fun i hi => ?_, rfl⟩
  induction h with
  | nil => cases hi
  | cons hpiece _ ih =>
    rcases List.mem_cons.1 hi with rfl | hi
    · exact hpiece.item
    · exact ih hi

/-- A text that the pattern matches is one lexeme. -/
theorem first?_literal (h : Pattern.string.regex.Matches literal) :
    Lexeme.first? literal = some ⟨.string, literal⟩ := by
  obtain ⟨items, -, rfl⟩ := Pattern.matches_string.1 h
  exact Lexeme.first?_string (Pattern.read?_whole h (List.cons_ne_nil _ _))

/-- A source is one string token with the given value, from its beginning to its end. Only where it
is larger than offsets reach it is refused, as any source is. -/
def IsLiteral (source value : String) : Prop :=
  ∀ origin : Option String,
    let place : UInt32 → Position := fun offset => ⟨offset, origin.getD defaultFile⟩
    let stop := place source.utf8ByteSize.toUInt32
    tokenize source origin =
      if source.utf8ByteSize ≤ maxOffset then
        .ok [⟨.string, value, ⟨place 0, stop⟩⟩, .endAt stop]
      else .error ⟨.tooLarge source.utf8ByteSize, place 0⟩

theorem isLiteral_of_matches {source : String} (h : Pattern.string.regex.Matches source.toList) :
    IsLiteral source (String.ofList (denoted source.toList)) := by
  intro origin place stop
  split
  · next hsize =>
    have hspan := Place.span_start (origin.getD defaultFile) source.toList
    rw [byteCount_toList] at hspan
    rw [tokenize_single hsize (first?_literal h) rfl, Lexeme.token?, byteCount_toList, hspan]
    rfl
  · next hsize => exact if_pos (Nat.not_le.1 hsize)

/-- Pieces with a character each are a literal of these characters. -/
theorem isLiteral_ofPieces {value : String}
    (h : List.Forall₂ (fun piece c => Denotes piece [c]) pieces value.toList) :
    IsLiteral (String.ofList (ofPieces pieces)) value := by
  have hparts : List.Forall₂ Denotes pieces (value.toList.map fun c => [c]) := by
    rw [List.forall₂_map_right_iff]
    exact h
  have hvalue : String.ofList (denoted (ofPieces pieces)) = value := by
    rw [denoted_ofPieces hparts, ← List.flatMap_def, List.flatMap_singleton', String.ofList_toList]
  have hliteral : IsLiteral (String.ofList (ofPieces pieces))
      (String.ofList (denoted (String.ofList (ofPieces pieces)).toList)) :=
    isLiteral_of_matches (by rw [String.toList_ofList]; exact matches_ofPieces hparts)
  rwa [String.toList_ofList, hvalue] at hliteral

/-- The escaped form of a character denotes it, where it is not its code point. -/
theorem denotes_escapeChar (h : Text.escapeChar ['"'] true c ≠ Text.codePointEscape c) :
    Denotes (Text.escapeChar ['"'] true c) [c] := by
  rw [Text.escapeChar] at h ⊢
  split
  · next hshort => exact .escape (Text.meaning?_of_shortEscape? hshort)
  · next hshort =>
    have hslash : c ≠ '\\' := by
      rintro rfl
      cases hshort
    have hline : c ≠ '\n' := by
      rintro rfl
      cases hshort
    rw [hshort] at h
    split
    · next hquote =>
      obtain rfl := List.mem_singleton.1 hquote
      exact .escape rfl
    · next hquote =>
      rw [if_neg hquote] at h
      split
      · next hcode => exact absurd (if_pos hcode) h
      · exact .plain (fun hc => hquote (List.mem_singleton.2 hc)) hslash hline

end StringLiteral

open StringLiteral

/-- Every text is the value of a literal. Its characters stand for themselves, but for backslashes,
quotes and newlines, and any that has an escape may be written by it. The form in which a tree shows
a string is such a literal, unless a code point is written in it. In any literal each backslash has
a character to take, and only an escape without a meaning is kept as it stands. -/
theorem string_literals_denote :
    (∀ (value : String) (pieces : List (List Char)),
      List.Forall₂ (fun piece c => Denotes piece [c]) pieces value.toList →
      IsLiteral (String.ofList (ofPieces pieces)) value) ∧
    (∀ (value : String) (span : Span),
      (∀ c ∈ value.toList, Text.escapeChar ['"'] true c ≠ Text.codePointEscape c) →
      IsLiteral (Expr.string value span).render value) ∧
    (∀ literal, Pattern.string.regex.Matches literal →
      unescape? literal.tail.dropLast = some (denoted literal) ∧
      ∃ pieces parts, literal = ofPieces pieces ∧ List.Forall₂ Denotes pieces parts ∧
        denoted literal = parts.flatten) := by
  refine ⟨fun value pieces h => isLiteral_ofPieces h, fun value span h => ?_, fun literal h => ?_⟩
  · have hpieces : List.Forall₂ (fun piece c => Denotes piece [c])
        (value.toList.map (Text.escapeChar ['"'] true)) value.toList := by
      rw [List.forall₂_map_left_iff, List.forall₂_same]
      exact fun c hc => denotes_escapeChar (h c hc)
    have hform : (Expr.string value span).render =
        String.ofList (ofPieces (value.toList.map (Text.escapeChar ['"'] true))) := by
      rw [Expr.render, Text.quoted, ofPieces, List.flatMap_def]
      rfl
    rw [hform]
    exact isLiteral_ofPieces hpieces
  · obtain ⟨pieces, hpieces, rfl⟩ := Pattern.matches_string.1 h
    obtain ⟨parts, hparts⟩ := exists_parts hpieces
    have hdenoted := denoted_ofPieces hparts
    exact ⟨hdenoted ▸ unescape?_ofPieces hparts, pieces, parts, rfl, hparts, hdenoted⟩

/-- Backslashes in front of a quote, a tab that stands for itself, and an escape that is kept. -/
theorem string_literals_denote_backslashes :
    let pieces : List (List Char) := [['\\', '\\'], ['\\', '"'], ['\t']]
    let literal : List Char := ['"', '\\', 'q', '\\', '\\', '"']
    List.Forall₂ (fun piece c => Denotes piece [c]) pieces "\\\"\t".toList ∧
    IsLiteral "\"\\\\\\\"\t\"" "\\\"\t" ∧
    (∀ c ∈ "é\n".toList, Text.escapeChar ['"'] true c ≠ Text.codePointEscape c) ∧
    IsLiteral "\"é\\n\"" "é\n" ∧
    Pattern.string.regex.Matches literal ∧
    unescape? ['\\', 'q', '\\', '\\'] = some (denoted literal) := by
  intro pieces literal
  have hpieces : List.Forall₂ (fun piece c => Denotes piece [c]) pieces "\\\"\t".toList :=
    .cons (.escape rfl) (.cons (.escape rfl)
      (.cons (.plain (by decide) (by decide) (by decide)) .nil))
  have hform : ∀ c ∈ "é\n".toList, Text.escapeChar ['"'] true c ≠ Text.codePointEscape c := by
    have htext : "é\n".toList = ['é', '\n'] := by decide +kernel
    rw [htext, List.forall_mem_cons, List.forall_mem_singleton]
    exact ⟨by decide +kernel, by decide +kernel⟩
  have hquoted : (Expr.string "é\n" default).render = "\"é\\n\"" := by decide +kernel
  have hkept : List.Forall₂ Denotes [['\\', 'q'], ['\\', '\\']] [['\\', 'q'], ['\\']] :=
    .cons (.kept rfl (by decide)) (.cons (.escape rfl) .nil)
  have hliteral : Pattern.string.regex.Matches literal := matches_ofPieces hkept
  exact ⟨hpieces, string_literals_denote.1 _ _ hpieces, hform,
    hquoted ▸ string_literals_denote.2.1 _ default hform, hliteral,
    (string_literals_denote.2.2 literal hliteral).1⟩

end ScriptSyntax
