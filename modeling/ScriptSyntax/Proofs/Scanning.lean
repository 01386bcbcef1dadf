import ScriptSyntax.Proofs.Lexemes
import ScriptSyntax.Tokenize

/-! From lexemes to tokens: where each one begins, and that no offset is cut off in a source of an
allowed size. -/
namespace ScriptSyntax
open Text

/-- The place behind a piece of text at the beginning of a source. -/
def Place.after (file : String) (read : List Char) : Place :=
  (Place.start file).advance (byteCount read)

namespace Place
variable (file : String) (read piece : List Char)

theorem after_nil : after file [] = start file := rfl

theorem advance_after :
    (after file read).advance (byteCount piece) = after file (read ++ piece) := by
  rw [after, advance_advance, after, byteCount_append]

variable {file read}

theorem offset_after (h : byteCount read ≤ maxOffset) :
    (after file read).position.offset.toNat = byteCount read := by
  rw [maxOffset] at h
  have hmod : byteCount read % 2 ^ 64 % 2 ^ 32 = byteCount read := by omega
  simpa [after, start, advance, position] using hmod

theorem toNat_after (h : byteCount read ≤ maxOffset) :
    (after file read).offset.toNat = byteCount read := by
  rw [maxOffset] at h
  have hmod : byteCount read % 2 ^ 64 = byteCount read := by omega
  simpa [after, start, advance] using hmod

theorem position_after (file : String) (read : List Char) :
    (after file read).position = ⟨(byteCount read).toUInt32, file⟩ := by
  simp [after, start, advance, position]

theorem span_after (file : String) (read piece : List Char) :
    (after file read).span (byteCount piece) =
      ⟨⟨(byteCount read).toUInt32, file⟩, ⟨(byteCount (read ++ piece)).toUInt32, file⟩⟩ := by
  rw [span, advance_after, position_after, position_after]

theorem span_start (file : String) (piece : List Char) : (start file).span (byteCount piece) =
    ⟨⟨0, file⟩, ⟨(byteCount piece).toUInt32, file⟩⟩ := span_after file [] piece

end Place

theorem byteCount_toList (source : String) : byteCount source.toList = source.utf8ByteSize := by
  rw [← utf8ByteSize_ofList, String.ofList_toList]

/-! Tokens of lexemes that follow each other. -/

section
variable {file : String} {read last : List Char} {ls : List Lexeme}

theorem tokensFrom_cons (place : Place) (l : Lexeme) (ls : List Lexeme) :
    tokensFrom place (l :: ls) =
      ((l.token? place).toList ++ (tokensFrom (place.advance (byteCount l.text)) ls).1,
        (tokensFrom (place.advance (byteCount l.text)) ls).2) := rfl

/-- Each of the tokens is that of a lexeme. -/
theorem tokensFrom_forall {P : Token → Prop} (place : Place)
    (h : ∀ l ∈ ls, ∀ place t, l.token? place = some t → P t) :
    ∀ t ∈ (tokensFrom place ls).1, P t := by
  induction ls generalizing place with
  | nil => exact fun _ ht => nomatch ht
  | cons l ls ih =>
    obtain ⟨hl, hls⟩ := List.forall_mem_cons.1 h
    intro t ht
    rw [tokensFrom_cons] at ht
    rcases List.mem_append.1 ht with ht | ht
    · exact hl place t (Option.mem_toList.1 ht)
    · exact ih _ hls t ht

theorem tokensFrom_append (place : Place) (ls ls' : List Lexeme) :
    tokensFrom place (ls ++ ls') =
      ((tokensFrom place ls).1 ++ (tokensFrom (tokensFrom place ls).2 ls').1,
        (tokensFrom (tokensFrom place ls).2 ls').2) := by
  induction ls generalizing place with
  | nil => rfl
  | cons l ls ih => rw [List.cons_append, tokensFrom_cons, ih, tokensFrom_cons, List.append_assoc]

theorem tokensFrom_stop (file : String) (read : List Char) (ls : List Lexeme) :
    (tokensFrom (.after file read) ls).2 = .after file (read ++ ls.flatMap Lexeme.text) := by
  induction ls generalizing read with
  | nil => rw [tokensFrom, List.flatMap_nil, List.append_nil]
  | cons l ls ih =>
    rw [tokensFrom_cons, Place.advance_after, ih, List.flatMap_cons, List.append_assoc]

end

/-! The outcome for a source by its lexemes. -/

section
variable {source : String} {ls : List Lexeme} {rest : List Char} {c : Char}

theorem tokenize_of_reads (hsize : source.utf8ByteSize ≤ maxOffset)
    (h : Lexeme.Reads source.toList ls []) (file : Option String) :
    tokenize source file =
      .ok ((tokensFrom (.start (file.getD defaultFile)) ls).1 ++
        [.endAt (Place.after (file.getD defaultFile) source.toList).position]) := by
  have htext := h.text_eq
  rw [List.append_nil] at htext
  rw [tokenize, if_neg (Nat.not_lt.2 hsize), h.readAll_eq, ← Place.after_nil]
  simp only [tokensFrom_stop, List.nil_append, ← htext]

/-- A source that is one lexeme. -/
theorem tokenize_single {l : Lexeme} (hsize : source.utf8ByteSize ≤ maxOffset)
    (h : Lexeme.first? source.toList = some l) (htext : l.text = source.toList)
    (file : Option String) : tokenize source file =
      .ok ((l.token? (.start (file.getD defaultFile))).toList ++
        [.endAt ⟨source.utf8ByteSize.toUInt32, file.getD defaultFile⟩]) := by
  have hreads : Lexeme.Reads source.toList [l] [] := by
    rw [← htext] at h ⊢
    exact Lexeme.reads_single h
  rw [tokenize_of_reads hsize hreads, Place.position_after, byteCount_toList, tokensFrom_cons,
    tokensFrom, List.append_nil]

theorem tokenize_of_reads_stop (hsize : source.utf8ByteSize ≤ maxOffset)
    (h : Lexeme.Reads source.toList ls (c :: rest)) (file : Option String) :
    tokenize source file =
      .error ⟨.unrecognised (String.singleton c),
        (Place.after (file.getD defaultFile) (ls.flatMap Lexeme.text)).position⟩ := by
  rw [tokenize, if_neg (Nat.not_lt.2 hsize), h.readAll_eq, ← Place.after_nil]
  simp only [tokensFrom_stop, List.nil_append]

theorem reads_of_tokenize {tokens : List Token} {file : Option String}
    (h : tokenize source file = .ok tokens) :
    source.utf8ByteSize ≤ maxOffset ∧ ∃ ls, Lexeme.Reads source.toList ls [] ∧
      tokens = (tokensFrom (.start (file.getD defaultFile)) ls).1 ++
        [.endAt (Place.after (file.getD defaultFile) source.toList).position] := by
  have hsize : source.utf8ByteSize ≤ maxOffset := by
    by_contra hlarge
    rw [tokenize, if_pos (Nat.not_le.1 hlarge)] at h
    cases h
  have hreads := Lexeme.reads_readAll source.toList
  generalize (Lexeme.readAll source.toList).1 = ls at hreads
  generalize (Lexeme.readAll source.toList).2 = last at hreads
  cases last with
  | nil =>
    rw [tokenize_of_reads hsize hreads] at h
    exact ⟨hsize, ls, hreads, (Except.ok.inj h).symm⟩
  | cons c rest =>
    rw [tokenize_of_reads_stop hsize hreads] at h
    cases h

end
end ScriptSyntax
