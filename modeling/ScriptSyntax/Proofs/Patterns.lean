import Mathlib.Data.List.TakeWhile
import ScriptSyntax.Lexeme

/-! The patterns of the lexer as regular expressions. What a pattern reads is matched by its
expression, and no longer piece of the text is. -/
namespace ScriptSyntax

/-- Regular expressions over characters. -/
inductive Regex where
  | one (test : Char → Bool)
  | empty
  | seq (first second : Regex)
  | either (left right : Regex)
  | many (item : Regex)

namespace Regex

/-- The texts that an expression matches as a whole. -/
def Matches : Regex → List Char → Prop
  | one test, s => ∃ c, test c = true ∧ s = [c]
  | empty, s => s = []
  | seq r r', s => ∃ a b, r.Matches a ∧ r'.Matches b ∧ s = a ++ b
  | either r r', s => r.Matches s ∨ r'.Matches s
  | many r, s => ∃ items : List (List Char), (∀ i ∈ items, r.Matches i) ∧ s = items.flatten

def char (c : Char) : Regex := one (· = c)

def maybe (r : Regex) : Regex := either r empty

/-- One or more. -/
def many1 (r : Regex) : Regex := seq r (many r)

def literal (text : List Char) : Regex := text.foldr (fun c r => seq (char c) r) empty

variable {test : Char → Bool} {s : List Char} {r : Regex}

theorem matches_char {c : Char} : (char c).Matches s ↔ s = [c] := by
  constructor
  · rintro ⟨d, hd, rfl⟩
    rw [of_decide_eq_true hd]
  · exact fun h => ⟨c, decide_eq_true rfl, h⟩

theorem matches_char_seq {c : Char} :
    (seq (char c) r).Matches s ↔ ∃ t, r.Matches t ∧ s = c :: t := by
  constructor
  · rintro ⟨a, t, ha, ht, rfl⟩
    rw [matches_char.1 ha]
    exact ⟨t, ht, rfl⟩
  · rintro ⟨t, ht, rfl⟩
    exact ⟨[c], t, matches_char.2 rfl, ht, rfl⟩

theorem matches_many_one : (many (one test)).Matches s ↔ ∀ c ∈ s, test c = true := by
  constructor
  · rintro ⟨items, hitems, rfl⟩ c hc
    obtain ⟨i, hi, hci⟩ := List.mem_flatten.1 hc
    obtain ⟨d, hd, rfl⟩ := hitems i hi
    rwa [List.mem_singleton.1 hci]
  · intro h
    refine ⟨s.map fun c => [c], ?_, ?_⟩
    · intro i hi
      obtain ⟨c, hc, rfl⟩ := List.mem_map.1 hi
      exact ⟨c, h c hc, rfl⟩
    · rw [← List.flatMap_def, List.flatMap_singleton']

theorem matches_many1_one :
    (many1 (one test)).Matches s ↔ s ≠ [] ∧ ∀ c ∈ s, test c = true := by
  constructor
  · rintro ⟨a, b, ⟨c, hc, rfl⟩, hb, rfl⟩
    exact ⟨List.cons_ne_nil _ _, List.forall_mem_cons.2 ⟨hc, matches_many_one.1 hb⟩⟩
  · rintro ⟨hne, h⟩
    cases s with
    | nil => exact absurd rfl hne
    | cons c cs =>
      obtain ⟨hc, hcs⟩ := List.forall_mem_cons.1 h
      exact ⟨[c], cs, ⟨c, hc, rfl⟩, matches_many_one.2 hcs, rfl⟩

theorem matches_literal {text : List Char} : (literal text).Matches s ↔ s = text := by
  induction text generalizing s with
  | nil => exact Iff.rfl
  | cons c text ih =>
    rw [literal, List.foldr_cons, matches_char_seq]
    simp only [← literal.eq_1, ih, exists_eq_left]

end Regex

open Regex

/-- What may stand for one character in a string literal: a backslash and a character behind it, or
a character alone. Neither is the end of the line. -/
def stringItem : Regex :=
  .either (.seq (.char '\\') (.one (· ≠ '\n'))) (.one fun c => c ≠ '"' && c ≠ '\\' && c ≠ '\n')

/-- The expression of a pattern. -/
def Pattern.regex : Pattern → Regex
  | word => .seq (.one isWordStart) (.many (.one isWordPart))
  | number =>
    .seq (.many1 (.one Char.isDigit)) (.maybe (.seq (.char '.') (.many1 (.one Char.isDigit))))
  | blanks => .many1 (.one isBlank)
  | newLine => .char '\n'
  | string => .seq (.char '"') (.seq (.many stringItem) (.char '"'))
  | comment => .seq (.char '/') (.seq (.char '/') (.many (.one (· ≠ '\n'))))
  | symbol text => .literal text

/-- Some digits. -/
def IsDigits (s : List Char) : Prop := s ≠ [] ∧ ∀ c ∈ s, c.isDigit = true

namespace Pattern
variable {s text piece : List Char}

theorem matches_word : word.regex.Matches s ↔
    ∃ c cs, isWordStart c = true ∧ (∀ d ∈ cs, isWordPart d = true) ∧ s = c :: cs := by
  constructor
  · rintro ⟨a, cs, ⟨c, hc, rfl⟩, hcs, rfl⟩
    exact ⟨c, cs, hc, matches_many_one.1 hcs, rfl⟩
  · rintro ⟨c, cs, hc, hcs, rfl⟩
    exact ⟨[c], cs, ⟨c, hc, rfl⟩, matches_many_one.2 hcs, rfl⟩

theorem matches_number : number.regex.Matches s ↔
    IsDigits s ∨ ∃ whole digits, IsDigits whole ∧ IsDigits digits ∧ s = whole ++ '.' :: digits := by
  constructor
  · rintro ⟨whole, b, hwhole, hb | hb, rfl⟩
    · obtain ⟨digits, hdigits, rfl⟩ := matches_char_seq.1 hb
      exact .inr ⟨whole, digits, matches_many1_one.1 hwhole, matches_many1_one.1 hdigits, rfl⟩
    · obtain rfl : b = [] := hb
      rw [List.append_nil]
      exact .inl (matches_many1_one.1 hwhole)
  · rintro (h | ⟨whole, digits, hwhole, hdigits, rfl⟩)
    · exact ⟨s, [], matches_many1_one.2 h, .inr rfl, (List.append_nil s).symm⟩
    · exact ⟨whole, '.' :: digits, matches_many1_one.2 hwhole,
        .inl (matches_char_seq.2 ⟨digits, matches_many1_one.2 hdigits, rfl⟩), rfl⟩

theorem matches_blanks : blanks.regex.Matches s ↔ s ≠ [] ∧ ∀ c ∈ s, isBlank c = true :=
  matches_many1_one

theorem matches_newLine : newLine.regex.Matches s ↔ s = ['\n'] := matches_char

theorem matches_string : string.regex.Matches s ↔ ∃ items : List (List Char),
    (∀ i ∈ items, stringItem.Matches i) ∧ s = '"' :: (items.flatten ++ ['"']) := by
  rw [regex, matches_char_seq]
  constructor
  · rintro ⟨t, ⟨a, b, ⟨items, hitems, rfl⟩, hb, rfl⟩, rfl⟩
    rw [matches_char.1 hb]
    exact ⟨items, hitems, rfl⟩
  · rintro ⟨items, hitems, rfl⟩
    exact ⟨_, ⟨_, _, ⟨items, hitems, rfl⟩, matches_char.2 rfl, rfl⟩, rfl⟩

theorem matches_comment : comment.regex.Matches s ↔
    ∃ cs, (∀ c ∈ cs, c ≠ '\n') ∧ s = '/' :: '/' :: cs := by
  rw [regex, matches_char_seq]
  constructor
  · rintro ⟨t, ht, rfl⟩
    obtain ⟨cs, hcs, rfl⟩ := matches_char_seq.1 ht
    exact ⟨cs, fun c hc => of_decide_eq_true (matches_many_one.1 hcs c hc), rfl⟩
  · rintro ⟨cs, hcs, rfl⟩
    exact ⟨_, matches_char_seq.2
      ⟨cs, matches_many_one.2 fun c hc => decide_eq_true (hcs c hc), rfl⟩, rfl⟩

theorem matches_symbol {t : List Char} : (symbol t).regex.Matches s ↔ s = t := matches_literal

end Pattern

theorem matches_stringItem {s : List Char} : stringItem.Matches s ↔
    (∃ c, c ≠ '\n' ∧ s = ['\\', c]) ∨ ∃ c, c ≠ '"' ∧ c ≠ '\\' ∧ c ≠ '\n' ∧ s = [c] := by
  constructor
  · rintro (h | ⟨c, hc, rfl⟩)
    · obtain ⟨t, ⟨c, hc, rfl⟩, rfl⟩ := matches_char_seq.1 h
      exact .inl ⟨c, of_decide_eq_true hc, rfl⟩
    · simp only [Bool.and_eq_true, decide_eq_true_eq] at hc
      exact .inr ⟨c, hc.1.1, hc.1.2, hc.2, rfl⟩
  · rintro (⟨c, hc, rfl⟩ | ⟨c, hquote, hslash, hline, rfl⟩)
    · exact .inl (matches_char_seq.2 ⟨[c], ⟨c, decide_eq_true hc, rfl⟩, rfl⟩)
    · exact .inr ⟨c, by simp [hquote, hslash, hline], rfl⟩

namespace StringLiteral
variable {text t rest : List Char}

/-- A character that is neither special nor the end of a line is taken by itself. -/
theorem tail?_cons {c : Char} (hquote : c ≠ '"') (hslash : c ≠ '\\') (hline : c ≠ '\n') :
    tail? (c :: rest) = (tail? rest).map (c :: ·) := by
  rw [tail?.eq_def]
  split
  · next h => exact absurd (List.cons.inj h).1 hquote
  · next h => exact absurd (List.cons.inj h).1 hslash
  · next h => exact absurd (List.cons.inj h).1 hslash
  · next h => exact absurd (List.cons.inj h).1 hline
  · next h =>
    obtain ⟨rfl, rfl⟩ := List.cons.inj h
    rfl
  · next h => cases h

/-- Items up to a quote are read up to this quote. -/
theorem tail?_items {items : List (List Char)} (h : ∀ i ∈ items, stringItem.Matches i)
    (rest : List Char) :
    tail? (items.flatten ++ '"' :: rest) = some (items.flatten ++ ['"']) := by
  induction items with
  | nil => rfl
  | cons i items ih =>
    obtain ⟨hi, hitems⟩ := List.forall_mem_cons.1 h
    rw [List.flatten_cons, List.append_assoc, List.append_assoc]
    rcases matches_stringItem.1 hi with ⟨c, hc, rfl⟩ | ⟨c, hquote, hslash, hline, rfl⟩
    · rw [List.cons_append, List.cons_append, tail?, if_neg hc, List.nil_append, ih hitems]
      rfl
    · rw [List.cons_append, List.nil_append, tail?_cons hquote hslash hline, ih hitems]
      rfl

/-- A backslash either has a character behind it or is the last one. -/
theorem ne_slash {c : Char} (hslash : ∀ d rest', c = '\\' → rest = d :: rest' → False)
    (hlast : c = '\\' → rest = [] → False) : c ≠ '\\' := by
  intro hc
  cases rest with
  | nil => exact hlast hc rfl
  | cons d rest' => exact hslash d rest' hc rfl

/-- What is read is made of items and the quote behind them. -/
theorem items_of_tail? (h : tail? text = some t) :
    ∃ items : List (List Char), (∀ i ∈ items, stringItem.Matches i) ∧
      t = items.flatten ++ ['"'] := by
  fun_induction tail? text generalizing t with
  | case1 rest =>
    obtain rfl := Option.some.inj h
    exact ⟨[], by simp, rfl⟩
  | case2 | case4 | case5 | case7 => cases h
  | case3 c rest hline ih =>
    obtain ⟨u, hu, rfl⟩ := Option.map_eq_some_iff.1 h
    obtain ⟨items, hitems, rfl⟩ := ih hu
    exact ⟨['\\', c] :: items,
      List.forall_mem_cons.2 ⟨matches_stringItem.2 (.inl ⟨c, hline, rfl⟩), hitems⟩, rfl⟩
  | case6 c rest hquote hslash hlast hline ih =>
    obtain ⟨u, hu, rfl⟩ := Option.map_eq_some_iff.1 h
    obtain ⟨items, hitems, rfl⟩ := ih hu
    exact ⟨[c] :: items, List.forall_mem_cons.2
      ⟨matches_stringItem.2 (.inr ⟨c, hquote, ne_slash hslash hlast, hline, rfl⟩), hitems⟩, rfl⟩

end StringLiteral

namespace Pattern
variable {p : Pattern} {text piece : List Char}

/-- Digits with the fraction part of any text are a number. -/
theorem matches_fractionPart {whole : List Char} (hwhole : IsDigits whole) (rest : List Char) :
    number.regex.Matches (whole ++ fractionPart rest) := by
  rw [matches_number, fractionPart.eq_def]
  split
  · split
    · exact .inl (by rwa [List.append_nil])
    · next digits hdigits =>
      exact .inr ⟨_, _, hwhole, ⟨hdigits, fun _ hd => List.mem_takeWhile_imp hd⟩, rfl⟩
  · exact .inl (by rwa [List.append_nil])

/-- What is read is matched as a whole. -/
theorem matches_of_read? (h : p.read? text = some piece) : p.regex.Matches piece := by
  cases p with
  | word =>
    cases text with
    | nil => cases h
    | cons c rest =>
      simp only [read?, readWord?] at h
      split at h
      · next hc =>
        obtain rfl := Option.some.inj h
        exact matches_word.2 ⟨c, _, hc, fun _ hd => List.mem_takeWhile_imp hd, rfl⟩
      · cases h
  | number =>
    simp only [read?, readNumber?] at h
    split at h
    · cases h
    · next hne =>
      obtain rfl := Option.some.inj h
      exact matches_fractionPart ⟨hne, fun _ hd => List.mem_takeWhile_imp hd⟩ _
  | blanks =>
    simp only [read?, readBlanks?] at h
    split at h
    · cases h
    · next hne =>
      obtain rfl := Option.some.inj h
      exact matches_blanks.2 ⟨hne, fun _ hd => List.mem_takeWhile_imp hd⟩
  | newLine =>
    simp only [read?, readNewLine?] at h
    split at h
    · exact matches_newLine.2 (Option.some.inj h).symm
    · cases h
  | string =>
    simp only [read?, readString?] at h
    split at h
    · obtain ⟨t, ht, rfl⟩ := Option.map_eq_some_iff.1 h
      obtain ⟨items, hitems, rfl⟩ := StringLiteral.items_of_tail? ht
      exact matches_string.2 ⟨items, hitems, rfl⟩
    · cases h
  | comment =>
    simp only [read?, readComment?] at h
    split at h
    · obtain rfl := Option.some.inj h
      exact matches_comment.2 ⟨_, fun _ hd => by simpa using List.mem_takeWhile_imp hd, rfl⟩
    · cases h
  | symbol t =>
    simp only [read?, readSymbol?] at h
    split at h
    · exact matches_symbol.2 (Option.some.inj h).symm
    · cases h

theorem readNumber?_eq (h : text.takeWhile Char.isDigit ≠ []) : readNumber? text =
    some (text.takeWhile Char.isDigit ++ fractionPart (text.dropWhile Char.isDigit)) := by
  rw [readNumber?]
  split
  · next hnil => exact absurd hnil h
  · rfl

theorem fractionPart_eq (h : text.takeWhile Char.isDigit ≠ []) :
    fractionPart ('.' :: text) = '.' :: text.takeWhile Char.isDigit := by
  rw [fractionPart]
  split
  · next hnil => exact absurd hnil h
  · rfl

theorem readBlanks?_eq (h : text.takeWhile isBlank ≠ []) :
    readBlanks? text = some (text.takeWhile isBlank) := by
  rw [readBlanks?]
  split
  · next hnil => exact absurd hnil h
  · rfl

private theorem append_ne_nil (h : piece ≠ []) (rest : List Char) : piece ++ rest ≠ [] :=
  fun he => h (List.append_eq_nil_iff.1 he).1

/-- Digits, a point and digits are read with the digits behind them. -/
theorem readNumber?_fraction {whole digits : List Char} (hwhole : IsDigits whole)
    (hdigits : IsDigits digits) (rest : List Char) :
    readNumber? (whole ++ '.' :: digits ++ rest) =
      some (whole ++ '.' :: digits ++ rest.takeWhile Char.isDigit) := by
  have htake : (whole ++ '.' :: (digits ++ rest)).takeWhile Char.isDigit = whole := by
    rw [List.takeWhile_append_of_pos hwhole.2]
    exact List.append_nil whole
  have hdrop : (whole ++ '.' :: (digits ++ rest)).dropWhile Char.isDigit =
      '.' :: (digits ++ rest) := by
    rw [List.dropWhile_append_of_pos hwhole.2]
    rfl
  have hmore : (digits ++ rest).takeWhile Char.isDigit =
      digits ++ rest.takeWhile Char.isDigit := List.takeWhile_append_of_pos hdigits.2
  rw [List.append_assoc, List.cons_append, readNumber?_eq (by rw [htake]; exact hwhole.1), htake,
    hdrop, fractionPart_eq (hmore ▸ append_ne_nil hdigits.1 _), hmore]
  simp

/-- What is matched as a whole is read, or it is the beginning of what is read. -/
theorem read?_of_matches (h : p.regex.Matches piece) (hne : piece ≠ []) (rest : List Char) :
    ∃ more, p.read? (piece ++ rest) = some (piece ++ more) := by
  cases p with
  | word =>
    obtain ⟨c, cs, hc, hcs, rfl⟩ := matches_word.1 h
    refine ⟨rest.takeWhile isWordPart, ?_⟩
    rw [read?, List.cons_append, readWord?, if_pos hc, List.takeWhile_append_of_pos hcs]
    rfl
  | number =>
    rw [read?]
    rcases matches_number.1 h with ⟨-, hdigits⟩ | ⟨whole, digits, hwhole, hdigits, rfl⟩
    · have htake : (piece ++ rest).takeWhile Char.isDigit =
          piece ++ rest.takeWhile Char.isDigit := List.takeWhile_append_of_pos hdigits
      refine ⟨rest.takeWhile Char.isDigit ++
        fractionPart ((piece ++ rest).dropWhile Char.isDigit), ?_⟩
      rw [readNumber?_eq (htake ▸ append_ne_nil hne _), htake, List.append_assoc]
    · exact ⟨_, readNumber?_fraction hwhole hdigits rest⟩
  | blanks =>
    obtain ⟨-, hblanks⟩ := matches_blanks.1 h
    have htake : (piece ++ rest).takeWhile isBlank = piece ++ rest.takeWhile isBlank :=
      List.takeWhile_append_of_pos hblanks
    exact ⟨_, by rw [read?, readBlanks?_eq (htake ▸ append_ne_nil hne _), htake]⟩
  | newLine =>
    obtain rfl := matches_newLine.1 h
    exact ⟨[], rfl⟩
  | string =>
    obtain ⟨items, hitems, rfl⟩ := matches_string.1 h
    refine ⟨[], ?_⟩
    rw [read?, List.cons_append, List.append_assoc, readString?, List.singleton_append,
      StringLiteral.tail?_items hitems, List.append_nil]
    rfl
  | comment =>
    obtain ⟨cs, hcs, rfl⟩ := matches_comment.1 h
    refine ⟨rest.takeWhile (· ≠ '\n'), ?_⟩
    rw [read?, List.cons_append, List.cons_append, readComment?,
      List.takeWhile_append_of_pos fun c hc => decide_eq_true (hcs c hc)]
    rfl
  | symbol t =>
    obtain rfl := matches_symbol.1 h
    exact ⟨[], by rw [read?, readSymbol?, if_pos ⟨hne, List.prefix_append _ _⟩, List.append_nil]⟩

/-- What is matched as a whole is read as a whole. -/
theorem read?_whole (h : p.regex.Matches piece) (hne : piece ≠ []) :
    p.read? piece = some piece := by
  obtain ⟨more, hread⟩ := read?_of_matches h hne []
  rw [List.append_nil] at hread
  obtain ⟨-, hpre⟩ := read?_isPrefix hread
  have hnil : more = [] := by
    have hlength := hpre.length_le
    rw [List.length_append] at hlength
    exact List.eq_nil_of_length_eq_zero (by omega)
  rwa [hnil, List.append_nil] at hread

end Pattern
end ScriptSyntax
