import ScriptSyntax.Proofs.Patterns

/-! The lexemes of a text. The pattern that comes first reads the longest piece of all, and none
reads across the end of a line. -/
namespace ScriptSyntax

theorem isWordPart_iff {c : Char} :
    isWordPart c = true ↔ isWordStart c = true ∨ c.isDigit = true := by
  rw [isWordPart, isWordStart, Char.isAlphanum, Bool.or_right_comm, Bool.or_eq_true]

/-- A digit begins no word. -/
theorem isWordStart_of_isDigit {c : Char} (h : c.isDigit = true) : isWordStart c = false := by
  rw [isWordStart, Bool.or_eq_false_iff, decide_eq_false_iff_not]
  constructor
  · have halpha : c.isAlpha = (decide ('A'.val ≤ c.val ∧ c.val ≤ 'Z'.val) ||
        decide ('a'.val ≤ c.val) && decide (c.val ≤ 'z'.val)) := rfl
    simp only [Char.isDigit, Bool.and_eq_true, decide_eq_true_eq] at h
    simp only [halpha, Bool.or_eq_false_iff, Bool.and_eq_false_iff, decide_eq_false_iff_not]
    grind
  · rintro rfl
    cases h

/-- A blank is one of three characters. -/
theorem isBlank_cases {c : Char} (h : isBlank c = true) : c = ' ' ∨ c = '\t' ∨ c = '\r' := by
  simpa [isBlank, or_assoc] using h

namespace Pattern
variable {text rest piece : List Char} {c : Char}

/-! What cannot be read, by the first character. -/

theorem readWord?_none (h : isWordStart c = false) (cs : List Char) : readWord? (c :: cs) = none :=
  if_neg (by simp [h])

theorem readNumber?_none (h : c.isDigit = false) (cs : List Char) :
    readNumber? (c :: cs) = none := by
  rw [readNumber?, List.takeWhile_cons_of_neg (by simp [h])]

theorem readBlanks?_none (h : isBlank c = false) (cs : List Char) :
    readBlanks? (c :: cs) = none := by
  rw [readBlanks?, List.takeWhile_cons_of_neg (by simp [h])]

theorem readBlanks?_cons (h : isBlank c = true) (cs : List Char) :
    readBlanks? (c :: cs) = some (c :: cs.takeWhile isBlank) := by
  rw [readBlanks?, List.takeWhile_cons, if_pos h]

theorem readNewLine?_none (h : c ≠ '\n') (cs : List Char) : readNewLine? (c :: cs) = none := by
  rw [readNewLine?.eq_def]
  split
  · next heq => exact absurd (List.cons.inj heq).1 h
  · rfl

theorem readString?_none (h : c ≠ '"') (cs : List Char) : readString? (c :: cs) = none := by
  rw [readString?.eq_def]
  split
  · next heq => exact absurd (List.cons.inj heq).1 h
  · rfl

theorem readComment?_none {cs : List Char} (h : ∀ ds, cs ≠ '/' :: '/' :: ds) :
    readComment? cs = none := by
  rw [readComment?.eq_def]
  split
  · next ds => exact absurd rfl (h ds)
  · rfl

theorem readComment?_cases (h : readComment? text = some piece) :
    ∃ cs, text = '/' :: '/' :: cs ∧ piece = '/' :: '/' :: cs.takeWhile (· ≠ '\n') := by
  rw [readComment?.eq_def] at h
  split at h
  · next cs => exact ⟨cs, rfl, (Option.some.inj h).symm⟩
  · cases h

theorem fractionPart_none (h : c ≠ '.') (cs : List Char) : fractionPart (c :: cs) = [] := by
  rw [fractionPart.eq_def]
  split
  · next heq => exact absurd (List.cons.inj heq).1 h
  · rfl

/-- A run does not go on behind a character that is none of it. -/
theorem takeWhile_behind {p : Char → Bool} (hc : p c = false) (cs rest : List Char) :
    (cs ++ c :: rest).takeWhile p = cs.takeWhile p := by
  induction cs with
  | nil => simp [hc]
  | cons d cs ih =>
    rw [List.cons_append, List.takeWhile_cons, List.takeWhile_cons, ih]

theorem dropWhile_behind {p : Char → Bool} (hc : p c = false) (cs rest : List Char) :
    (cs ++ c :: rest).dropWhile p = cs.dropWhile p ++ c :: rest := by
  induction cs with
  | nil => simp [hc]
  | cons d cs ih =>
    rw [List.cons_append, List.dropWhile_cons, List.dropWhile_cons, ih]
    split <;> rfl

theorem readWord?_behind (hc : isWordPart c = false) (cs rest : List Char) :
    readWord? (cs ++ c :: rest) = readWord? cs := by
  cases cs with
  | nil =>
    refine readWord?_none (Bool.eq_false_iff.2 fun h => ?_) rest
    rw [isWordPart_iff.2 (.inl h)] at hc
    cases hc
  | cons d cs => rw [List.cons_append, readWord?, readWord?, takeWhile_behind hc]

theorem fractionPart_behind (hc : c.isDigit = false) (hpoint : c ≠ '.') (cs rest : List Char) :
    fractionPart (cs ++ c :: rest) = fractionPart cs := by
  cases cs with
  | nil => exact fractionPart_none hpoint rest
  | cons d cs =>
    rw [List.cons_append]
    by_cases hd : d = '.'
    · subst hd
      rw [fractionPart, fractionPart, takeWhile_behind hc]
    · rw [fractionPart_none hd, fractionPart_none hd]

theorem readNumber?_behind (hc : c.isDigit = false) (hpoint : c ≠ '.') (cs rest : List Char) :
    readNumber? (cs ++ c :: rest) = readNumber? cs := by
  rw [readNumber?, readNumber?, takeWhile_behind hc, dropWhile_behind hc,
    fractionPart_behind hc hpoint]

/-! No pattern reads across the end of a line. -/

private theorem tail?_line (cs rest : List Char) :
    StringLiteral.tail? (cs ++ '\n' :: rest) = StringLiteral.tail? cs := by
  fun_induction StringLiteral.tail? cs with
  | case1 | case2 | case4 | case5 | case7 => rfl
  | case3 c cs hline ih =>
    rw [List.cons_append, List.cons_append, StringLiteral.tail?, if_neg hline, ih]
  | case6 c cs hquote hslash hlast hline ih =>
    rw [List.cons_append,
      StringLiteral.tail?_cons hquote (StringLiteral.ne_slash hslash hlast) hline, ih]

private theorem readComment?_line (text rest : List Char) :
    readComment? (text ++ '\n' :: rest) = readComment? text := by
  by_cases hc : ∃ ds, text = '/' :: '/' :: ds
  · obtain ⟨ds, rfl⟩ := hc
    rw [List.cons_append, List.cons_append, readComment?, readComment?,
      takeWhile_behind (by decide)]
  · rw [readComment?_none fun ds h => hc ⟨ds, h⟩, readComment?_none]
    intro ds h
    rcases text with _ | ⟨c, _ | ⟨d, cs⟩⟩
    · cases (List.cons.inj h).1
    · cases (List.cons.inj (List.cons.inj h).2).1
    · obtain ⟨hslash, h⟩ := List.cons.inj h
      obtain ⟨hslash', -⟩ := List.cons.inj h
      exact hc ⟨cs, by rw [hslash, hslash']⟩

/-- No character of a symbol belongs to a lexeme of another kind, but for the slash. -/
theorem symbols_plain : ∀ s ∈ symbols, ∀ c ∈ s, isWordStart c = false ∧ c.isDigit = false ∧
    isBlank c = false ∧ c ≠ '\n' ∧ c ≠ '"' := by
  have hall : (symbols.all fun s => s.all fun c => !isWordStart c && !c.isDigit && !isBlank c &&
      c != '\n' && c != '"') = true := by decide
  simpa [and_assoc] using hall

theorem symbols_short : ∀ s ∈ symbols, s.length ≤ 2 := by decide

private theorem readSymbol?_line {s : List Char} (hs : s ∈ symbols) (text rest : List Char) :
    readSymbol? s (text ++ '\n' :: rest) = readSymbol? s text := by
  have hiff : s <+: text ++ '\n' :: rest ↔ s <+: text := by
    refine ⟨fun h => ?_, fun h => h.trans (List.prefix_append _ _)⟩
    rcases List.prefix_or_prefix_of_prefix h (List.prefix_append text ('\n' :: rest)) with h' | h'
    · exact h'
    · obtain ⟨more, rfl⟩ := h'
      cases more with
      | nil => exact ⟨[], by simp⟩
      | cons c more =>
        rw [List.prefix_append_right_inj, List.cons_prefix_cons] at h
        obtain ⟨-, -, -, hline, -⟩ := symbols_plain _ hs c (by simp)
        exact absurd h.1 hline
  simp only [readSymbol?, hiff]

theorem read?_line {p : Pattern} (hp : p ∈ all) (hne : text ≠ []) (rest : List Char) :
    p.read? (text ++ '\n' :: rest) = p.read? text := by
  obtain ⟨c, cs, rfl⟩ := List.exists_cons_of_ne_nil hne
  cases p with
  | word =>
    have hpart : isWordPart '\n' = false := by decide
    exact readWord?_behind hpart (c :: cs) rest
  | number =>
    have hdigit : Char.isDigit '\n' = false := by decide
    exact readNumber?_behind hdigit (by decide) (c :: cs) rest
  | blanks =>
    have hblank : isBlank '\n' = false := by decide
    rw [read?, readBlanks?, readBlanks?, takeWhile_behind hblank]
  | newLine =>
    by_cases hc : c = '\n'
    · subst hc
      rfl
    · rw [read?, List.cons_append, readNewLine?_none hc, readNewLine?_none hc]
  | string =>
    by_cases hc : c = '"'
    · subst hc
      rw [read?, List.cons_append, readString?, readString?, tail?_line]
    · rw [read?, List.cons_append, readString?_none hc, readString?_none hc]
  | comment => exact readComment?_line _ rest
  | symbol s => exact readSymbol?_line (by simpa [all] using hp) _ rest

end Pattern

namespace Lexeme
variable {text rest piece : List Char} {c : Char} {l : Lexeme}

theorem first?_pattern (h : first? text = some l) :
    l.pattern ∈ Pattern.all ∧ l.pattern.read? text = some l.text := by
  obtain ⟨p, hp, hread⟩ := List.exists_of_findSome?_eq_some h
  obtain ⟨piece, hpiece, rfl⟩ := Option.map_eq_some_iff.1 hread
  exact ⟨hp, hpiece⟩

/-! The first pattern that reads something decides. -/

theorem first?_word (h : Pattern.readWord? text = some piece) :
    first? text = some ⟨.word, piece⟩ := by
  rw [first?, Pattern.all, List.cons_append, List.findSome?_cons, Pattern.read?, h]
  rfl

theorem first?_number (h : Pattern.readNumber? text = some piece) :
    first? text = some ⟨.number, piece⟩ := by
  have hword : Pattern.readWord? text = none := by
    cases text with
    | nil => rfl
    | cons c cs =>
      by_cases hc : c.isDigit = true
      · exact Pattern.readWord?_none (isWordStart_of_isDigit hc) cs
      · rw [Pattern.readNumber?_none (by simpa using hc)] at h
        cases h
  rw [first?, Pattern.all, List.cons_append, List.findSome?_cons, Pattern.read?, hword,
    Option.map_none, List.cons_append, List.findSome?_cons, Pattern.read?, h]
  rfl

theorem first?_blanks (h : Pattern.readBlanks? text = some piece) :
    first? text = some ⟨.blanks, piece⟩ := by
  have hnone : Pattern.readWord? text = none ∧ Pattern.readNumber? text = none := by
    cases text with
    | nil => exact ⟨rfl, rfl⟩
    | cons c cs =>
      by_cases hc : isBlank c = true
      · rcases isBlank_cases hc with rfl | rfl | rfl <;> exact ⟨rfl, rfl⟩
      · rw [Pattern.readBlanks?_none (by simpa using hc)] at h
        cases h
  rw [first?, Pattern.all]
  simp only [List.cons_append, List.findSome?_cons, Pattern.read?, hnone, h, Option.map_none,
    Option.map_some]

theorem first?_newLine (cs : List Char) : first? ('\n' :: cs) = some ⟨.newLine, ['\n']⟩ := rfl

theorem first?_string (h : Pattern.readString? ('"' :: rest) = some piece) :
    first? ('"' :: rest) = some ⟨.string, piece⟩ := by
  have hword : Pattern.readWord? ('"' :: rest) = none := rfl
  have hnumber : Pattern.readNumber? ('"' :: rest) = none := rfl
  have hblanks : Pattern.readBlanks? ('"' :: rest) = none := rfl
  have hline : Pattern.readNewLine? ('"' :: rest) = none := rfl
  rw [first?, Pattern.all]
  simp only [List.cons_append, List.findSome?_cons, Pattern.read?, hword, hnumber, hblanks, hline,
    h, Option.map_none, Option.map_some]

theorem first?_comment (h : Pattern.readComment? text = some piece) :
    first? text = some ⟨.comment, piece⟩ := by
  obtain ⟨cs, rfl, rfl⟩ := Pattern.readComment?_cases h
  rfl

theorem symbols_ne_nil : ∀ s ∈ Pattern.symbols, s ≠ [] := by decide

private theorem findSome?_symbols {ss : List (List Char)} (hne : ∀ s ∈ ss, s ≠ []) :
    (ss.map Pattern.symbol).findSome? (fun p => (p.read? text).map (Lexeme.mk p)) =
      (ss.find? (· <+: text)).map fun s => ⟨.symbol s, s⟩ := by
  induction ss with
  | nil => rfl
  | cons s ss ih =>
    obtain ⟨hs, hss⟩ := List.forall_mem_cons.1 hne
    rw [List.map_cons, List.findSome?_cons, Pattern.read?, Pattern.readSymbol?, ih hss]
    by_cases hpre : s <+: text
    · rw [if_pos ⟨hs, hpre⟩, List.find?_cons_of_pos (by simpa using hpre)]
      rfl
    · rw [if_neg fun h => hpre h.2, List.find?_cons_of_neg (by simpa using hpre)]
      rfl

/-- Where a symbol but no comment begins, the first symbol that fits is taken. -/
theorem first?_find {s : List Char} (hs : s ∈ Pattern.symbols)
    (hcomment : Pattern.readComment? (s ++ rest) = none) :
    first? (s ++ rest) =
      (Pattern.symbols.find? (· <+: s ++ rest)).map fun t => ⟨.symbol t, t⟩ := by
  obtain ⟨c, cs, rfl⟩ := List.exists_cons_of_ne_nil (symbols_ne_nil s hs)
  obtain ⟨hword, hdigit, hblank, hline, hquote⟩ :=
    Pattern.symbols_plain _ hs c List.mem_cons_self
  rw [List.cons_append] at hcomment ⊢
  rw [← findSome?_symbols symbols_ne_nil, first?, Pattern.all, List.findSome?_append]
  simp only [List.findSome?_cons, List.findSome?_nil, Pattern.read?, hcomment,
    Pattern.readWord?_none hword, Pattern.readNumber?_none hdigit, Pattern.readBlanks?_none hblank,
    Pattern.readNewLine?_none hline, Pattern.readString?_none hquote, Option.map_none,
    Option.none_or]

/-- No symbol begins with one that stands before it. -/
private theorem symbols_longer_first :
    Pattern.symbols.Pairwise fun s t => ¬ s <+: t := by decide

/-- The symbol taken is the longest that fits. -/
theorem first?_symbol {s : List Char} (hs : s ∈ Pattern.symbols)
    (hcomment : Pattern.readComment? (s ++ rest) = none) :
    ∃ t ∈ Pattern.symbols, s <+: t ∧ first? (s ++ rest) = some ⟨.symbol t, t⟩ := by
  have hpre : s <+: s ++ rest := List.prefix_append s rest
  have hsome : (Pattern.symbols.find? (· <+: s ++ rest)).isSome = true :=
    List.find?_isSome.2 ⟨s, hs, by simp⟩
  obtain ⟨t, ht⟩ := Option.isSome_iff_exists.1 hsome
  obtain ⟨htpre, before, after, hsplit, hbefore⟩ := List.find?_eq_some_iff_append.1 ht
  refine ⟨t, hsplit ▸ by simp, ?_, by rw [first?_find hs hcomment, ht]; rfl⟩
  have htpre := of_decide_eq_true htpre
  rw [hsplit, List.mem_append, List.mem_cons] at hs
  rcases hs with hs | rfl | hs
  · simpa [hpre] using hbefore s hs
  · exact List.prefix_rfl
  · have hpairs := symbols_longer_first
    rw [hsplit, List.pairwise_append] at hpairs
    have hnot := (List.pairwise_cons.1 hpairs.2.1).1 s hs
    exact (List.prefix_or_prefix_of_prefix hpre htpre).resolve_right hnot

/-- The lexeme that a text begins with is as long as any piece that the text begins with. -/
theorem first?_longest {p : Pattern} (hp : p ∈ Pattern.all) (h : p.regex.Matches piece)
    (hne : piece ≠ []) (rest : List Char) :
    ∃ l, first? (piece ++ rest) = some l ∧ piece <+: l.text := by
  obtain ⟨more, hread⟩ := Pattern.read?_of_matches h hne rest
  have hpre : piece <+: piece ++ more := List.prefix_append piece more
  cases p with
  | word => exact ⟨_, first?_word hread, hpre⟩
  | number => exact ⟨_, first?_number hread, hpre⟩
  | blanks => exact ⟨_, first?_blanks hread, hpre⟩
  | newLine =>
    obtain rfl := Pattern.matches_newLine.1 h
    exact ⟨_, first?_newLine rest, List.prefix_rfl⟩
  | string =>
    obtain ⟨items, -, rfl⟩ := Pattern.matches_string.1 h
    exact ⟨_, first?_string hread, hpre⟩
  | comment => exact ⟨_, first?_comment hread, hpre⟩
  | symbol s =>
    obtain rfl := Pattern.matches_symbol.1 h
    have hs : piece ∈ Pattern.symbols := by simpa [Pattern.all] using hp
    cases hcomment : Pattern.readComment? (piece ++ rest) with
    | none =>
      obtain ⟨t, -, ht, hfirst⟩ := first?_symbol hs hcomment
      exact ⟨_, hfirst, ht⟩
    | some t =>
      have hl := first?_comment hcomment
      obtain ⟨cs, -, rfl⟩ := Pattern.readComment?_cases hcomment
      refine ⟨_, hl, List.prefix_of_prefix_length_le (List.prefix_append piece rest)
        (first?_isPrefix hl).2 ((Pattern.symbols_short piece hs).trans ?_)⟩
      simp

theorem findSome?_congr {f g : Pattern → Option Lexeme} {ps : List Pattern}
    (h : ∀ p ∈ ps, f p = g p) : ps.findSome? f = ps.findSome? g := by
  induction ps with
  | nil => rfl
  | cons p ps ih =>
    obtain ⟨hp, hps⟩ := List.forall_mem_cons.1 h
    rw [List.findSome?_cons, List.findSome?_cons, hp, ih hps]

theorem ne_nil_of_first? (h : first? text = some l) : text ≠ [] := by
  rintro rfl
  obtain ⟨hnil, hpre⟩ := first?_isPrefix h
  exact hnil (List.prefix_nil.1 hpre)

/-- What begins before the end of a line does not depend on what follows the line. -/
theorem first?_line (hne : text ≠ []) (rest : List Char) :
    first? (text ++ '\n' :: rest) = first? text :=
  findSome?_congr fun p hp => by rw [Pattern.read?_line hp hne]

theorem first?_before_line (h : first? text = some l) (rest : List Char) :
    first? (text ++ '\n' :: rest) = some l := by
  rw [first?_line (ne_nil_of_first? h), h]

/-! All lexemes of a text. -/

theorem readAll_of_first? (h : first? text = some l) :
    readAll text = (l :: (readAll (text.drop l.text.length)).1,
      (readAll (text.drop l.text.length)).2) := by
  rw [readAll]
  split
  · next hnone =>
    rw [h] at hnone
    cases hnone
  · next l' hsome =>
    obtain rfl := Option.some.inj (h.symm.trans hsome)
    rfl

theorem readAll_none (h : first? text = none) : readAll text = ([], text) := by
  rw [readAll]
  split
  · rfl
  · next l hsome =>
    rw [h] at hsome
    cases hsome

/-- One lexeme after the other, as long as there is one. -/
inductive Reads : List Char → List Lexeme → List Char → Prop where
  | stop {text : List Char} (h : first? text = none) : Reads text [] text
  | step {l : Lexeme} {ls : List Lexeme} {rest last : List Char}
      (h : first? (l.text ++ rest) = some l) (next : Reads rest ls last) :
      Reads (l.text ++ rest) (l :: ls) last

theorem reads_readAll (text : List Char) : Reads text (readAll text).1 (readAll text).2 := by
  cases hfirst : first? text with
  | none =>
    rw [readAll_none hfirst]
    exact .stop hfirst
  | some l =>
    obtain ⟨-, rest, htext⟩ := first?_isPrefix hfirst
    have hnext := reads_readAll (text.drop l.text.length)
    rw [readAll_of_first? hfirst]
    subst htext
    rw [List.drop_left] at hnext ⊢
    exact .step hfirst hnext
termination_by text.length
decreasing_by exact length_drop_lt ‹_›

theorem Reads.readAll_eq {ls : List Lexeme} {last : List Char} (h : Reads text ls last) :
    readAll text = (ls, last) := by
  induction h with
  | stop h => exact readAll_none h
  | step h _ ih => rw [readAll_of_first? h, List.drop_left, ih]

theorem Reads.text_eq {ls : List Lexeme} {last : List Char} (h : Reads text ls last) :
    text = ls.flatMap Lexeme.text ++ last := by
  induction h with
  | stop => rfl
  | step h _ ih => rw [List.flatMap_cons, List.append_assoc, ← ih]

theorem Reads.pattern {ls : List Lexeme} {last : List Char} (h : Reads text ls last) :
    ∀ l ∈ ls, l.pattern ∈ Pattern.all ∧ ∃ t, l.pattern.read? t = some l.text := by
  induction h with
  | stop => exact fun l hl => absurd hl List.not_mem_nil
  | step h _ ih =>
    obtain ⟨hpattern, hread⟩ := first?_pattern h
    exact List.forall_mem_cons.2 ⟨⟨hpattern, _, hread⟩, ih⟩

/-- A text that is one lexeme. -/
theorem reads_single {l : Lexeme} (h : first? l.text = some l) : Reads l.text [l] [] := by
  have hend : Reads [] [] [] := .stop rfl
  have hstep := Reads.step (by rwa [List.append_nil]) hend
  rwa [List.append_nil] at hstep

/-- A line that is read to its end is followed by its end and by what is read behind it. -/
theorem Reads.line {ls ls' : List Lexeme} {last : List Char} (h : Reads text ls [])
    (h' : Reads rest ls' last) :
    Reads (text ++ '\n' :: rest) (ls ++ ⟨.newLine, ['\n']⟩ :: ls') last := by
  generalize hnil : ([] : List Char) = stop at h
  induction h with
  | stop h =>
    subst hnil
    have hline : Reads (['\n'] ++ rest) (⟨.newLine, ['\n']⟩ :: ls') last :=
      Reads.step (l := ⟨.newLine, ['\n']⟩) (first?_newLine rest) h'
    exact hline
  | @step l ls behind stop h _ ih =>
    have hread := first?_before_line h rest
    rw [List.append_assoc] at hread ⊢
    exact .step hread (ih hnil)

/-- Where no lexeme begins in a line, none begins whatever follows the line. -/
theorem Reads.line_stop {ls : List Lexeme} {last : List Char} (h : Reads text ls last)
    (hne : last ≠ []) (rest : List Char) :
    Reads (text ++ '\n' :: rest) ls (last ++ '\n' :: rest) := by
  induction h with
  | stop h => exact .stop (by rw [first?_line hne]; exact h)
  | step h _ ih =>
    have hread := first?_before_line h rest
    rw [List.append_assoc] at hread ⊢
    exact .step hread (ih hne)

end Lexeme
end ScriptSyntax
