import ScriptSyntax.Proofs.Scanning

/-! Source text as a concatenation of pieces, however it is cut. Reading the longest piece each time
goes as far as any other way of cutting. -/
namespace ScriptSyntax

/-- A text that one of the patterns matches as a whole. -/
def IsPiece (s : List Char) : Prop := ∃ p ∈ Pattern.all, p.regex.Matches s

/-- A text that can be cut into nonempty pieces. -/
def Splits (s : List Char) : Prop :=
  ∃ pieces : List (List Char), (∀ q ∈ pieces, q ≠ [] ∧ IsPiece q) ∧ s = pieces.flatten

variable {s t x y before text rest : List Char} {c d : Char} {p : Pattern} {l : Lexeme}

theorem splits_nil : Splits [] := ⟨[], by simp, rfl⟩

theorem IsPiece.splits (h : IsPiece s) : Splits s := by
  by_cases hne : s = []
  · rw [hne]
    exact splits_nil
  · exact ⟨[s], by simp [hne, h], by simp⟩

theorem Splits.append (hs : Splits s) (ht : Splits t) : Splits (s ++ t) := by
  obtain ⟨pieces, hpieces, rfl⟩ := hs
  obtain ⟨pieces', hpieces', rfl⟩ := ht
  refine ⟨pieces ++ pieces', fun q hq => ?_, List.flatten_append.symm⟩
  rcases List.mem_append.1 hq with hq | hq
  · exact hpieces q hq
  · exact hpieces' q hq

/-- A split text is empty, or it begins with a piece. -/
theorem Splits.cases (h : Splits s) :
    s = [] ∨ ∃ q t, q ≠ [] ∧ IsPiece q ∧ Splits t ∧ s = q ++ t := by
  obtain ⟨pieces, hpieces, rfl⟩ := h
  cases pieces with
  | nil => exact .inl rfl
  | cons q pieces =>
    obtain ⟨⟨hne, hq⟩, hpieces⟩ := List.forall_mem_cons.1 hpieces
    exact .inr ⟨q, pieces.flatten, hne, hq, ⟨pieces, hpieces, rfl⟩, rfl⟩

/-- A symbol is a piece. -/
theorem isPiece_symbol (h : s ∈ Pattern.symbols) : IsPiece s :=
  ⟨.symbol s, by simp [Pattern.all, h], Pattern.matches_symbol.2 rfl⟩

/-! What a piece may begin with. -/

/-- The characters that a piece of a pattern begins with. -/
def Pattern.begins (c : Char) : Pattern → Bool
  | word => isWordStart c
  | number => c.isDigit
  | blanks => isBlank c
  | newLine => c = '\n'
  | string => c = '"'
  | comment => c = '/'
  | symbol s => s.head? = some c

theorem Pattern.begins_of_matches (h : p.regex.Matches (c :: s)) : p.begins c = true := by
  cases p with
  | word =>
    obtain ⟨d, ds, hd, -, heq⟩ := matches_word.1 h
    rwa [(List.cons.inj heq).1]
  | number =>
    rcases matches_number.1 h with ⟨-, hdigits⟩ | ⟨whole, digits, ⟨hne, hwhole⟩, -, heq⟩
    · exact hdigits c List.mem_cons_self
    · cases whole with
      | nil => exact absurd rfl hne
      | cons d whole =>
        rw [(List.cons.inj heq).1]
        exact hwhole d List.mem_cons_self
  | blanks => exact (matches_blanks.1 h).2 c List.mem_cons_self
  | newLine => exact decide_eq_true (List.cons.inj (matches_newLine.1 h)).1
  | string =>
    obtain ⟨items, -, heq⟩ := matches_string.1 h
    exact decide_eq_true (List.cons.inj heq).1
  | comment =>
    obtain ⟨cs, -, heq⟩ := matches_comment.1 h
    exact decide_eq_true (List.cons.inj heq).1
  | symbol s' =>
    rw [← matches_symbol.1 h]
    exact decide_eq_true rfl

namespace Pattern

private theorem mem_of_begins_symbol (h : (symbol s).begins c = true) : c ∈ s :=
  List.mem_of_mem_head? (of_decide_eq_true h)

/-- Inside a word only words and numbers may begin. -/
theorem begins_wordPart (hp : p ∈ all) (hb : p.begins c = true) (hc : isWordPart c = true) :
    p = word ∨ p = number := by
  cases p with
  | word => exact .inl rfl
  | number => exact .inr rfl
  | blanks => rcases isBlank_cases hb with rfl | rfl | rfl <;> exact absurd hc (by decide)
  | newLine | string | comment =>
    obtain rfl := of_decide_eq_true hb
    exact absurd hc (by decide)
  | symbol s =>
    obtain ⟨hword, hdigit, -⟩ := symbols_plain s (by simpa [all] using hp) c
      (mem_of_begins_symbol hb)
    rcases isWordPart_iff.1 hc with h | h
    · rw [hword] at h
      cases h
    · rw [hdigit] at h
      cases h

theorem begins_blank (hp : p ∈ all) (hb : p.begins c = true) (hc : isBlank c = true) :
    p = blanks := by
  have hpart : isWordPart c = false := by
    rcases isBlank_cases hc with rfl | rfl | rfl <;> decide
  cases p with
  | word =>
    rw [isWordPart_iff.2 (.inl hb)] at hpart
    cases hpart
  | number =>
    rw [isWordPart_iff.2 (.inr hb)] at hpart
    cases hpart
  | blanks => rfl
  | newLine | string | comment =>
    obtain rfl := of_decide_eq_true hb
    exact absurd hc (by decide)
  | symbol s =>
    obtain ⟨-, -, hblank, -⟩ := symbols_plain s (by simpa [all] using hp) c
      (mem_of_begins_symbol hb)
    rw [hblank] at hc
    cases hc

/-- At a character of a symbol only symbols may begin, and at a slash comments. -/
theorem begins_symbol (hs : s ∈ symbols) (hc : c ∈ s) (hslash : c ≠ '/')
    (hb : p.begins c = true) : ∃ t, p = symbol t := by
  obtain ⟨hword, hdigit, hblank, hline, hquote⟩ := symbols_plain s hs c hc
  cases p with
  | word =>
    rw [begins, hword] at hb
    cases hb
  | number =>
    rw [begins, hdigit] at hb
    cases hb
  | blanks =>
    rw [begins, hblank] at hb
    cases hb
  | newLine => exact absurd (of_decide_eq_true hb) hline
  | string => exact absurd (of_decide_eq_true hb) hquote
  | comment => exact absurd (of_decide_eq_true hb) hslash
  | symbol t => exact ⟨t, rfl⟩

theorem begins_quote (hp : p ∈ all) (hb : p.begins '"' = true) : p = string := by
  cases p with
  | string => rfl
  | word | number | blanks | newLine | comment => cases hb
  | symbol s =>
    obtain ⟨-, -, -, -, hquote⟩ := symbols_plain s (by simpa [all] using hp) _
      (mem_of_begins_symbol hb)
    exact absurd rfl hquote

theorem begins_newLine (hp : p ∈ all) (hb : p.begins '\n' = true) : p = newLine := by
  cases p with
  | newLine => rfl
  | word | number | blanks | string | comment => cases hb
  | symbol s =>
    obtain ⟨-, -, -, hline, -⟩ := symbols_plain s (by simpa [all] using hp) _
      (mem_of_begins_symbol hb)
    exact absurd rfl hline

end Pattern

/-- The end of a line stands in no piece but its own. -/
theorem IsPiece.newLine (h : IsPiece s) (hc : '\n' ∈ s) : s = ['\n'] := by
  obtain ⟨p, hp, h⟩ := h
  obtain ⟨a, b, rfl⟩ := List.append_of_mem hc
  by_cases ha : a = []
  · subst ha
    obtain rfl := Pattern.begins_newLine hp (Pattern.begins_of_matches h)
    exact Pattern.matches_newLine.1 h
  · obtain ⟨more, hread⟩ := Pattern.read?_of_matches h (by simp) []
    rw [List.append_nil, Pattern.read?_line hp ha] at hread
    have hle := (Pattern.read?_isPrefix hread).2.length_le
    simp only [List.length_append, List.length_cons] at hle
    omega

/-! The longest piece against a piece that lies across its end. -/

theorem IsPiece.isPrefix (h : IsPiece s) (hne : s ≠ []) (hfirst : Lexeme.first? text = some l)
    (hpre : s <+: text) : s <+: l.text := by
  obtain ⟨p, hp, h⟩ := h
  obtain ⟨rest, rfl⟩ := hpre
  obtain ⟨l', hl', hpre⟩ := Lexeme.first?_longest hp h hne rest
  rw [hfirst] at hl'
  rwa [Option.some.inj hl']

theorem Lexeme.isPiece (h : first? text = some l) : IsPiece l.text := by
  obtain ⟨hp, hread⟩ := first?_pattern h
  exact ⟨l.pattern, hp, Pattern.matches_of_read? hread⟩

/-- A lexeme does not go on with the next character. -/
theorem Lexeme.ends (h : first? (l.text ++ c :: rest) = some l) : ¬ IsPiece (l.text ++ [c]) := by
  intro hpiece
  have hpre : l.text ++ [c] <+: l.text ++ c :: rest := ⟨rest, by simp⟩
  have hle := (hpiece.isPrefix (by simp) h hpre).length_le
  rw [List.length_append, List.length_singleton] at hle
  omega

private theorem matches_number_grow (h : Pattern.number.regex.Matches s) (hc : c.isDigit = true) :
    Pattern.number.regex.Matches (s ++ [c]) := by
  have hgrow : ∀ ds, IsDigits ds → IsDigits (ds ++ [c]) := fun ds hds =>
    ⟨by simp, by simpa [or_imp, forall_and, hc] using hds.2⟩
  rw [Pattern.matches_number] at h ⊢
  rcases h with hdigits | ⟨whole, digits, hwhole, hdigits, rfl⟩
  · exact .inl (hgrow _ hdigits)
  · exact .inr ⟨whole, digits ++ [c], hwhole, hgrow _ hdigits, by simp⟩

private theorem splits_digits (h : IsDigits s) : Splits s :=
  IsPiece.splits ⟨.number, by simp [Pattern.all], Pattern.matches_number.2 (.inl h)⟩

/-- What is cut off a number begins with a digit, or it is a point with digits. -/
private theorem number_cut (h : Pattern.number.regex.Matches (x ++ c :: y)) :
    c.isDigit = true ∨ Splits (c :: y) := by
  rcases Pattern.matches_number.1 h with ⟨-, hdigits⟩ | ⟨whole, digits, hwhole, hdigits, heq⟩
  · exact .inl (hdigits c (by simp))
  · have hpoint : Splits ('.' :: digits) :=
      (isPiece_symbol (s := ['.']) (by decide)).splits.append (splits_digits hdigits)
    rcases List.append_eq_append_iff.1 heq with ⟨a, rfl, ha⟩ | ⟨b, rfl, hb⟩
    · cases a with
      | nil =>
        rw [ha]
        exact .inr hpoint
      | cons d a =>
        obtain ⟨rfl, -⟩ := List.cons.inj ha
        exact .inl (hwhole.2 c (by simp))
    · cases b with
      | nil =>
        rw [List.nil_append] at hb
        rw [← hb]
        exact .inr hpoint
      | cons d b =>
        obtain ⟨-, rfl⟩ := List.cons.inj hb
        exact .inl (hdigits.2 c (by simp))

private theorem symbols_slash : ∀ s ∈ Pattern.symbols, '/' ∈ s → s = ['/'] := by decide

private theorem symbols_point : ∀ s ∈ Pattern.symbols, s.head? = some '.' → s = ['.'] := by decide

/-- Where a symbol of two that are symbols themselves is followed by the rest of a symbol, this rest
is a symbol too. -/
private theorem symbols_overlap : ∀ s ∈ Pattern.symbols, ∀ t ∈ Pattern.symbols,
    s.take 1 ∈ Pattern.symbols → s.drop 1 = t.take 1 →
      t.drop 1 = [] ∨ t.drop 1 ∈ Pattern.symbols := by
  decide +kernel

/-- No string begins with another one. -/
theorem string_unique {q : List Char} (hq : Pattern.string.regex.Matches q)
    (hs : Pattern.string.regex.Matches (q ++ rest)) : rest = [] := by
  obtain ⟨items, hitems, rfl⟩ := Pattern.matches_string.1 hq
  obtain ⟨more, hread⟩ := Pattern.read?_of_matches hs (by simp) []
  rw [List.append_nil, Pattern.read?, List.cons_append, List.append_assoc, Pattern.readString?,
    List.singleton_append, StringLiteral.tail?_items hitems] at hread
  have hlen := congrArg List.length (Option.some.inj hread)
  simp only [List.length_cons, List.length_append, List.length_nil] at hlen
  exact List.length_eq_zero_iff.1 (by omega)

/-! In each case the lexeme is `before ++ d :: x` and `c` comes next. A piece that begins at `d` and
goes on with `c` leaves a rest that splits. -/

private theorem straddles_word (hl : Pattern.word.regex.Matches (before ++ d :: x))
    (hend : ¬ IsPiece (before ++ d :: x ++ [c])) (hp : p ∈ Pattern.all)
    (h : p.regex.Matches (d :: x ++ c :: y)) : Splits (c :: y) := by
  obtain ⟨w, ws, hw, hws, heq⟩ := Pattern.matches_word.1 hl
  have hparts : ∀ e ∈ before ++ d :: x, isWordPart e = true := by
    rw [heq]
    exact List.forall_mem_cons.2 ⟨isWordPart_iff.2 (.inl hw), hws⟩
  have hc : isWordPart c = false := by
    refine Bool.eq_false_iff.2 fun hc => hend ⟨.word, by simp [Pattern.all], ?_⟩
    rw [heq]
    refine Pattern.matches_word.2 ⟨w, ws ++ [c], hw, fun e he => ?_, rfl⟩
    rcases List.mem_append.1 he with he | he
    · exact hws e he
    · rwa [List.mem_singleton.1 he]
  rcases Pattern.begins_wordPart hp (Pattern.begins_of_matches h) (hparts d (by simp))
    with rfl | rfl
  · obtain ⟨w', ws', -, hws', heq'⟩ := Pattern.matches_word.1 h
    obtain ⟨-, rfl⟩ := List.cons.inj heq'
    rw [hws' c (by simp)] at hc
    cases hc
  · refine (number_cut h).resolve_left fun hdigit => ?_
    rw [isWordPart_iff.2 (.inr hdigit)] at hc
    cases hc

private theorem straddles_number (hl : Pattern.number.regex.Matches (before ++ d :: x))
    (hend : ¬ IsPiece (before ++ d :: x ++ [c])) (hp : p ∈ Pattern.all)
    (h : p.regex.Matches (d :: x ++ c :: y)) : Splits (c :: y) := by
  have hbegins := Pattern.begins_of_matches h
  have hd : d.isDigit = true ∨ d = '.' := by
    rcases Pattern.matches_number.1 hl with ⟨-, hdigits⟩ | ⟨whole, digits, hwhole, hdigits, heq⟩
    · exact .inl (hdigits d (by simp))
    · have hmem : d ∈ whole ++ '.' :: digits := heq ▸ by simp
      rcases List.mem_append.1 hmem with hmem | hmem
      · exact .inl (hwhole.2 d hmem)
      · exact (List.mem_cons.1 hmem).symm.imp_left (hdigits.2 d)
  rcases hd with hd | rfl
  · rcases Pattern.begins_wordPart hp hbegins (isWordPart_iff.2 (.inr hd)) with rfl | rfl
    · rw [Pattern.begins, isWordStart_of_isDigit hd] at hbegins
      cases hbegins
    · refine (number_cut h).resolve_left fun hdigit => hend ⟨.number, by simp [Pattern.all], ?_⟩
      exact matches_number_grow hl hdigit
  · obtain ⟨t, rfl⟩ :=
      Pattern.begins_symbol (s := ['.']) (by decide) (by simp) (by decide) hbegins
    rw [Pattern.matches_symbol] at h
    have ht := symbols_point t (by simpa [Pattern.all] using hp) (by rw [← h]; rfl)
    simp [← h] at ht

private theorem straddles_blanks (hl : Pattern.blanks.regex.Matches (before ++ d :: x))
    (hend : ¬ IsPiece (before ++ d :: x ++ [c])) (hp : p ∈ Pattern.all)
    (h : p.regex.Matches (d :: x ++ c :: y)) : Splits (c :: y) := by
  obtain ⟨-, hblanks⟩ := Pattern.matches_blanks.1 hl
  obtain rfl := Pattern.begins_blank hp (Pattern.begins_of_matches h) (hblanks d (by simp))
  have hc := (Pattern.matches_blanks.1 h).2 c (by simp)
  refine absurd ⟨.blanks, by simp [Pattern.all], Pattern.matches_blanks.2 ⟨by simp, ?_⟩⟩ hend
  intro e he
  rcases List.mem_append.1 he with he | he
  · exact hblanks e he
  · rwa [List.mem_singleton.1 he]

/-- A comment goes on with everything but the end of the line. -/
theorem isPiece_comment_grow (h : Pattern.comment.regex.Matches s) (hc : c ≠ '\n') :
    IsPiece (s ++ [c]) := by
  obtain ⟨cs, hcs, rfl⟩ := Pattern.matches_comment.1 h
  refine ⟨.comment, by simp [Pattern.all], Pattern.matches_comment.2
    ⟨cs ++ [c], fun e he => ?_, rfl⟩⟩
  rcases List.mem_append.1 he with he | he
  · exact hcs e he
  · rwa [List.mem_singleton.1 he]

private theorem straddles_comment (hl : Pattern.comment.regex.Matches (before ++ d :: x))
    (hend : ¬ IsPiece (before ++ d :: x ++ [c])) (h : IsPiece (d :: x ++ c :: y)) :
    Splits (c :: y) := by
  by_cases hc : c = '\n'
  · subst hc
    have hlen := congrArg List.length (h.newLine (by simp))
    simp at hlen
  · exact absurd (isPiece_comment_grow hl hc) hend

private theorem straddles_string (hl : Pattern.string.regex.Matches (before ++ d :: x))
    (hne : before ≠ []) (hbefore : Splits before) : False := by
  obtain rfl | ⟨q, t, hq, ⟨p, hp, h⟩, -, rfl⟩ := hbefore.cases
  · exact hne rfl
  · obtain ⟨items, -, heq⟩ := Pattern.matches_string.1 hl
    obtain ⟨e, q, rfl⟩ := List.exists_cons_of_ne_nil hq
    obtain ⟨rfl, -⟩ := List.cons.inj heq
    obtain rfl := Pattern.begins_quote hp (Pattern.begins_of_matches h)
    rw [List.append_assoc] at hl
    have hnil := string_unique h hl
    simp at hnil

private theorem symbol_of_mem {s : List Char} (hs : s ∈ Pattern.symbols) (hlen : s.length = 2)
    (hc : c ∈ s) (h : IsPiece (c :: y)) : c :: y ∈ Pattern.symbols := by
  have hslash : c ≠ '/' := by
    rintro rfl
    rw [symbols_slash s hs hc] at hlen
    cases hlen
  obtain ⟨p, hp, h⟩ := h
  obtain ⟨t, rfl⟩ := Pattern.begins_symbol hs hc hslash (Pattern.begins_of_matches h)
  rw [Pattern.matches_symbol.1 h]
  simpa [Pattern.all] using hp

private theorem straddles_symbol (hl : before ++ d :: x ∈ Pattern.symbols) (hne : before ≠ [])
    (hbefore : Splits before) (h : IsPiece (d :: x ++ c :: y)) : Splits (c :: y) := by
  obtain ⟨a, before, rfl⟩ := List.exists_cons_of_ne_nil hne
  have hshort := Pattern.symbols_short _ hl
  simp only [List.length_append, List.length_cons] at hshort
  obtain rfl : before = [] := List.length_eq_zero_iff.1 (by omega)
  obtain rfl : x = [] := List.length_eq_zero_iff.1 (by omega)
  obtain hnil | ⟨q, t, hq, hpiece, -, heq⟩ := hbefore.cases
  · cases hnil
  · obtain ⟨e, q, rfl⟩ := List.exists_cons_of_ne_nil hq
    obtain ⟨rfl, hnil⟩ := List.cons.inj heq
    obtain ⟨rfl, -⟩ := List.append_eq_nil_iff.1 hnil.symm
    have ha : [a] ∈ Pattern.symbols := symbol_of_mem hl rfl (by simp) hpiece
    have hd : d :: c :: y ∈ Pattern.symbols := symbol_of_mem hl rfl (by simp) h
    rcases symbols_overlap _ hl _ hd ha rfl with hnil | hrest
    · cases hnil
    · exact (isPiece_symbol hrest).splits

/-- A piece across the end of the lexeme that a text begins with leaves a rest that splits. -/
private theorem splits_straddling (hfirst : Lexeme.first? (l.text ++ c :: rest) = some l)
    (htext : l.text = before ++ d :: x) (hbefore : Splits before)
    (h : IsPiece (d :: x ++ c :: y)) (hpre : c :: y <+: c :: rest) : Splits (c :: y) := by
  have hend := Lexeme.ends hfirst
  obtain ⟨hp, hread⟩ := Lexeme.first?_pattern hfirst
  have hl := Pattern.matches_of_read? hread
  by_cases hne : before = []
  · subst hne
    rw [List.nil_append] at htext
    have hle : d :: x ++ c :: y <+: l.text := by
      refine h.isPrefix (by simp) hfirst ?_
      rw [htext]
      exact (List.prefix_append_right_inj _).2 hpre
    have hlen := hle.length_le
    simp only [htext, List.length_append, List.length_cons] at hlen
    omega
  rw [htext] at hl hend
  obtain ⟨p, hp', h'⟩ := h
  cases hpattern : l.pattern with
  | word => exact straddles_word (hpattern ▸ hl) hend hp' h'
  | number => exact straddles_number (hpattern ▸ hl) hend hp' h'
  | blanks => exact straddles_blanks (hpattern ▸ hl) hend hp' h'
  | newLine =>
    rw [hpattern, Pattern.matches_newLine] at hl
    have hlen := congrArg List.length hl
    have hpos := List.length_pos_iff.2 hne
    simp only [List.length_append, List.length_cons, List.length_nil] at hlen
    omega
  | string => exact (straddles_string (hpattern ▸ hl) hne hbefore).elim
  | comment => exact straddles_comment (hpattern ▸ hl) hend ⟨p, hp', h'⟩
  | symbol s =>
    rw [hpattern, Pattern.matches_symbol] at hl
    rw [hpattern] at hp
    refine straddles_symbol (hl ▸ ?_) hne hbefore ⟨p, hp', h'⟩
    simpa [Pattern.all] using hp

/-- Where a text that splits begins with the lexeme, what is left of it splits too. -/
theorem Splits.of_first? (h : Splits (l.text ++ s)) (hfirst : Lexeme.first? (l.text ++ t) = some l)
    (hpre : s <+: t) : Splits s := by
  obtain ⟨pieces, hpieces, heq⟩ := h
  rcases List.flatten_eq_append_iff.1 heq.symm with
    ⟨before, after, rfl, -, rfl⟩ | ⟨before, a, c, y, after, rfl, htext, rfl⟩
  · exact ⟨after, fun q hq => hpieces q (List.mem_append_right _ hq), rfl⟩
  · have hbefore : Splits before.flatten :=
      ⟨before, fun q hq => hpieces q (List.mem_append_left _ hq), rfl⟩
    have hafter : Splits after.flatten := ⟨after, fun q hq => hpieces q (by simp [hq]), rfl⟩
    obtain ⟨-, hpiece⟩ := hpieces (a ++ c :: y) (by simp)
    refine Splits.append ?_ hafter
    cases a with
    | nil => exact hpiece.splits
    | cons d x =>
      obtain ⟨more, rfl⟩ := hpre
      rw [List.append_assoc, List.cons_append] at hfirst
      exact splits_straddling hfirst htext hbefore hpiece ⟨after.flatten ++ more, by simp⟩

/-- Nothing that splits reaches farther than the lexemes do. -/
theorem Splits.isPrefix {ls : List Lexeme} {last : List Char} (h : Splits s)
    (hreads : Lexeme.Reads text ls last) (hpre : s <+: text) : s <+: ls.flatMap Lexeme.text := by
  induction hreads generalizing s with
  | @stop text hnone =>
    obtain rfl | ⟨q, t, hne, ⟨p, hp, hq⟩, -, rfl⟩ := h.cases
    · exact List.nil_prefix
    · obtain ⟨more, rfl⟩ := hpre
      obtain ⟨l, hl, -⟩ := Lexeme.first?_longest hp hq hne (t ++ more)
      rw [List.append_assoc, hl] at hnone
      cases hnone
  | @step l ls rest last hfirst _ ih =>
    rw [List.flatMap_cons]
    rcases List.prefix_or_prefix_of_prefix hpre (List.prefix_append l.text rest) with hle | hle
    · exact hle.trans (List.prefix_append _ _)
    · obtain ⟨s, rfl⟩ := hle
      rw [List.prefix_append_right_inj] at hpre ⊢
      exact ih (h.of_first? hfirst hpre) hpre

theorem Lexeme.Reads.splits {ls : List Lexeme} {last : List Char}
    (h : Reads text ls last) : Splits (ls.flatMap Lexeme.text) := by
  induction h with
  | stop => exact splits_nil
  | step h _ ih =>
    rw [List.flatMap_cons]
    exact (isPiece h).splits.append ih

/-- Taking the first pattern that fits, the lexer refuses no source that can be cut into pieces. It
stops at the first character behind the longest beginning that can be cut. -/
theorem tokenize_splits (source : String) (file : Option String)
    (hsize : source.utf8ByteSize ≤ maxOffset) :
    ((∃ tokens, tokenize source file = .ok tokens) ↔ Splits source.toList) ∧
      ∀ e, tokenize source file = .error e →
        ∃ before c after, source.toList = before ++ c :: after ∧ Splits before ∧
          (∀ s, s <+: source.toList → Splits s → s.length ≤ before.length) ∧
          e.cause = .unrecognised (String.singleton c) ∧
          e.position.offset.toNat = Text.byteCount before := by
  have hreads := Lexeme.reads_readAll source.toList
  generalize (Lexeme.readAll source.toList).1 = ls at hreads
  generalize (Lexeme.readAll source.toList).2 = last at hreads
  have htext := hreads.text_eq
  have hlongest : ∀ s, s <+: source.toList → Splits s →
      s.length ≤ (ls.flatMap Lexeme.text).length :=
    fun s hpre hs => (hs.isPrefix hreads hpre).length_le
  cases last with
  | nil =>
    have hok := tokenize_of_reads hsize hreads file
    rw [List.append_nil] at htext
    refine ⟨⟨fun _ => htext ▸ hreads.splits, fun _ => ⟨_, hok⟩⟩, fun e he => ?_⟩
    rw [hok] at he
    cases he
  | cons c after =>
    have herror := tokenize_of_reads_stop hsize hreads file
    refine ⟨⟨?_, fun hs => ?_⟩, fun e he => ?_⟩
    · rintro ⟨tokens, hok⟩
      rw [herror] at hok
      cases hok
    · have hle := hlongest _ List.prefix_rfl hs
      rw [htext, List.length_append, List.length_cons] at hle
      omega
    · rw [herror] at he
      obtain rfl := Except.error.inj he
      refine ⟨_, c, after, htext, hreads.splits, hlongest, rfl, Place.offset_after ?_⟩
      rw [← byteCount_toList, htext, Text.byteCount_append] at hsize
      omega

/-- The lexer cuts this source as `>=`, `=`, `1.5`, but any other cut shows that it is accepted. -/
theorem tokenize_splits_otherwise : ∃ tokens, tokenize ">==1.5" none = .ok tokens := by
  refine (tokenize_splits ">==1.5" none (by decide)).1.2 ?_
  have hsymbols : ∀ s ∈ [['>'], ['=', '='], ['.']], s ∈ Pattern.symbols := by decide +kernel
  have hsymbol : ∀ s ∈ [['>'], ['=', '='], ['.']], Splits s := fun s hs =>
    (isPiece_symbol (hsymbols s hs)).splits
  have hpoint : Splits (['>'] ++ (['=', '='] ++ (['1'] ++ (['.'] ++ ['5'])))) :=
    (hsymbol _ (by simp)).append ((hsymbol _ (by simp)).append
      ((splits_digits ⟨by simp, by simp⟩).append ((hsymbol _ (by simp)).append
        (splits_digits ⟨by simp, by simp⟩))))
  exact hpoint

end ScriptSyntax
