import Mathlib.Data.List.Forall2
import ScriptSyntax.Proofs.Slices

/-! Blanks put between the lexemes of a source. They are skipped, alone or with the blanks or the
comment beside them, and all that was read before is read again. -/
namespace ScriptSyntax
open Text

variable {s t text rest run last : List Char} {c : Char} {p : Pattern} {k l : Lexeme}
  {ls ls' left right : List Lexeme}

/-! Blanks behind a lexeme. -/

namespace Pattern

/-- A blank stands in blanks, in comments and in strings only. -/
theorem holds_blank (hp : p ∈ all) (h : p.regex.Matches s) (hc : c ∈ s)
    (hblank : isBlank c = true) : p = blanks ∨ p = comment ∨ p = string := by
  have hother : isWordPart c = false ∧ c.isDigit = false ∧ c ≠ '.' ∧ c ≠ '\n' := by
    rcases isBlank_cases hblank with rfl | rfl | rfl <;> decide
  obtain ⟨hpart, hdigit, hpoint, hline⟩ := hother
  have hnodigit : ∀ ds : List Char, (∀ d ∈ ds, d.isDigit = true) → c ∉ ds := by
    intro ds hds hmem
    rw [hds c hmem] at hdigit
    cases hdigit
  cases p with
  | word =>
    obtain ⟨d, ds, hd, hds, rfl⟩ := matches_word.1 h
    have hparts : ∀ e ∈ d :: ds, isWordPart e = true :=
      List.forall_mem_cons.2 ⟨isWordPart_iff.2 (.inl hd), hds⟩
    rw [hparts c hc] at hpart
    cases hpart
  | number =>
    rcases matches_number.1 h with ⟨-, hdigits⟩ | ⟨whole, digits, hwhole, hdigits, rfl⟩
    · exact absurd hc (hnodigit _ hdigits)
    · have hnone : c ∉ whole ++ '.' :: digits := by
        simp [hnodigit _ hwhole.2, hnodigit _ hdigits.2, hpoint]
      exact absurd hc hnone
  | newLine =>
    rw [matches_newLine.1 h] at hc
    exact absurd (List.mem_singleton.1 hc) hline
  | symbol t =>
    rw [matches_symbol.1 h] at hc
    have hplain := (symbols_plain t (by simpa [all] using hp) c hc).2.2.1
    rw [hblank] at hplain
    cases hplain
  | blanks => exact .inl rfl
  | comment => exact .inr (.inl rfl)
  | string => exact .inr (.inr rfl)

/-- What stands in front of a blank in blanks or in a comment is of the same kind. -/
theorem matches_before_blank (hp : p = blanks ∨ p = comment) (h : p.regex.Matches (s ++ c :: rest))
    (hne : s ≠ []) (hc : isBlank c = true) : p.regex.Matches s := by
  rcases hp with rfl | rfl
  · exact matches_blanks.2 ⟨hne, fun d hd => (matches_blanks.1 h).2 d (by simp [hd])⟩
  · obtain ⟨cs, hcs, heq⟩ := matches_comment.1 h
    rcases s with _ | ⟨d, _ | ⟨e, ds⟩⟩
    · exact absurd rfl hne
    · obtain rfl := (List.cons.inj (List.cons.inj heq).2).1
      cases hc
    · simp only [List.cons_append, List.cons.injEq] at heq
      obtain ⟨rfl, rfl, rfl⟩ := heq
      exact matches_comment.2 ⟨ds, fun d hd => hcs d (by simp [hd]), rfl⟩

end Pattern

namespace Lexeme

/-- Blanks and comments, which leave no token. -/
def IsSkipped (l : Lexeme) : Prop := l.pattern = .blanks ∨ l.pattern = .comment

theorem token?_of_isSkipped (h : l.IsSkipped) (place : Place) : l.token? place = none := by
  rcases h with h | h <;> rw [token?, h]

/-- No pattern goes from a lexeme over a blank, unless the lexeme is blanks or a comment itself and
the blank stands right behind it. -/
theorem not_matches_over_blank (h : first? (l.text ++ s) = some l) (hs : s = [] → ¬ l.IsSkipped)
    (hc : isBlank c = true) (hp : p ∈ Pattern.all) :
    ¬ p.regex.Matches (l.text ++ s ++ c :: rest) := by
  intro hover
  obtain ⟨hpattern, hread⟩ := first?_pattern h
  obtain ⟨hne, -⟩ := first?_isPrefix h
  have hl := Pattern.matches_of_read? hread
  have hskipped : ¬ (p = .blanks ∨ p = .comment) := by
    intro hskip
    have hfront := Pattern.matches_before_blank hskip hover (by simp [hne]) hc
    have hwhole := IsPiece.isPrefix ⟨_, hp, hfront⟩ (by simp [hne]) h List.prefix_rfl
    have hlength := hwhole.length_le
    rw [List.length_append] at hlength
    obtain rfl : s = [] := List.eq_nil_of_length_eq_zero (by omega)
    rw [List.append_nil] at hfront
    refine hs rfl ?_
    rwa [IsSkipped, Pattern.eq_of_matches hne hpattern hp hl hfront]
  rcases Pattern.holds_blank hp hover (by simp) hc with hblanks | hcomment | rfl
  · exact hskipped (.inl hblanks)
  · exact hskipped (.inr hcomment)
  · obtain ⟨items, -, heq⟩ := Pattern.matches_string.1 hover
    obtain ⟨d, ds, hcons⟩ := List.exists_cons_of_ne_nil hne
    rw [hcons] at heq hl
    obtain ⟨rfl, -⟩ := List.cons.inj heq
    rw [Pattern.begins_quote hpattern (Pattern.begins_of_matches hl), ← hcons] at hl
    rw [List.append_assoc] at hover
    have hnil := string_unique hl hover
    simp at hnil

/-- A blank changes no lexeme in front of it, with the same exception. -/
theorem first?_before_blank (h : first? (l.text ++ s) = some l) (hs : s = [] → ¬ l.IsSkipped)
    (hc : isBlank c = true) (rest : List Char) :
    first? (l.text ++ (s ++ c :: rest)) = some l := by
  obtain ⟨hp, hread⟩ := first?_pattern h
  obtain ⟨hne, -⟩ := first?_isPrefix h
  obtain ⟨l', hl', hpre⟩ :=
    first?_longest hp (Pattern.matches_of_read? hread) hne (s ++ c :: rest)
  obtain ⟨hp', hread'⟩ := first?_pattern hl'
  obtain ⟨hne', hpre'⟩ := first?_isPrefix hl'
  have hshort : l'.text <+: l.text ++ s := by
    rw [← List.append_assoc] at hpre'
    refine (List.prefix_or_prefix_of_prefix hpre' (List.prefix_append _ _)).elim id ?_
    rintro ⟨_ | ⟨d, more⟩, hmore⟩
    · exact ⟨[], by rw [List.append_nil, ← hmore, List.append_nil]⟩
    rw [← hmore, List.prefix_append_right_inj, List.cons_prefix_cons] at hpre'
    obtain ⟨rfl, -⟩ := hpre'
    have hmatches := Pattern.matches_of_read? hread'
    rw [← hmore] at hmatches
    exact absurd hmatches (not_matches_over_blank h hs hc hp')
  have htext : l'.text = l.text :=
    ((isPiece hl').isPrefix hne' h hshort).eq_of_length_le hpre.length_le
  exact hl'.trans (congrArg some (first?_unique h hl' htext))

/-! What blanks are read with. -/

/-- What a skipped lexeme goes on with. -/
def goesOn : Pattern → Char → Bool
  | .comment => (· ≠ '\n')
  | _ => isBlank

theorem goesOn_of_isBlank (hc : isBlank c = true) (p : Pattern) : goesOn p c = true := by
  cases p with
  | comment =>
    refine decide_eq_true ?_
    rintro rfl
    cases hc
  | word | number | blanks | newLine | string | symbol => exact hc

/-- Blanks or a comment are read with all that they go on with. -/
theorem first?_goesOn (hk : k.IsSkipped) (h : k.pattern.regex.Matches k.text) (hne : k.text ≠ [])
    (cs : List Char) :
    first? (k.text ++ cs) = some ⟨k.pattern, k.text ++ cs.takeWhile (goesOn k.pattern)⟩ := by
  obtain ⟨pattern, piece⟩ := k
  rcases hk with rfl | rfl
  · have htake : (piece ++ cs).takeWhile isBlank = piece ++ cs.takeWhile isBlank :=
      List.takeWhile_append_of_pos (Pattern.matches_blanks.1 h).2
    rw [first?_blanks (Pattern.readBlanks?_eq (by simp [htake, hne])), htake]
    rfl
  · obtain ⟨ds, hds, rfl⟩ := Pattern.matches_comment.1 h
    have htake : (ds ++ cs).takeWhile (· ≠ '\n') = ds ++ cs.takeWhile (· ≠ '\n') :=
      List.takeWhile_append_of_pos fun d hd => decide_eq_true (hds d hd)
    have hread : Pattern.readComment? ('/' :: '/' :: (ds ++ cs)) =
        some ('/' :: '/' :: (ds ++ cs.takeWhile (· ≠ '\n'))) := by
      rw [Pattern.readComment?, htake]
    exact first?_comment hread

/-- Blanks behind blanks or a comment are read with these. -/
theorem first?_skipped (h : first? (k.text ++ text) = some k) (hk : k.IsSkipped)
    (hrun : ∀ c ∈ run, isBlank c = true) :
    first? (k.text ++ (run ++ text)) = some ⟨k.pattern, k.text ++ run⟩ := by
  have hmatches := Pattern.matches_of_read? (first?_pattern h).2
  have hread := first?_goesOn hk hmatches (first?_isPrefix h).1
  have hstop : k.text ++ text.takeWhile (goesOn k.pattern) = k.text :=
    congrArg Lexeme.text (Option.some.inj ((hread text).symm.trans h))
  rw [hread, List.takeWhile_append_of_pos fun c hc => goesOn_of_isBlank (hrun c hc) _,
    List.append_right_eq_self.1 hstop, List.append_nil]

/-- Blanks in front of a text are read with the blanks that it begins with. -/
theorem Reads.blanks_before (h : Reads text ls last) (hrun : ∀ c ∈ run, isBlank c = true)
    (hne : run ≠ []) :
    ∃ skip more, ls = skip ++ more ∧ (∀ l ∈ skip, l.IsSkipped) ∧
      Reads (run ++ text) (⟨.blanks, run ++ skip.flatMap Lexeme.text⟩ :: more) last := by
  have hread (cs : List Char) : first? (run ++ cs) = some ⟨.blanks, run ++ cs.takeWhile isBlank⟩ :=
    first?_goesOn (k := ⟨.blanks, run⟩) (.inl rfl) (Pattern.matches_blanks.2 ⟨hne, hrun⟩) hne cs
  by_cases hblank : text.takeWhile isBlank = []
  · have hfirst := hread text
    rw [hblank, List.append_nil] at hfirst
    refine ⟨[], ls, rfl, by simp, ?_⟩
    rw [List.flatMap_nil, List.append_nil]
    exact .step (l := ⟨.blanks, run⟩) hfirst h
  · have hfirst := first?_blanks (Pattern.readBlanks?_eq hblank)
    cases h with
    | stop hnone =>
      rw [hfirst] at hnone
      cases hnone
    | @step l ls rest _ hl next =>
      have heq := Option.some.inj (hfirst.symm.trans hl)
      have htext : (l.text ++ rest).takeWhile isBlank = l.text := congrArg Lexeme.text heq
      have hpattern : l.pattern = .blanks := (congrArg Lexeme.pattern heq).symm
      have hfirst' := hread (l.text ++ rest)
      rw [htext, ← List.append_assoc] at hfirst'
      refine ⟨[l], ls, rfl, by simp [IsSkipped, hpattern], ?_⟩
      rw [List.flatMap_singleton, ← List.append_assoc]
      exact .step (l := ⟨.blanks, run ++ l.text⟩) hfirst' next

theorem Reads.eq_nil (h : Reads [] ls last) : ls = [] := by
  generalize hnil : ([] : List Char) = text at h
  cases h with
  | stop => rfl
  | step hfirst => exact absurd (List.append_eq_nil_iff.1 hnil.symm).1 (first?_isPrefix hfirst).1

theorem Reads.of_cons (h : Reads text (l :: ls) last) :
    first? (l.text ++ (ls.flatMap Lexeme.text ++ last)) = some l := by
  cases h with
  | step hfirst next => rwa [next.text_eq] at hfirst

/-- What is read before a blank is read again, up to lexemes that are skipped. -/
theorem Reads.before_blank {skip : List Lexeme} (h : Reads text (ls ++ skip) [])
    (hskip : skip = [] → ∀ l ∈ ls.getLast?, ¬ l.IsSkipped) (hc : isBlank c = true)
    (hmore : Reads (skip.flatMap Lexeme.text ++ c :: rest) ls' last) :
    Reads (text ++ c :: rest) (ls ++ ls') last := by
  induction ls generalizing text with
  | nil =>
    have htext := h.text_eq
    rw [List.append_nil] at htext
    rwa [htext]
  | cons l ls ih =>
    rw [List.cons_append] at h
    cases h with
    | @step _ _ behind _ hfirst next =>
      have hlast : behind = [] → ¬ l.IsSkipped := by
        rintro rfl
        obtain ⟨rfl, rfl⟩ := List.append_eq_nil_iff.1 next.eq_nil
        exact hskip rfl l rfl
      have hrest : skip = [] → ∀ k ∈ ls.getLast?, ¬ k.IsSkipped := fun hnil k hk =>
        hskip hnil k (by rw [List.getLast?_cons, Option.mem_def.1 hk]; rfl)
      rw [List.append_assoc]
      exact .step (first?_before_blank hfirst hlast hc rest) (ih next hrest)

/-- Blanks between two lexemes, and the lexeme that they are read with. -/
theorem Reads.insert_blanks (h : Reads text (left ++ right) []) (hrun : ∀ c ∈ run, isBlank c = true)
    (hne : run ≠ []) :
    ∃ front skip skip' behind mid, left = front ++ skip ∧ right = skip' ++ behind ∧
      (∀ l ∈ skip ++ skip', l.IsSkipped) ∧ mid.IsSkipped ∧
      mid.text = skip.flatMap Lexeme.text ++ run ++ skip'.flatMap Lexeme.text ∧
      Reads (left.flatMap Lexeme.text ++ run ++ right.flatMap Lexeme.text)
        (front ++ mid :: behind) [] := by
  obtain ⟨c, cs, rfl⟩ := List.exists_cons_of_ne_nil hne
  have hc : isBlank c = true := hrun c List.mem_cons_self
  have hleft := h.take
  have hright := h.drop
  rw [List.append_nil] at hright
  by_cases hlast : ∀ l ∈ left.getLast?, ¬ l.IsSkipped
  · obtain ⟨skip, more, rfl, hskip, hmore⟩ := hright.blanks_before hrun hne
    refine ⟨left, [], skip, more, ⟨.blanks, c :: cs ++ skip.flatMap Lexeme.text⟩,
      (List.append_nil left).symm, rfl, hskip, .inl rfl, rfl, ?_⟩
    rw [← List.append_nil left] at hleft
    have hreads := hleft.before_blank (fun _ => hlast) hc hmore
    rw [List.append_nil] at hreads
    rw [List.append_assoc]
    exact hreads
  · obtain ⟨k, hk, hskipped⟩ : ∃ k, left.getLast? = some k ∧ k.IsSkipped := by
      simpa using hlast
    obtain ⟨front, rfl⟩ := List.getLast?_eq_some_iff.1 hk
    have hfirst : first? (k.text ++ right.flatMap Lexeme.text) = some k := by
      rw [List.append_assoc] at h
      simpa using h.drop.of_cons
    have hgrown := first?_skipped hfirst hskipped hrun
    rw [← List.append_assoc] at hgrown
    have hmore := Reads.step (l := ⟨k.pattern, k.text ++ c :: cs⟩) hgrown hright
    refine ⟨front, [k], [], right, ⟨k.pattern, k.text ++ c :: cs⟩, rfl, rfl,
      by simpa using hskipped, hskipped, by simp, ?_⟩
    rw [List.append_assoc]
    refine hleft.before_blank (fun hnil => by cases hnil) hc ?_
    simpa using hmore

end Lexeme

/-! Tokens around the place where the blanks are put. -/

/-- A token where so many bytes are put into the source at an offset. What begins there or behind
moves. A token that ends there stays as it is, but the end of the input moves as a whole. -/
structure Token.PushedBy (offset count : Nat) (t t' : Token) : Prop where
  kind : t'.kind = t.kind
  text : t'.text = t.text
  startFile : t'.span.start.file = t.span.start.file
  stopFile : t'.span.stop.file = t.span.stop.file
  start : t'.span.start.offset.toNat = t.span.start.offset.toNat +
    if offset ≤ t.span.start.offset.toNat then count else 0
  stop : t'.span.stop.offset.toNat = t.span.stop.offset.toNat +
    if offset < t.span.stop.offset.toNat ∨
      t.kind = .endOfInput ∧ offset ≤ t.span.stop.offset.toNat then count else 0

variable {file : String} {read : List Char} {offset count : Nat} {t : Token}

theorem Token.pushedBy_kept (hend : t.kind ≠ .endOfInput)
    (hstart : t.span.start.offset.toNat < offset) (hstop : t.span.stop.offset.toNat ≤ offset) :
    t.PushedBy offset count t where
  kind := rfl
  text := rfl
  startFile := rfl
  stopFile := rfl
  start := by rw [if_neg (Nat.not_le.2 hstart), Nat.add_zero]
  stop := by
    rw [if_neg, Nat.add_zero]
    rintro (hlt | ⟨hkind, -⟩)
    · omega
    · exact hend hkind

theorem Token.pushedBy_ahead (hstart : offset ≤ t.span.start.offset.toNat)
    (hle : t.span.start.offset.toNat ≤ t.span.stop.offset.toNat)
    (hstop : t.span.start.offset.toNat < t.span.stop.offset.toNat ∨ t.kind = .endOfInput)
    (hsize : t.span.stop.offset.toNat + count ≤ maxOffset) :
    t.PushedBy offset count (t.relocate (Position.ahead count)) where
  kind := rfl
  text := rfl
  startFile := rfl
  stopFile := rfl
  start := by
    rw [if_pos hstart]
    exact Position.offset_ahead (by omega)
  stop := by
    rw [if_pos (hstop.imp (by omega) fun hkind => ⟨hkind, by omega⟩)]
    exact Position.offset_ahead hsize

/-- The tokens of a text have spans of their own in it. -/
theorem Lexeme.Reads.within (h : Reads text ls last)
    (hsize : byteCount (read ++ ls.flatMap Lexeme.text) ≤ maxOffset) :
    ∀ t ∈ (tokensFrom (.after file read) ls).1, t.kind ≠ .endOfInput ∧
      byteCount read ≤ t.span.start.offset.toNat ∧
      t.span.start.offset.toNat < t.span.stop.offset.toNat ∧
      t.span.stop.offset.toNat ≤ byteCount (read ++ ls.flatMap Lexeme.text) := by
  induction h generalizing read with
  | stop => exact fun t ht => absurd ht List.not_mem_nil
  | @step l ls rest last hfirst _ ih =>
    rw [List.flatMap_cons, ← List.append_assoc] at hsize ⊢
    have hle : byteCount (read ++ l.text) ≤
        byteCount (read ++ l.text ++ ls.flatMap Lexeme.text) := by
      rw [byteCount_append (read ++ l.text)]
      omega
    have hgrows : byteCount read < byteCount (read ++ l.text) := by
      obtain ⟨c, cs, hcons⟩ := List.exists_cons_of_ne_nil (first?_isPrefix hfirst).1
      have hpos := c.utf8Size_pos
      rw [byteCount_append, hcons, byteCount_cons]
      omega
    intro t ht
    rw [tokensFrom_cons, Place.advance_after] at ht
    rcases List.mem_append.1 ht with ht | ht
    · obtain ⟨hspan, hkind, -⟩ :=
        token?_covers hfirst (hle.trans hsize) (Option.mem_toList.1 ht)
      rw [hspan.start, hspan.stop]
      exact ⟨hkind, Nat.le_refl _, hgrows, hle⟩
    · obtain ⟨hkind, hstart, hlt, hstop⟩ := ih hsize t ht
      exact ⟨hkind, by omega, hlt, hstop⟩

theorem tokensFrom_skipped (h : ∀ l ∈ ls, l.IsSkipped) (place : Place) :
    (tokensFrom place ls).1 = [] := by
  induction ls generalizing place with
  | nil => rfl
  | cons l ls ih =>
    obtain ⟨hl, hls⟩ := List.forall_mem_cons.1 h
    rw [tokensFrom_cons, Lexeme.token?_of_isSkipped hl, ih hls]
    rfl

/-- The place behind a text depends on its size only. -/
theorem Place.after_congr {read' : List Char} (h : byteCount read' = byteCount read) :
    Place.after file read' = Place.after file read := by
  rw [Place.after, Place.after, h]

theorem byteCount_blanks (h : ∀ c ∈ run, isBlank c = true) : byteCount run = run.length := by
  apply byteCount_of_single
  intro c hc
  rcases isBlank_cases (h c hc) with rfl | rfl | rfl <;> rfl

/-- The tokens of lexemes some of which are skipped. -/
theorem tokensFrom_around {front behind : List Lexeme} (h : ∀ l ∈ ls, l.IsSkipped) :
    (tokensFrom (.start file) (front ++ ls ++ behind)).1 = (tokensFrom (.start file) front).1 ++
      (tokensFrom (.after file ((front ++ ls).flatMap Lexeme.text)) behind).1 := by
  rw [← Place.after_nil, List.append_assoc, tokensFrom_append, tokensFrom_append,
    tokensFrom_skipped h, tokensFrom_stop, tokensFrom_stop, List.nil_append, List.nil_append,
    List.flatMap_append]

/-- Tokens in front of the place stay. -/
theorem Lexeme.Reads.kept (h : Reads text ls []) (hle : byteCount text ≤ offset)
    (hsize : byteCount text ≤ maxOffset) :
    List.Forall₂ (Token.PushedBy offset count) (tokensFrom (.start file) ls).1
      (tokensFrom (.start file) ls).1 := by
  rw [← Place.after_nil, List.forall₂_same]
  intro t ht
  have htext := h.text_eq
  rw [List.append_nil] at htext
  have hwhole : byteCount ([] ++ ls.flatMap Lexeme.text) ≤ maxOffset := by
    rwa [List.nil_append, ← htext]
  obtain ⟨hkind, -, hlt, hstop⟩ := h.within hwhole t ht
  rw [List.nil_append, ← htext] at hstop
  exact Token.pushedBy_kept hkind (by omega) (by omega)

/-- Tokens behind the place move, together with the end of the input. -/
theorem Lexeme.Reads.moved (h : Reads text ls []) (hle : offset ≤ byteCount read)
    (hsize : byteCount (run ++ (read ++ text)) ≤ maxOffset) :
    List.Forall₂ (Token.PushedBy offset (byteCount run))
      ((tokensFrom (.after file read) ls).1 ++ [.endAt (Place.after file (read ++ text)).position])
      ((tokensFrom (.after file (run ++ read)) ls).1 ++
        [.endAt (Place.after file (run ++ (read ++ text))).position]) := by
  have htext := h.text_eq
  rw [List.append_nil] at htext
  have hmoves : MovesBehind (Position.ahead (byteCount run)) file run (read ++ text) := by
    refine movesBehind_of_offset hsize fun p hp => ⟨rfl, Position.offset_ahead ?_⟩
    rw [byteCount_append] at hsize
    omega
  have htotal : byteCount (read ++ text) + byteCount run ≤ maxOffset := by
    rwa [byteCount_append, Nat.add_comm] at hsize
  have hend := @Place.offset_after file (read ++ text) (by omega)
  refine List.rel_append ?_ (.cons ?_ .nil)
  · have hpre : read ++ ls.flatMap Lexeme.text <+: read ++ text :=
      ⟨[], by rw [List.append_nil, ← htext]⟩
    rw [tokensFrom_moves hmoves hpre, List.forall₂_map_right_iff, List.forall₂_same]
    intro t ht
    obtain ⟨-, hstart, hlt, hstop⟩ := h.within (by rw [← htext]; omega) t ht
    rw [← htext] at hstop
    exact Token.pushedBy_ahead (by omega) hlt.le (.inl hlt) (by omega)
  · rw [← hmoves _ List.prefix_rfl]
    refine Token.pushedBy_ahead ?_ (Nat.le_refl _) (.inr rfl) ?_
    · rw [Token.endAt, Position.empty, hend, byteCount_append]
      omega
    · rwa [Token.endAt, Position.empty, hend]

/-- Tokens around lexemes that are skipped, where others with the blanks in them come in their
place. -/
theorem Lexeme.Reads.pushed {front behind : List Lexeme}
    (hfront : Reads (front.flatMap Lexeme.text) front [])
    (hbehind : Reads (behind.flatMap Lexeme.text) behind [])
    (hskip : ∀ l ∈ ls, l.IsSkipped) (hskip' : ∀ l ∈ ls', l.IsSkipped)
    (hgrown : byteCount (ls'.flatMap Lexeme.text) =
      byteCount run + byteCount (ls.flatMap Lexeme.text))
    (hstart : byteCount (front.flatMap Lexeme.text) ≤ offset)
    (hstop : offset ≤ byteCount ((front ++ ls).flatMap Lexeme.text))
    (hsize : byteCount ((front ++ ls' ++ behind).flatMap Lexeme.text) ≤ maxOffset) :
    List.Forall₂ (Token.PushedBy offset (byteCount run))
      ((tokensFrom (.start file) (front ++ ls ++ behind)).1 ++
        [.endAt (Place.after file ((front ++ ls ++ behind).flatMap Lexeme.text)).position])
      ((tokensFrom (.start file) (front ++ ls' ++ behind)).1 ++
        [.endAt (Place.after file ((front ++ ls' ++ behind).flatMap Lexeme.text)).position]) := by
  have hplace : Place.after file ((front ++ ls').flatMap Lexeme.text) =
      Place.after file (run ++ (front ++ ls).flatMap Lexeme.text) := by
    refine Place.after_congr ?_
    simp only [List.flatMap_append, byteCount_append, hgrown]
    omega
  have htotal : byteCount ((front ++ ls' ++ behind).flatMap Lexeme.text) =
      byteCount (run ++ ((front ++ ls).flatMap Lexeme.text ++ behind.flatMap Lexeme.text)) := by
    simp only [List.flatMap_append, byteCount_append, hgrown]
    omega
  have hwhole : (front ++ ls ++ behind).flatMap Lexeme.text =
      (front ++ ls).flatMap Lexeme.text ++ behind.flatMap Lexeme.text := List.flatMap_append
  rw [tokensFrom_around hskip, tokensFrom_around hskip', hplace, Place.after_congr htotal, hwhole,
    List.append_assoc, List.append_assoc]
  refine List.rel_append (hfront.kept hstart ?_) (hbehind.moved hstop (htotal ▸ hsize))
  rw [List.flatMap_append, List.flatMap_append, byteCount_append, byteCount_append] at hsize
  omega

variable {source : String} {origin : Option String} {tokens : List Token}

/-- Blanks put between two lexemes of a source. -/
theorem tokenize_insert_blanks (h : tokenize source origin = .ok tokens)
    (hlexemes : (Lexeme.readAll source.toList).1 = left ++ right)
    (hrun : ∀ c ∈ run, isBlank c = true) (hne : run ≠ [])
    (hsize : byteCount (left.flatMap Lexeme.text ++ run ++ right.flatMap Lexeme.text) ≤ maxOffset) :
    ∃ tokens', tokenize (String.ofList
        (left.flatMap Lexeme.text ++ run ++ right.flatMap Lexeme.text)) origin = .ok tokens' ∧
      List.Forall₂ (Token.PushedBy (byteCount (left.flatMap Lexeme.text)) run.length)
        tokens tokens' := by
  obtain ⟨-, ls, hreads, rfl⟩ := reads_of_tokenize h
  obtain rfl : ls = left ++ right := by rwa [hreads.readAll_eq] at hlexemes
  obtain ⟨front, skip, skip', behind, mid, rfl, rfl, hskipped, hmid, htext, hnew⟩ :=
    hreads.insert_blanks hrun hne
  -- The lexemes skipped on both sides of the place are one in the new source.
  have hold : front ++ skip ++ (skip' ++ behind) = front ++ (skip ++ skip') ++ behind := by simp
  have hinserted : (front ++ skip).flatMap Lexeme.text ++ run ++
      (skip' ++ behind).flatMap Lexeme.text = (front ++ [mid] ++ behind).flatMap Lexeme.text := by
    simp [htext]
  have hmid : ∀ l ∈ [mid], l.IsSkipped := by simpa using hmid
  have hsource := hreads.text_eq
  rw [List.append_nil] at hsource
  rw [List.append_cons] at hnew
  rw [hinserted] at hnew hsize ⊢
  rw [← String.toList_ofList (l := (front ++ [mid] ++ behind).flatMap Lexeme.text)] at hnew
  refine ⟨_, tokenize_of_reads (by rwa [utf8ByteSize_ofList]) hnew origin, ?_⟩
  rw [hsource, String.toList_ofList, hold, ← byteCount_blanks hrun]
  have hbehind := (hold ▸ hreads).drop
  rw [List.append_nil] at hbehind
  refine Lexeme.Reads.pushed hreads.take.take hbehind hskipped hmid ?_ ?_ ?_ hsize
  all_goals
    simp only [List.flatMap_append, List.flatMap_singleton, htext, byteCount_append]
    omega

/-! Line ends with carriage returns. -/

/-- The end of a line stands between two lexemes. -/
theorem Lexeme.Reads.split_line (h : Reads text ls last) (hlast : last = []) {x y : List Char}
    (heq : text = x ++ '\n' :: y) :
    ∃ left right, ls = left ++ right ∧ left.flatMap Lexeme.text = x := by
  induction h generalizing x with
  | stop =>
    subst hlast
    simp at heq
  | @step l ls rest last hfirst _ ih =>
    rcases List.append_eq_append_iff.1 heq with ⟨more, rfl, hrest⟩ | ⟨tail, htext, hrest⟩
    · obtain ⟨left, right, rfl, rfl⟩ := ih hlast hrest
      exact ⟨l :: left, right, rfl, rfl⟩
    · cases tail with
      | nil => exact ⟨[l], ls, rfl, by simpa using htext⟩
      | cons d ds =>
        obtain ⟨rfl, -⟩ := List.cons.inj hrest
        have hline := (isPiece hfirst).newLine (by simp [htext])
        rw [htext] at hline
        have hlength := congrArg List.length hline
        simp only [List.length_append, List.length_cons, List.length_nil] at hlength
        obtain rfl : x = [] := List.eq_nil_of_length_eq_zero (by omega)
        exact ⟨[], l :: ls, rfl, rfl⟩

/-- A text with carriage returns put in front of some of its newlines, or of all. -/
inductive GainsReturns : List Char → List Char → Prop
  | nil : GainsReturns [] []
  | keep (c : Char) {s t : List Char} : GainsReturns s t → GainsReturns (c :: s) (c :: t)
  | gain {s t : List Char} : GainsReturns s t → GainsReturns ('\n' :: s) ('\r' :: '\n' :: t)

/-- Every line can get a carriage return at its end. -/
theorem gainsReturns_lines (s : List Char) :
    GainsReturns s (s.flatMap fun c => if c = '\n' then ['\r', '\n'] else [c]) := by
  induction s with
  | nil => exact .nil
  | cons c s ih =>
    rw [List.flatMap_cons]
    split_ifs with hc
    · subst hc
      exact ih.gain
    · exact ih.keep c

theorem Token.readings_of_pushedBy {tokens' : List Token}
    (h : List.Forall₂ (Token.PushedBy offset count) tokens tokens') :
    tokens'.map Token.kind = tokens.map Token.kind ∧
      tokens'.map Token.text = tokens.map Token.text := by
  induction h with
  | nil => exact ⟨rfl, rfl⟩
  | cons ht _ ih => simp only [List.map_cons, ht.kind, ht.text, ih, and_self]

/-- Lines that get carriage returns keep the kinds and the texts of their tokens. -/
theorem tokenize_gainsReturns {s s' : List Char} (h : GainsReturns s s') {x : List Char}
    (htokens : tokenize (String.ofList (x ++ s)) origin = .ok tokens)
    (hsize : byteCount (x ++ s') ≤ maxOffset) :
    ∃ tokens', tokenize (String.ofList (x ++ s')) origin = .ok tokens' ∧
      tokens'.map Token.kind = tokens.map Token.kind ∧
      tokens'.map Token.text = tokens.map Token.text := by
  induction h generalizing x with
  | nil => exact ⟨tokens, htokens, rfl, rfl⟩
  | @keep c s t _ ih =>
    rw [List.append_cons] at htokens hsize ⊢
    exact ih htokens hsize
  | @gain s t _ ih =>
    have hgrows : byteCount (x ++ '\n' :: t) ≤ byteCount (x ++ '\r' :: '\n' :: t) := by
      simp only [byteCount_append, byteCount_cons]
      omega
    rw [List.append_cons] at htokens
    obtain ⟨middle, hmiddle, hkinds, htexts⟩ := ih htokens (by
      rw [← List.append_cons]
      exact hgrows.trans hsize)
    rw [← List.append_cons] at hmiddle
    obtain ⟨-, ls, hreads, -⟩ := reads_of_tokenize hmiddle
    rw [String.toList_ofList] at hreads
    obtain ⟨left, right, rfl, hleft⟩ := hreads.split_line rfl rfl
    have htext := hreads.text_eq
    rw [List.append_nil, List.flatMap_append, hleft] at htext
    have hright := List.append_cancel_left htext
    have hblank : ∀ c ∈ ['\r'], isBlank c = true := List.forall_mem_singleton.2 rfl
    obtain ⟨pushed, hpushed, hsteps⟩ := tokenize_insert_blanks hmiddle
      (by rw [String.toList_ofList, hreads.readAll_eq]) hblank (by simp)
      (by rw [hleft, ← hright]; simpa using hsize)
    obtain ⟨hkinds', htexts'⟩ := Token.readings_of_pushedBy hsteps
    refine ⟨pushed, ?_, hkinds'.trans hkinds, htexts'.trans htexts⟩
    rw [hleft, ← hright] at hpushed
    simpa using hpushed

/-- Blanks between the lexemes of a source are inert: they push what stands behind them, and nothing
else changes. Carriage returns at the ends of lines change no kind and no text. -/
theorem blanks_are_inert (h : tokenize source origin = .ok tokens) :
    (∀ left right run, (Lexeme.readAll source.toList).1 = left ++ right →
      run ≠ [] → (∀ c ∈ run, isBlank c = true) →
      let before := left.flatMap Lexeme.text
      let behind := right.flatMap Lexeme.text
      source.toList = before ++ behind ∧
      ((String.ofList (before ++ run ++ behind)).utf8ByteSize ≤ maxOffset →
        ∃ tokens', tokenize (String.ofList (before ++ run ++ behind)) origin = .ok tokens' ∧
          List.Forall₂ (Token.PushedBy (byteCount before) run.length) tokens tokens')) ∧
    ∀ source', GainsReturns source.toList source'.toList → source'.utf8ByteSize ≤ maxOffset →
      ∃ tokens', tokenize source' origin = .ok tokens' ∧
        tokens'.map Token.kind = tokens.map Token.kind ∧
        tokens'.map Token.text = tokens.map Token.text := by
  refine ⟨fun left right run hlexemes hne hrun => ⟨?_, fun hsize => ?_⟩,
    fun source' hreturns hsize => ?_⟩
  · obtain ⟨-, ls, hreads, -⟩ := reads_of_tokenize h
    obtain rfl : ls = left ++ right := by rwa [hreads.readAll_eq] at hlexemes
    rw [hreads.text_eq, List.append_nil, List.flatMap_append]
  · rw [utf8ByteSize_ofList] at hsize
    exact tokenize_insert_blanks h hlexemes hrun hne hsize
  · have htokens : tokenize (String.ofList ([] ++ source.toList)) origin = .ok tokens := by
      rwa [List.nil_append, String.ofList_toList]
    have hreturned := tokenize_gainsReturns hreturns htokens
      (by rwa [List.nil_append, byteCount_toList])
    rwa [List.nil_append, String.ofList_toList] at hreturned

/-- Blanks between a number and a point, blanks behind a comment, and a line with a carriage return
at its end. -/
theorem blanks_are_inert_comment :
    let place : UInt32 → Position := fun offset => ⟨offset, "shell"⟩
    let tokens : List Token := [⟨.number, "1", ⟨place 0, place 1⟩⟩,
      ⟨.symbol, ".", ⟨place 1, place 2⟩⟩, ⟨.newLine, "\n", ⟨place 5, place 6⟩⟩,
      ⟨.name, "x", ⟨place 6, place 7⟩⟩, .endAt (place 7)]
    tokenize "1.//c\nx" none = .ok tokens ∧
    (∃ tokens', tokenize "1 \t.//c\nx" none = .ok tokens' ∧
      List.Forall₂ (Token.PushedBy 1 2) tokens tokens') ∧
    (∃ tokens', tokenize "1.//c \r\nx" none = .ok tokens' ∧
      List.Forall₂ (Token.PushedBy 5 2) tokens tokens') ∧
    ∃ tokens', tokenize "1.//c\r\nx" none = .ok tokens' ∧
      tokens'.map Token.kind = tokens.map Token.kind ∧
      tokens'.map Token.text = tokens.map Token.text := by
  intro place tokens
  have htokens : tokenize "1.//c\nx" none = .ok tokens := by decide +kernel
  refine ⟨htokens, ?_, ?_, ?_⟩
  · exact ((blanks_are_inert htokens).1 [⟨.number, ['1']⟩] [⟨.symbol ['.'], ['.']⟩,
      ⟨.comment, ['/', '/', 'c']⟩, ⟨.newLine, ['\n']⟩, ⟨.word, ['x']⟩] [' ', '\t']
      (by decide +kernel) (by simp) (by simp [isBlank])).2 (by decide +kernel)
  · exact ((blanks_are_inert htokens).1 [⟨.number, ['1']⟩, ⟨.symbol ['.'], ['.']⟩,
      ⟨.comment, ['/', '/', 'c']⟩] [⟨.newLine, ['\n']⟩, ⟨.word, ['x']⟩] [' ', '\r']
      (by decide +kernel) (by simp) (by simp [isBlank])).2 (by decide +kernel)
  · exact (blanks_are_inert htokens).2 "1.//c\r\nx" (gainsReturns_lines _) (by decide +kernel)

end ScriptSyntax
