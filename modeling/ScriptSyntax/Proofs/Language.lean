import ScriptSyntax.Proofs.Completeness
import ScriptSyntax.Proofs.Lexing
import ScriptSyntax.Proofs.Longest
import ScriptSyntax.Proofs.Soundness

/-! The language of the script grammar as a whole: which sources are programs, what their trees are,
and where those that are none go wrong. -/
namespace ScriptSyntax
variable {before : List Token} {t : Token} {name : String}

theorem Cursor.take_index (c : Cursor) : c.tokens.take c.index = c.consumed.reverse := by
  rw [Cursor.tokens, List.append_assoc, Cursor.index, ← List.length_reverse, List.take_left]

/-- The tokens of a source as a cursor has them. -/
theorem Cursor.start_spells (ht : t.kind = .endOfInput)
    (hbefore : ∀ u ∈ before, u.Genuine ∧ u.kind ≠ .endOfInput) (name : String) :
    (Cursor.start (before ++ [t]) name).Genuine ∧
      (Cursor.start (before ++ [t]) name).index = 0 ∧
      (Cursor.start (before ++ [t]) name).tokens = before ++ [t] ∧
      ∃ d, (Cursor.start (before ++ [t]) name).Spells (before.map Token.terminal) d ∧
        d.current = t := by
  obtain ⟨hconsumed, hupcoming, hfinish⟩ := Cursor.start_closed ht before name
  have htokens : (Cursor.start (before ++ [t]) name).tokens = before ++ [t] := by
    rw [Cursor.tokens, hconsumed, hupcoming, hfinish]
    rfl
  refine ⟨?_, by rw [Cursor.index, hconsumed]; rfl, htokens, ?_⟩
  · intro u hu
    rw [htokens] at hu
    rcases List.mem_append.1 hu with hu | hu
    · exact (hbefore u hu).1
    · rw [List.mem_singleton.1 hu]
      exact ⟨by simp [ht], by simp [ht]⟩
  · have hup : (Cursor.start (before ++ [t]) name).upcoming = before ++ [] := by
      rw [hupcoming, List.append_nil]
    obtain ⟨d, hd, hnil⟩ := Cursor.passes_of_upcoming hup fun u hu => (hbefore u hu).2
    refine ⟨d, ⟨before, hd, rfl⟩, ?_⟩
    rw [Cursor.current, hnil, List.headD_nil, hd.lists.2.2, hfinish]

/-- A cursor at the end of the input has passed all tokens before it. -/
theorem Cursor.Spells.all {c d e : Cursor} {ws vs : List Terminal} (h : c.Spells ws d)
    (hd : d.current.terminal = .endOfInput) (h' : c.Spells vs e)
    (he : e.current.terminal = .endOfInput) : ws = vs := by
  induction ws generalizing c vs with
  | nil =>
    obtain rfl := spells_nil.1 h
    cases vs with
    | nil => rfl
    | cons v vs =>
      obtain ⟨hv, hne, -⟩ := spells_cons.1 h'
      exact absurd (hv.symm.trans hd) hne
  | cons w ws ih =>
    obtain ⟨hw, hne, hnext⟩ := spells_cons.1 h
    cases vs with
    | nil =>
      obtain rfl := spells_nil.1 h'
      exact absurd (hw.symm.trans he) hne
    | cons v vs =>
      obtain ⟨hv, -, hnext'⟩ := spells_cons.1 h'
      rw [← hw, ← hv, ih hnext hnext']

theorem forall_finite : (∀ w ∈ before.map Token.terminal, w.Finite) ↔
    ∀ t ∈ before, t.kind = .number → (Double.ofText? t.text).isSome := by
  simp only [List.forall_mem_map]
  refine forall₂_congr fun u _ => ?_
  rw [Token.terminal]
  cases u.kind <;> simp [Terminal.Finite]

/-- What is accepted is derived with longest statements, and its numbers have values. -/
theorem parse_sound (ht : t.kind = .endOfInput)
    (hbefore : ∀ u ∈ before, u.Genuine ∧ u.kind ≠ .endOfInput) {b : Block} {stop : Cursor}
    (h : parse (before ++ [t]) name = .done b stop) :
    DerivesProgram longestFit b.statements ((before ++ [t]).map Token.terminal) ∧
      ∀ w ∈ before.map Token.terminal, w.Finite := by
  obtain ⟨hgen, -, -, d, hd, hcur⟩ := Cursor.start_spells ht hbefore name
  have hfit := (Grammar.program_reads name _).fits _ hgen rfl
  rw [← parse, h] at hfit
  obtain ⟨ws, hws, hfin, ⟨items, hss, hitems, hlines⟩, hend⟩ := hfit
  have hterminal : t.terminal = .endOfInput := Token.terminal_endOfInput.2 ht
  obtain rfl := hws.all hend hd (hcur ▸ hterminal)
  rw [List.map_append, hss, List.map_singleton, hterminal]
  exact ⟨.intro hitems hlines, hfin⟩

/-- What is derived with longest statements is accepted, with the same tree. -/
theorem parse_complete (ht : t.kind = .endOfInput)
    (hbefore : ∀ u ∈ before, u.Genuine ∧ u.kind ≠ .endOfInput) {ss : List Statement}
    (hfin : ∀ w ∈ before.map Token.terminal, w.Finite)
    (h : DerivesProgram longestFit ss ((before ++ [t]).map Token.terminal)) (name : String) :
    ∃ b stop, parse (before ++ [t]) name = .done b stop ∧
      b.statements.map Statement.bare = ss.map Statement.bare := by
  obtain ⟨hgen, -, -, d, hd, hcur⟩ := Cursor.start_spells ht hbefore name
  have hterminal : t.terminal = .endOfInput := Token.terminal_endOfInput.2 ht
  generalize hall : (before ++ [t]).map Token.terminal = all at h
  cases h with
  | @intro items ws hitems hlines =>
    rw [List.map_append, List.map_singleton, hterminal] at hall
    obtain rfl := List.append_cancel_right hall
    obtain ⟨b, hb, hbare⟩ := program_accepts name ⟨items, rfl, hitems, hlines⟩ hfin _ d hgen
      hd (hcur ▸ hterminal)
    exact ⟨b, d, hb, hbare⟩

/-- Tokens that some words continue to a program are parsed with the tokens of these words. -/
theorem parse_continued {us : List Token} {fill : List Terminal} {ss : List Statement}
    (hus : ∀ u ∈ us, u.Genuine ∧ u.kind ≠ .endOfInput)
    (hfin : ∀ w ∈ us.map Token.terminal, w.Finite) (hfill : ∀ w ∈ fill, w.Usable)
    (h : DerivesProgram longestFit ss (us.map Token.terminal ++ fill ++ [.endOfInput]))
    (file : Option String) (name : String) :
    ∃ middle last, scan (String.ofList (spell fill)) file = .ok (middle ++ [last]) ∧
      last.kind = .endOfInput ∧
        ∃ b stop, parse (us ++ (middle ++ [last])) name = .done b stop ∧
          b.statements.map Statement.bare = ss.map Statement.bare := by
  obtain ⟨middle, last, hscan, hlast, hmiddle, hfillWords⟩ :=
    scan_spell (fun w hw => (hfill w hw).1) file
  have hwords : (us ++ middle).map Token.terminal = us.map Token.terminal ++ fill := by
    rw [List.map_append, hfillWords]
  have hfinite : ∀ w ∈ (us ++ middle).map Token.terminal, w.Finite := by
    rw [hwords]
    exact List.forall_mem_append.2 ⟨hfin, fun w hw => (hfill w hw).2⟩
  have hderives : DerivesProgram longestFit ss ((us ++ middle ++ [last]).map Token.terminal) := by
    rw [List.map_append, hwords, List.map_singleton, Token.terminal_endOfInput.2 hlast]
    exact h
  obtain ⟨b, stop, hparse, hbare⟩ :=
    parse_complete hlast (List.forall_mem_append.2 ⟨hus, hmiddle⟩) hfinite hderives name
  rw [List.append_assoc] at hparse
  exact ⟨middle, last, hscan, hlast, b, stop, hparse, hbare⟩

/-- Parsing succeeds on the sources that the grammar derives, if all their numbers are finite, and
gives the tree of a derivation. Only in the body of a loop can another tree have the same tokens:
of several statements that end in an expression, each is as long as it can be. -/
theorem parse_succeeds_iff_derives {source : String} {file : Option String} {tokens : List Token}
    (h : tokenize source file = .ok tokens) (name : String) :
    ((∃ b stop, parse tokens name = .done b stop) ↔
      (∃ ss, DerivesProgram anyFit ss (tokens.map Token.terminal)) ∧
        ∀ t ∈ tokens, t.kind = .number → (Double.ofText? t.text).isSome) ∧
    ∀ b stop, parse tokens name = .done b stop →
      DerivesProgram anyFit b.statements (tokens.map Token.terminal) ∧
      DerivesProgram longestFit b.statements (tokens.map Token.terminal) ∧
      ∀ ss, DerivesProgram longestFit ss (tokens.map Token.terminal) →
        ss.map Statement.bare = b.statements.map Statement.bare := by
  obtain ⟨before, t, rfl, ht, hbefore⟩ := scan_tokens (scan_of_tokenize h)
  have hnumbers : (∀ u ∈ before ++ [t], u.kind = .number → (Double.ofText? u.text).isSome) ↔
      ∀ w ∈ before.map Token.terminal, w.Finite := by
    rw [forall_finite, List.forall_mem_append]
    exact and_iff_left (by simp [ht])
  have hany : ∀ s rest, longestFit s rest → anyFit s rest := fun _ _ _ => trivial
  refine ⟨⟨?_, ?_⟩, ?_⟩
  · rintro ⟨b, stop, hp⟩
    obtain ⟨hderives, hfin⟩ := parse_sound ht hbefore hp
    exact ⟨⟨_, hderives.mono hany⟩, hnumbers.2 hfin⟩
  · rintro ⟨⟨ss, hss⟩, hfin⟩
    obtain ⟨ss', hss'⟩ := hss.longest
    obtain ⟨b, stop, hp, -⟩ := parse_complete ht hbefore (hnumbers.1 hfin) hss' name
    exact ⟨b, stop, hp⟩
  · intro b stop hp
    obtain ⟨hderives, hfin⟩ := parse_sound ht hbefore hp
    refine ⟨hderives.mono hany, hderives, fun ss hss => ?_⟩
    obtain ⟨b', stop', hp', hbare⟩ := parse_complete ht hbefore hfin hss name
    obtain ⟨rfl, -⟩ := Outcome.done.inj (hp.symm.trans hp')
    exact hbare.symm

/-- A call is parsed, for it is derived. -/
theorem parse_succeeds_iff_derives_call :
    let place : UInt32 → Position := fun offset => ⟨offset, "shell"⟩
    let tokens : List Token :=
      [⟨.name, "f", place 0, place 1⟩, ⟨.symbol, "(", place 1, place 2⟩,
        ⟨.name, "x", place 2, place 3⟩, ⟨.symbol, ")", place 3, place 4⟩,
        ⟨.endOfInput, "EOF", place 4, place 4⟩]
    tokenize "f(x)" none = .ok tokens ∧ ∃ b stop, parse tokens "shell" = .done b stop := by
  intro place tokens
  have htokens : tokenize "f(x)" none = .ok tokens := by decide +kernel
  have hname : ∀ x tier, Derives anyFit (.expr tier (.name x default)) [.name x] :=
    fun x tier => (Derives.name x default).loosen (by cases tier <;> decide)
  have harguments : ∀ i ∈ [(Expr.name "x" default, [Terminal.name "x"])],
      Derives anyFit (.expr .expr i.1) i.2 :=
    List.forall_mem_singleton.2 (hname "x" .expr)
  have hcall := Derives.call default (hname "f" .suffixed) harguments
    (.intro emptyLines_nil (.last _ emptyLines_nil))
  have hstatement := Derives.expression default (hcall.loosen (Nat.zero_le _)) (by decide)
  have hderives : ∃ ss, DerivesProgram anyFit ss (tokens.map Token.terminal) :=
    ⟨_, .single hstatement⟩
  exact ⟨htokens, (parse_succeeds_iff_derives htokens "shell").1.2 ⟨hderives, by decide⟩⟩

/-- A parse that fails has consumed the beginning of a program. Its error is about the token that
it stopped at, and some text in the place of that token and the rest makes the parse succeed. The
text takes no more bytes than the consumed tokens pay for. -/
theorem parse_failure_completable {source : String} {file : Option String} {tokens : List Token}
    (h : tokenize source file = .ok tokens) {name : String} {e : Error} {stop : Cursor}
    (hp : parse tokens name = .failed e stop) :
    tokens[stop.index]? = some stop.current ∧ e.Names stop.current ∧
      ∃ text rest, scan text file = .ok rest ∧ text.utf8ByteSize ≤ 16 * stop.index + 4 ∧
        (text.utf8ByteSize ≤ maxOffset → tokenize text file = .ok rest) ∧
        rest.getLast?.map (·.kind) = some .endOfInput ∧
        ∃ b stop', parse (tokens.take stop.index ++ rest) name = .done b stop' := by
  obtain ⟨before, t, rfl, ht, hbefore⟩ := scan_tokens (scan_of_tokenize h)
  obtain ⟨hgen, hindex, htokens, -⟩ := Cursor.start_spells ht hbefore name
  have hfit := (Grammar.program_reads name _).fits _ hgen rfl
  rw [← parse, hp] at hfit
  obtain ⟨he, _, ⟨us, hus, rfl⟩, hfin, fill, _, w, hfill, ⟨items, -, hitems, hlines⟩, -⟩ := hfit
  have hstop : stop.tokens = before ++ [t] := hus.tokens.trans htokens
  have htake : (before ++ [t]).take stop.index = us := by
    rw [← hstop, stop.take_index, hus.lists.2.1, List.eq_nil_of_length_eq_zero hindex,
      List.append_nil, List.reverse_reverse]
  have hlength : stop.index = us.length := by
    rw [Cursor.index, hus.lists.2.1, List.eq_nil_of_length_eq_zero hindex, List.append_nil,
      List.length_reverse]
  have hsize : (String.ofList (spell fill)).utf8ByteSize ≤ 16 * stop.index + 4 := by
    have hbytes := hfill.size
    rw [List.length_map, credit] at hbytes
    rw [Text.utf8ByteSize_ofList, hlength]
    omega
  have hgenuine : ∀ u ∈ us, u.Genuine ∧ u.kind ≠ .endOfInput := by
    refine fun u hu => ⟨hgen u ?_, hus.kind_ne u hu⟩
    rw [htokens]
    exact List.mem_of_mem_take (htake.symm ▸ hu)
  obtain ⟨middle, last, hscan, hlast, b, stop', hparse, -⟩ :=
    parse_continued hgenuine hfin hfill.usable (.intro hitems hlines) file name
  rw [htake]
  exact ⟨by rw [← hstop]; exact stop.current_getElem?, he, _, middle ++ [last], hscan, hsize,
    fun hsize => (tokenize_eq_scan file hsize).trans hscan, by simp [hlast], b, stop', hparse⟩

/-- The text `(x` stops at its end, and a source closes it. -/
theorem parse_failure_completable_group :
    let place : UInt32 → Position := fun offset => ⟨offset, "shell"⟩
    let tokens : List Token :=
      [⟨.symbol, "(", place 0, place 1⟩, ⟨.name, "x", place 1, place 2⟩,
        ⟨.endOfInput, "EOF", place 2, place 2⟩]
    tokenize "(x" none = .ok tokens ∧ ∃ e stop, parse tokens "shell" = .failed e stop ∧
      stop.index = 2 ∧ ∃ text rest, text.utf8ByteSize ≤ 36 ∧ tokenize text none = .ok rest ∧
        ∃ b stop', parse (tokens.take 2 ++ rest) "shell" = .done b stop' := by
  intro place tokens
  have htokens : tokenize "(x" none = .ok tokens := by decide +kernel
  let stop : Cursor :=
    { consumed := [⟨.name, "x", place 1, place 2⟩, ⟨.symbol, "(", place 0, place 1⟩]
      upcoming := []
      finish := ⟨"EOF", place 2, place 2⟩ }
  have herror : (parse tokens "shell").error? =
      some ⟨.refused (.expectedSymbol ")") (some "end of input"), place 2⟩ := by decide +kernel
  have hstop : (parse tokens "shell").cursor? = some stop := by decide +kernel
  have hparse := Outcome.eq_failed herror hstop
  obtain ⟨-, -, text, rest, -, hsize, hsource, -, b, stop', h⟩ :=
    parse_failure_completable htokens hparse
  have hlarge : text.utf8ByteSize ≤ maxOffset := hsize.trans (by decide)
  exact ⟨htokens, _, stop, hparse, rfl, text, rest, hsize, hsource hlarge, b, stop', h⟩

end ScriptSyntax
