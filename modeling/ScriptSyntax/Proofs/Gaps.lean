import ScriptSyntax.Proofs.Joining
import ScriptSyntax.Proofs.LineBreaks

/-! The gaps between tokens in parentheses: in which of them one more line may end. -/
namespace ScriptSyntax
variable {s : Site} {w next : Terminal} {ws us nl : List Terminal} {pieces : List (List Terminal)}

/-- In parentheses lines end only where this is allowed. -/
def Tidy (s : Site) : List Terminal → Terminal → Prop
  | [], _ => True
  | w :: ws, next =>
    (w = .newLine → s.inParens → s.allows (ws.headD next)) ∧ Tidy (s.past w) ws next

theorem tidy_append :
    Tidy s (ws ++ us) next ↔ Tidy s ws (us.headD next) ∧ Tidy (s.after ws) us next := by
  induction ws generalizing s with
  | nil => exact (and_iff_right trivial).symm
  | cons w ws ih =>
    have hhead : (ws ++ us).headD next = ws.headD (us.headD next) := by cases ws <;> rfl
    rw [List.cons_append, Tidy, Tidy, ih, hhead, and_assoc]
    rfl

theorem Tidy.append (h : Tidy s ws (us.headD next)) (h' : Tidy (s.after ws) us next) :
    Tidy s (ws ++ us) next :=
  tidy_append.2 ⟨h, h'⟩

/-- A word that ends no line. -/
theorem Tidy.cons (hw : w ≠ .newLine) (h : Tidy (s.past w) ws next) : Tidy s (w :: ws) next :=
  ⟨fun he => absurd he hw, h⟩

theorem Flat.tidy (h : Flat ws) : Tidy s ws next := by
  induction ws generalizing s with
  | nil => trivial
  | cons w ws ih =>
    obtain ⟨⟨hw, -⟩, hws⟩ := List.forall_mem_cons.1 h
    refine .cons ?_ (ih hws)
    rintro rfl
    cases hw

theorem Level.tidy (h : Level ws) (hs : s.inParens = false) : Tidy s ws next := by
  induction ws generalizing s with
  | nil => trivial
  | cons w ws ih =>
    obtain ⟨hw, hws⟩ := List.forall_mem_cons.1 h
    refine ⟨fun _ hin => ?_, ih hws ((Site.inParens_congr (hw s)).trans hs)⟩
    rw [hs] at hin
    cases hin

theorem EmptyLines.tidy (h : EmptyLines nl) (hs : s.inParens → s.allows next) :
    Tidy s nl next := by
  induction nl generalizing s with
  | nil => trivial
  | cons w nl ih =>
    obtain ⟨rfl, hnl⟩ := List.forall_mem_cons.1 h
    refine ⟨fun _ hin => ?_, ih hnl fun hin => by rw [Site.allows, hin]; rfl⟩
    cases nl with
    | nil => exact hs hin
    | cons w nl =>
      obtain ⟨rfl, -⟩ := List.forall_mem_cons.1 hnl
      rw [List.headD_cons, Site.allows, hin, Terminal.endsLines, Bool.or_true]
      rfl

theorem EmptyLines.tidy_of_lineEnd (h : EmptyLines nl) (hs : s.lineEnd) : Tidy s nl next :=
  h.tidy fun hin => by rw [Site.allows, hin, hs]; rfl

theorem EmptyLines.tidy_of_endsLines (h : EmptyLines nl) (hnext : next.endsLines) :
    Tidy s nl next :=
  h.tidy fun hin => by rw [Site.allows, hin, hnext, Bool.or_true]; rfl

theorem EmptyLines.tidy_of_inParens (h : EmptyLines nl) (hs : s.inParens = false) :
    Tidy s nl next :=
  h.tidy fun hin => by rw [hs] at hin; cases hin

/-! Layouts. -/

theorem Listed.tidy (h : Listed pieces ws)
    (hp : ∀ piece ∈ pieces, ∀ s next, Tidy s piece next) (hnext : next.endsLines) :
    Tidy s ws next := by
  induction h generalizing s with
  | nil => trivial
  | last us hnl =>
    exact .append (hp us List.mem_cons_self _ _) (hnl.tidy_of_endsLines hnext)
  | cons us hnl hnl' _ ih =>
    obtain ⟨hus, hp⟩ := List.forall_mem_cons.1 hp
    refine .append (hus _ _) (.append (hnl.tidy_of_endsLines rfl) ?_)
    exact .cons (by simp) (.append (hnl'.tidy_of_lineEnd rfl) (ih hp))

theorem Parenthesized.tidy (h : Parenthesized pieces ws)
    (hp : ∀ piece ∈ pieces, ∀ s next, Tidy s piece next) : Tidy s ws next := by
  cases h with
  | intro hnl hus =>
    refine .cons (by simp) (.append (hnl.tidy_of_lineEnd rfl) (.append ?_ ?_))
    · exact hus.tidy hp rfl
    · exact .cons (by simp) trivial

theorem ParameterText.tidy {parameter : Parameter} (h : ParameterText parameter ws) :
    Tidy s ws next := by
  cases h with
  | intro x ht => exact .cons (by simp) (ht.flat (by decide)).tidy

theorem SignatureText.tidy {signature : Signature} (h : SignatureText signature ws) :
    Tidy s ws next := by
  cases h with
  | intro hitems hws hresult =>
    refine .append (hws.tidy ?_) (hresult.flat (by decide)).tidy
    exact List.forall_mem_map.2 fun i hi _ _ => (hitems i hi).tidy

theorem Lined.tidy (h : Lined pieces ws)
    (hp : ∀ piece ∈ pieces, Keeps piece ∧ ∀ s next, s.inParens = false → Tidy s piece next)
    (hs : s.inParens = false) : Tidy s ws next := by
  induction h generalizing s with
  | one us => exact (hp us List.mem_cons_self).2 s next hs
  | cons us hnl _ _ ih =>
    obtain ⟨⟨hkeeps, hus⟩, hp⟩ := List.forall_mem_cons.1 hp
    have hafter := (Site.inParens_congr (hkeeps s)).trans hs
    refine .append (hus s _ hs) (.append (hnl.tidy_of_inParens hafter) ?_)
    exact ih hp ((Site.inParens_congr (hnl.keeps _)).trans hafter)

theorem OnLines.tidy (h : OnLines pieces ws)
    (hp : ∀ piece ∈ pieces, Keeps piece ∧ ∀ s next, s.inParens = false → Tidy s piece next)
    (hs : s.inParens = false) : Tidy s ws next := by
  cases h with
  | none hnl => exact hnl.tidy_of_inParens hs
  | some hnl hus hnl' =>
    have hafter := (Site.inParens_congr (hnl.keeps s)).trans hs
    have hend := (Site.inParens_congr (hus.keeps (fun i hi => (hp i hi).1) _)).trans hafter
    exact .append (hnl.tidy_of_inParens hs)
      (.append (hus.tidy hp hafter) (hnl'.tidy_of_inParens hend))

theorem Loosely.tidy {fits : Statement → List Terminal → Prop}
    {items : List (Statement × List Terminal)} (h : Loosely fits items ws)
    (hp : ∀ i ∈ items, Keeps i.2 ∧ ∀ s next, s.inParens = false → Tidy s i.2 next)
    (hs : s.inParens = false) : Tidy s ws next := by
  induction h generalizing s with
  | nil hnl => exact hnl.tidy_of_inParens hs
  | cons us hnl _ _ ih =>
    obtain ⟨⟨hkeeps, hus⟩, hp⟩ := List.forall_mem_cons.1 hp
    have hafter := (Site.inParens_congr (hnl.keeps s)).trans hs
    refine .append (hnl.tidy_of_inParens hs) (.append (hus _ _ hafter) ?_)
    exact ih hp ((Site.inParens_congr (hkeeps _)).trans hafter)

/-! What is derived. -/

/-- In statements this is said where they stand, outside of parentheses. -/
def Phrase.IsTidy (ws : List Terminal) : Phrase → Prop
  | .expr _ _ | .block _ => ∀ s next, Tidy s ws next
  | .statement _ => ∀ s next, s.inParens = false → Tidy s ws next

variable {fits : Statement → List Terminal → Prop} {p : Phrase}

theorem Derives.tidy (h : Derives fits p ws) : p.IsTidy ws := by
  induction h with
  | number | string | name => exact fun _ _ => .cons (by simp) trivial
  | @grouping e nl ws nl' hnl _ hnl' ih =>
    intro s next
    refine .cons (by simp) (.append (hnl.tidy_of_lineEnd rfl) (.append (ih _ _) ?_))
    exact .append (hnl'.tidy_of_endsLines rfl) (.cons (by simp) trivial)
  | closure span hsig _ ih =>
    exact fun _ _ => .cons (by simp) (.append hsig.tidy (ih _ _))
  | call span _ _ hvs ih iha =>
    exact fun _ _ => .append (ih _ _) (hvs.tidy (List.forall_mem_map.2 iha))
  | member x span _ ih => exact fun _ _ => .append (ih _ _) (flat_property x).tidy
  | prefixed span hop _ ih => exact fun _ _ => .cons (by simp) (ih _ _)
  | @binary tier tighter operator left right ws nl vs span hop _ hl hnl _ ihl ihr =>
    intro s next
    have hends : EndsOperand ws := hl.nests
    refine .append (ihl _ _) (.cons (by simp) (.append (hnl.tidy_of_lineEnd ?_) (ihr _ _)))
    rw [hends, s.behind.past_operator (mem_infixOperators hop)]
    rfl
  | @assignment operator target value ws nl vs span hop ht hnl _ iht ihv =>
    intro s next
    have hends : EndsOperand ws := ht.nests
    refine .append (iht _ _) (.cons (by simp) (.append (hnl.tidy_of_lineEnd ?_) (ihv _ _)))
    rw [hends, s.behind.past_operator (List.mem_append_left _ hop)]
    rfl
  | tighter _ _ ih => exact ih
  | @block items ws span hitems hws ih =>
    intro s next
    have hstatements : Tidy (s.past (.symbol "\x7b")) ws (.symbol "\x7d") :=
      hws.tidy (List.forall_mem_map.2 fun i hi => ⟨(hitems i hi).nests, ih i hi⟩) rfl
    exact .cons (by simp) (.append hstatements (.cons (by simp) trivial))
  | nested _ ih => exact fun s next _ => ih s next
  | conditional span _ _ ihc ihb =>
    exact fun _ _ _ => .cons (by simp) (.append (ihc _ _) (ihb _ _))
  | alternative span _ _ _ ihc ihb ihe =>
    exact fun _ _ _ => .cons (by simp)
      (.append (ihc _ _) (.append (ihb _ _) (.cons (by simp) (ihe _ _))))
  | function x span hsig _ ih =>
    exact fun _ _ _ => .cons (by simp) (.cons (by simp) (.append hsig.tidy (ih _ _)))
  | result span _ ih => exact fun _ _ _ => .cons (by simp) (ih _ _)
  | @loop iterable items ws nl vs names bodySpan span _ hnl hitems hvs ihe ihs =>
    intro s next _
    have hopen : (((s.past (.keyword .kwFor)).after ws).past (.symbol "\x7b")).inParens = false :=
      rfl
    have hlines := (Site.inParens_congr (hnl.keeps _)).trans hopen
    have hnames := (Site.inParens_congr ((level_loopNames names).keeps _)).trans hlines
    refine .cons (by simp) (.append (ihe _ _) (.cons (by simp)
      (.append (hnl.tidy_of_inParens hopen) (.append ?_ (.append ?_ ?_)))))
    · exact (level_loopNames names).tidy hlines
    · exact hvs.tidy (fun i hi => ⟨(hitems i hi).nests, ihs i hi⟩) hnames
    · exact .cons (by simp) trivial
  | classDefinition x superclass span _ ih =>
    exact fun _ _ _ => .cons (by simp) (.cons (by simp)
      (.append (flat_superclassText superclass).tidy (ih _ _)))
  | unassigned changes x valueSpan span hws =>
    exact fun _ _ _ => .cons (by simp) (.cons (by simp) (hws.flat List.mem_cons_self).tidy)
  | @declaration type value ws nl vs changes x span hws hnl _ ih =>
    intro s next hs
    have hflat := hws.flat List.mem_cons_self
    have hafter : (((s.past (.keyword (if changes then .kwVar else .kwLet))).past (.name x)).after
        ws).inParens = false :=
      (Site.inParens_congr ((hws.keeps List.mem_cons_self) _)).trans hs
    exact .cons (by simp) (.cons (by simp) (.append hflat.tidy (.cons (by simp)
      (.append (hnl.tidy_of_inParens hafter) (ih _ _)))))
  | expression span _ _ ih => exact fun s next _ => ih s next

theorem DerivesProgram.tidy {ss : List Statement} (h : DerivesProgram fits ss ws)
    (next : Terminal) : Tidy {} ws next := by
  cases h with
  | intro hitems hws =>
    refine .append (hws.tidy ?_ rfl) (.cons (by simp) trivial)
    exact List.forall_mem_map.2 fun i hi => ⟨(hitems i hi).nests, (hitems i hi).tidy⟩

theorem DerivesProgram.stretch (hfits : ∀ st ws vs, ws.head? = vs.head? → fits st ws → fits st vs)
    {ss : List Statement} (h : DerivesProgram fits ss ws) (hst : Stretches {} ws us) :
    DerivesProgram fits ss us := by
  cases h with
  | @intro items ws hitems hws =>
    have hkeeps : Keeps ws := hws.keeps (List.forall_mem_map.2 fun i hi => (hitems i hi).nests)
    have hstatements : Items (fun us a => Survives (Derives fits (.statement a)) us ∧ Keeps us)
        OnLines ws (items.map (·.1)) :=
      ⟨items, rfl, fun i hi => ⟨(hitems i hi).survives hfits, (hitems i hi).nests⟩, hws⟩
    obtain ⟨ws', _, rfl, h₁, h₂⟩ := hst.split
    obtain ⟨items', hvalues, hitems', hws'⟩ := Items.onLines_survives hstatements _ _ rfl h₁
    obtain ⟨_, rfl, hend⟩ := h₂.tight (Site.allows_of_inParens (Site.inParens_congr (hkeeps {})) _)
    cases hend
    rw [hvalues]
    exact .intro hitems' hws'

theorem longestFit_congr (st : Statement) (ws us : List Terminal) (hhead : ws.head? = us.head?)
    (h : longestFit st ws) : longestFit st us := by
  rwa [longestFit, ← hhead]

section Parse
variable {xs ys : List Token} {u t line : Token} {name : String} {b : Block} {stop : Cursor}

theorem words_line (hline : line.kind = .newLine) :
    (xs ++ line :: u :: ys ++ [t]).map Token.terminal = xs.map Token.terminal ++
      .newLine :: u.terminal :: (ys.map Token.terminal ++ [t.terminal]) := by
  simp [Token.terminal_newLine.2 hline]

theorem genuine_line (hline : line.kind = .newLine)
    (h : ∀ v ∈ xs ++ u :: ys, v.Genuine ∧ v.kind ≠ .endOfInput) :
    ∀ v ∈ xs ++ line :: u :: ys, v.Genuine ∧ v.kind ≠ .endOfInput := by
  obtain ⟨hxs, hys⟩ := List.forall_mem_append.1 h
  refine List.forall_mem_append.2 ⟨hxs, List.forall_mem_cons.2 ⟨⟨⟨?_, ?_⟩, ?_⟩, hys⟩⟩
  all_goals simp [hline]

theorem allows_of_parse_line (ht : t.kind = .endOfInput) (hline : line.kind = .newLine)
    (h : ∀ v ∈ xs ++ u :: ys, v.Genuine ∧ v.kind ≠ .endOfInput)
    (hp : parse (xs ++ line :: u :: ys ++ [t]) name = .done b stop)
    (hin : (Site.after {} (xs.map Token.terminal)).inParens) :
    (Site.after {} (xs.map Token.terminal)).allows u.terminal := by
  have htidy := (parse_sound ht (genuine_line hline h) hp).1.tidy .endOfInput
  rw [words_line hline, tidy_append] at htidy
  exact htidy.2.1 rfl hin

theorem parse_line_of_allows (ht : t.kind = .endOfInput) (hline : line.kind = .newLine)
    (h : ∀ v ∈ xs ++ u :: ys, v.Genuine ∧ v.kind ≠ .endOfInput)
    (hp : parse (xs ++ u :: ys ++ [t]) name = .done b stop)
    (hallows : (Site.after {} (xs.map Token.terminal)).allows u.terminal) :
    ∃ b' stop', parse (xs ++ line :: u :: ys ++ [t]) name = .done b' stop' ∧
      b'.statements.map Statement.bare = b.statements.map Statement.bare := by
  obtain ⟨hderives, hfin⟩ := parse_sound ht h hp
  have hwords : (xs ++ u :: ys ++ [t]).map Token.terminal = xs.map Token.terminal ++
      u.terminal :: (ys.map Token.terminal ++ [t.terminal]) := by simp
  rw [hwords] at hderives
  have hstretched := hderives.stretch longestFit_congr (.one hallows _)
  rw [← words_line hline] at hstretched
  refine parse_complete ht (genuine_line hline h) ?_ hstretched name
  simp only [List.map_append, List.forall_mem_append, List.map_cons, List.forall_mem_cons] at hfin ⊢
  exact ⟨hfin.1, by rw [Token.terminal_newLine.2 hline]; trivial, hfin.2⟩

/-- In the parentheses of an expression, of arguments or of parameters one more line may end behind
an opening parenthesis, a comma, an operator between operands or the end of a line, and in front of
a comma, a closing parenthesis or the end of a line, with the same tree as before. In no other gap
may it end, for example not in front of an operator, behind a prefix or around a colon. -/
theorem parse_line_in_parens (ht : t.kind = .endOfInput) (hline : line.kind = .newLine)
    (h : ∀ v ∈ xs ++ u :: ys, v.Genuine ∧ v.kind ≠ .endOfInput)
    (hp : parse (xs ++ u :: ys ++ [t]) name = .done b stop)
    (hin : (Site.after {} (xs.map Token.terminal)).inParens) :
    ((∃ b' stop', parse (xs ++ line :: u :: ys ++ [t]) name = .done b' stop') ↔
      (Site.after {} (xs.map Token.terminal)).lineEnd ∨ u.terminal.endsLines) ∧
    ∀ b' stop', parse (xs ++ line :: u :: ys ++ [t]) name = .done b' stop' →
      b'.statements.map Statement.bare = b.statements.map Statement.bare := by
  have hallows : (Site.after {} (xs.map Token.terminal)).allows u.terminal ↔
      (Site.after {} (xs.map Token.terminal)).lineEnd ∨ u.terminal.endsLines := by
    rw [Site.allows, hin, Bool.true_and, Bool.or_eq_true]
  refine ⟨⟨?_, fun hgap => ?_⟩, fun b' stop' hp' => ?_⟩
  · rintro ⟨b', stop', hp'⟩
    exact hallows.1 (allows_of_parse_line ht hline h hp' hin)
  · obtain ⟨b', stop', hp', -⟩ := parse_line_of_allows ht hline h hp (hallows.2 hgap)
    exact ⟨b', stop', hp'⟩
  · have hgap := allows_of_parse_line ht hline h hp' hin
    obtain ⟨b'', stop'', hp'', hbare⟩ := parse_line_of_allows ht hline h hp hgap
    obtain ⟨rfl, -⟩ := Outcome.done.inj (hp'.symm.trans hp'')
    exact hbare

/-- A line may end in front of an argument. -/
theorem parse_line_in_parens_argument :
    let place : UInt32 → Position := fun offset => ⟨offset, "shell"⟩
    let callee : List Token :=
      [⟨.name, "f", place 0, place 1⟩, ⟨.symbol, "(", place 1, place 2⟩]
    let argument : Token := ⟨.name, "a", place 2, place 3⟩
    let close : Token := ⟨.symbol, ")", place 3, place 4⟩
    let line : Token := ⟨.newLine, "\n", place 2, place 3⟩
    tokenize "f(a)" none = .ok (callee ++ [argument, close, .endAt (place 4)]) ∧
      ∃ b stop, parse (callee ++ [line, argument, close, .endAt (place 4)]) "shell" =
        .done b stop := by
  intro place callee argument close line
  have htokens : tokenize "f(a)" none = .ok (callee ++ [argument, close, .endAt (place 4)]) := by
    decide +kernel
  let stop : Cursor :=
    { consumed := [close, argument] ++ callee.reverse, upcoming := []
      finish := ⟨"EOF", place 4, place 4⟩ }
  have herror : (parse (callee ++ [argument, close, .endAt (place 4)]) "shell").error? = none := by
    decide +kernel
  have hstop : (parse (callee ++ [argument, close, .endAt (place 4)]) "shell").cursor? =
      some stop := by decide +kernel
  obtain ⟨b, hb⟩ := Outcome.exists_done herror hstop
  obtain ⟨before, t, happend, -, hgenuine⟩ := scan_tokens (scan_of_tokenize htokens)
  have hsplit : (callee ++ [argument, close]) ++ [.endAt (place 4)] = before ++ [t] := happend
  obtain ⟨rfl, -⟩ := List.append_inj' hsplit rfl
  have hgap : (Site.after {} (callee.map Token.terminal)).inParens ∧
      (Site.after {} (callee.map Token.terminal)).lineEnd := by decide
  have hline : line.kind = .newLine := rfl
  exact ⟨htokens, (parse_line_in_parens rfl hline hgenuine hb hgap.1).1.2 (.inl hgap.2)⟩

/-- No line may end between a parameter and the colon of its type. -/
theorem parse_line_in_parens_refused :
    let place : UInt32 → Position := fun offset => ⟨offset, "shell"⟩
    let name : List Token := [⟨.keyword .kwFunction, "function", place 0, place 8⟩,
      ⟨.name, "f", place 9, place 10⟩, ⟨.symbol, "(", place 10, place 11⟩,
      ⟨.name, "a", place 11, place 12⟩]
    let type : List Token := [⟨.symbol, ":", place 12, place 13⟩,
      ⟨.name, "Int", place 14, place 17⟩, ⟨.symbol, ")", place 17, place 18⟩,
      ⟨.symbol, "\x7b", place 19, place 20⟩, ⟨.symbol, "\x7d", place 20, place 21⟩,
      .endAt (place 21)]
    let line : Token := ⟨.newLine, "\n", place 12, place 13⟩
    tokenize "function f(a: Int) \x7b\x7d" none = .ok (name ++ type) ∧
      (∃ b stop, parse (name ++ type) "shell" = .done b stop) ∧
      (Site.after {} (name.map Token.terminal)).inParens ∧
      ¬ ∃ b stop, parse (name ++ line :: type) "shell" = .done b stop := by
  intro place name type line
  let stop : Cursor :=
    { consumed := type.dropLast.reverse ++ name.reverse, upcoming := []
      finish := ⟨"EOF", place 21, place 21⟩ }
  have herror : (parse (name ++ type) "shell").error? = none := by decide +kernel
  have hstop : (parse (name ++ type) "shell").cursor? = some stop := by decide +kernel
  obtain ⟨b, hb⟩ := Outcome.exists_done herror hstop
  refine ⟨by decide +kernel, ⟨b, stop, hb⟩, by decide, ?_⟩
  rintro ⟨b, stop', hparse⟩
  have hrefused : (parse (name ++ line :: type) "shell").error?.isSome := by decide +kernel
  rw [hparse] at hrefused
  cases hrefused

end Parse

end ScriptSyntax
