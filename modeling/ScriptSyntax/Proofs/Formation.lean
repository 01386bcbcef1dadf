import ScriptSyntax.Proofs.Language
import ScriptSyntax.Proofs.Printing
import ScriptSyntax.Proofs.Tiling

/-! Every tree that is read from a source is well formed, so its text can be printed and read back.
The words of a source are lexical, and a derivation from lexical words builds well-formed trees. -/
namespace ScriptSyntax
variable {ws vs : List Terminal} {x symbol : String}

/-! Names and numbers of the lexer. -/

/-- A name is a letter or underscore with letters, digits and underscores behind it, and none of
the reserved words. -/
theorem isName_iff : isName x = true ↔
    Pattern.word.regex.Matches x.toList ∧ ∀ word : Keyword, x ≠ word.text := by
  rw [isName, Bool.and_eq_true, decide_eq_true_eq, decide_eq_true_eq]
  refine and_congr ⟨fun h => Pattern.matches_of_read? (p := .word) h, fun h => ?_⟩ ?_
  · obtain ⟨c, cs, -, -, hx⟩ := Pattern.matches_word.1 h
    exact Pattern.read?_whole h (by simp [hx])
  · rw [Option.eq_none_iff_forall_ne_some]
    exact forall_congr' fun word => not_congr Keyword.ofText?_eq_some_iff

/-- A token that shows its piece of the source is a word of the lexer. -/
theorem Token.Shows.lexical {t : Token} {piece : List Char} (h : t.Shows piece)
    (hend : t.kind ≠ .endOfInput) : t.terminal.Lexical := by
  rw [Token.Shows] at h
  rw [Token.terminal]
  cases hk : t.kind with
  | endOfInput => exact absurd hk hend
  | newLine | string | keyword _ => trivial
  | number =>
    rw [hk] at h
    obtain ⟨rfl, hmatches⟩ := h
    refine Pattern.read?_whole hmatches fun hnil => ?_
    rcases Pattern.matches_number.1 hmatches with hdigits | ⟨whole, digits, -, -, htext⟩
    · exact hdigits.1 hnil
    · exact absurd (hnil.symm.trans htext) (by simp)
  | symbol =>
    rw [hk] at h
    obtain ⟨rfl, hsymbol⟩ := h
    exact hsymbol
  | name =>
    rw [hk] at h
    obtain ⟨rfl, hmatches, hwords⟩ := h
    have hname := isName_iff.2 ⟨hmatches, hwords⟩
    rwa [isName, Bool.and_eq_true, decide_eq_true_eq, decide_eq_true_eq] at hname

/-- The words of a source are those that the lexer knows. -/
theorem tokenize_lexical {source : String} {file : Option String} {tokens : List Token}
    (h : tokenize source file = .ok tokens) {t : Token} (ht : t ∈ tokens)
    (hend : t.kind ≠ .endOfInput) : t.terminal.Lexical := by
  obtain ⟨hsize, ls, hreads, rfl⟩ := reads_of_tokenize h
  have htiles := @tiles_of_reads (file.getD defaultFile) [] _ _ hreads
    (by rwa [List.nil_append, byteCount_toList])
  obtain ⟨left, right, hsplit⟩ := List.append_of_mem ht
  obtain ⟨-, -, piece, -, -, -, -, -, hshows, -⟩ := htiles.split hsplit
  exact hshows.lexical hend

theorem isName_of_lexical (h : (Terminal.name x).Lexical) : isName x = true := by
  rw [isName, Bool.and_eq_true, decide_eq_true_eq, decide_eq_true_eq]
  exact h

theorem Numeral.negative_toDouble? {m : Numeral} {value : Double} (h : m.toDouble? = some value) :
    value.negative = m.negative := by
  rw [toDouble?] at h
  split at h
  · obtain rfl := Option.some.inj h
    rfl
  split at h
  · cases h
  simp only [Double.ofQuotient?] at h
  split at h
  · obtain rfl := Option.some.inj h
    rfl
  · cases h

theorem Numeral.negative_ofChars? {text : List Char} {m : Numeral} (h : ofChars? text = some m) :
    m.negative = (readSign text).1 := by
  simp only [ofChars?] at h
  split at h
  · cases h
  · obtain ⟨exponent, -, rfl⟩ := Option.map_eq_some_iff.1 h
    rfl

/-- A number of the lexer has no sign. -/
theorem numberValue_not_negative {text : String} (h : (Terminal.number text).Lexical) :
    (numberValue text).negative = false := by
  have hsign : (Numeral.readSign text.toList).1 = false := by
    have hmatches := Pattern.matches_of_read? (p := .number) h
    have hdigit : ∃ c cs, text.toList = c :: cs ∧ c.isDigit = true := by
      rcases Pattern.matches_number.1 hmatches with hdigits | ⟨whole, _, hwhole, -, htext⟩
      · obtain ⟨c, cs, hc⟩ := List.exists_cons_of_ne_nil hdigits.1
        exact ⟨c, cs, hc, hdigits.2 c (by simp [hc])⟩
      · obtain ⟨c, cs, rfl⟩ := List.exists_cons_of_ne_nil hwhole.1
        exact ⟨c, _, htext, hwhole.2 c List.mem_cons_self⟩
    obtain ⟨c, cs, htext, hc⟩ := hdigit
    rw [htext, Numeral.readSign.eq_def]
    split
    · next heq =>
      obtain ⟨rfl, -⟩ := List.cons.inj heq
      cases hc
    · rfl
    · rfl
  rw [numberValue, Double.ofText?]
  cases hm : Numeral.ofChars? text.toList with
  | none => rfl
  | some m =>
    rw [Option.bind_some]
    cases hvalue : m.toDouble? with
    | none => rfl
    | some value =>
      rw [Option.getD_some, Numeral.negative_toDouble? hvalue, Numeral.negative_ofChars? hm, hsign]

/-! What lexical words derive. -/

theorem TypeText.isNamed {t : TypeExpr} (h : TypeText t ws) (hws : ∀ w ∈ ws, w.Lexical) :
    t.isNamed = true := by
  induction h with
  | named x p => exact isName_of_lexical (hws _ List.mem_cons_self)
  | array _ ih => exact ih fun w hw => hws w (List.mem_append_left _ hw)

theorem Annotation.wellFormed {t : TypeExpr} (h : Annotation symbol t ws)
    (hws : ∀ w ∈ ws, w.Lexical) : t.wellFormed = true := by
  cases h with
  | absent => rfl
  | present htext =>
    have hnamed := htext.isNamed fun w hw => hws w (List.mem_cons_of_mem _ hw)
    rw [TypeExpr.wellFormed, hnamed, Bool.or_true]

theorem ParameterText.wellFormed {p : Parameter} (h : ParameterText p ws)
    (hws : ∀ w ∈ ws, w.Lexical) : p.wellFormed = true := by
  cases h with
  | intro x htype =>
    obtain ⟨hx, hrest⟩ := List.forall_mem_cons.1 hws
    rw [Parameter.wellFormed, Bool.and_eq_true]
    exact ⟨isName_of_lexical hx, htype.wellFormed hrest⟩

theorem SignatureText.wellFormed {s : Signature} (h : SignatureText s ws)
    (hws : ∀ w ∈ ws, w.Lexical) : s.wellFormed = true := by
  cases h with
  | @intro items result us vs hitems hlayout hresult =>
    obtain ⟨hus, hvs⟩ := List.forall_mem_append.1 hws
    rw [Signature.wellFormed, Bool.and_eq_true, List.all_map, List.all_eq_true]
    refine ⟨fun i hi => (hitems i hi).wellFormed fun w hw => hus w ?_, hresult.wellFormed hvs⟩
    exact (hlayout.isInfix (List.mem_map_of_mem hi)).subset hw

theorem wellFormedExprs_eq (es : List Expr) :
    wellFormedExprs es = es.all (·.wellFormed none) := by
  induction es with
  | nil => rfl
  | cons e es ih => rw [wellFormedExprs, ih, List.all_cons]

theorem wellFormedStatements_eq (ss : List Statement) :
    wellFormedStatements ss = ss.all Statement.wellFormed := by
  induction ss with
  | nil => rfl
  | cons s ss ih => rw [wellFormedStatements, ih, List.all_cons]

theorem wellFormed_loopNames {names : List String} (h : ∀ w ∈ loopNames names, w.Lexical) :
    names.all isName = true := by
  rw [List.all_eq_true]
  intro y hy
  refine isName_of_lexical (h _ ?_)
  cases names with
  | nil => cases hy
  | cons x xs =>
    rcases List.mem_cons.1 hy with rfl | hy
    · simp [loopNames]
    · have hmem : Terminal.name y ∈ xs.flatMap fun z => [.symbol ",", .name z] :=
        List.mem_flatMap.2 ⟨y, hy, by simp⟩
      simp [loopNames, hmem]

theorem wellFormed_superclassText {superclass : Option String}
    (h : ∀ w ∈ superclassText superclass, w.Lexical) : superclass.all isName = true := by
  cases superclass with
  | none => rfl
  | some x => exact isName_of_lexical (h _ (by simp [superclassText]))

/-- A value takes the name of its declaration if it is a closure, and no other value has one. -/
theorem Expr.wellFormed_named {e : Expr} (h : e.wellFormed none = true) (x : String) :
    (e.named x).wellFormed (some x) = true := by
  cases e with
  | closure name signature body span =>
    simp only [wellFormed, Bool.and_eq_true] at h
    simp only [named, wellFormed, decide_true, Bool.true_and, Bool.and_eq_true]
    exact ⟨h.1.2, h.2⟩
  | unassigned span => cases h
  | _ => exact h

theorem binaryNames_contains {tier : Tier} {operator : String} (h : operator ∈ tier.operators) :
    binaryNames.contains operator = true := by
  have hall : ∀ tier ∈ [Tier.logic, .rel, .add, .mul], ∀ name ∈ tier.operators,
      binaryNames.contains name = true := by decide
  refine hall tier ?_ operator h
  cases tier <;> first | decide | cases h

/-- No expression is named or missing where it is derived: a declaration sees to that. -/
def Phrase.wellFormed : Phrase → Bool
  | expr _ value => value.wellFormed none
  | block body => body.wellFormed
  | statement value => value.wellFormed

/-- Lexical words derive well-formed trees only. -/
theorem Derives.wellFormed {fits : Statement → List Terminal → Prop} {p : Phrase}
    (h : Derives fits p ws) (hws : ∀ w ∈ ws, w.Lexical) : p.wellFormed = true := by
  induction h with
  | number text span =>
    have hvalue := numberValue_not_negative (hws _ List.mem_cons_self)
    rw [Phrase.wellFormed, Expr.wellFormed, hvalue, Bool.not_false]
  | string => rfl
  | name x => exact isName_of_lexical (hws _ List.mem_cons_self)
  | grouping _ _ _ ih => exact ih fun w hw => hws w (by simp [hw])
  | closure span hsig _ ih =>
    have hs := hsig.wellFormed fun w hw => hws w (by simp [hw])
    have hb := ih fun w hw => hws w (by simp [hw])
    simp only [Phrase.wellFormed, Expr.wellFormed, decide_true, Bool.true_and, Bool.and_eq_true]
    exact ⟨hs, hb⟩
  | call span _ _ hlayout ih iha =>
    have hc := ih fun w hw => hws w (by simp [hw])
    simp only [Phrase.wellFormed, Expr.wellFormed, Bool.and_eq_true, wellFormedExprs_eq,
      List.all_map, List.all_eq_true]
    refine ⟨hc, fun i hi => iha i hi fun w hw => hws w (List.mem_append_right _ ?_)⟩
    exact (hlayout.isInfix (List.mem_map_of_mem hi)).subset hw
  | member x span _ ih =>
    have ho := ih fun w hw => hws w (by simp [hw])
    simp only [Phrase.wellFormed, Expr.wellFormed, Bool.and_eq_true]
    exact ⟨ho, isName_of_lexical (hws _ (by simp))⟩
  | prefixed span hop _ ih =>
    have ho := ih fun w hw => hws w (by simp [hw])
    simp only [Phrase.wellFormed, Expr.wellFormed, Bool.and_eq_true]
    exact ⟨List.contains_iff_mem.2 hop, ho⟩
  | binary span hop _ _ _ _ ihl ihr =>
    have hl := ihl fun w hw => hws w (by simp [hw])
    have hr := ihr fun w hw => hws w (by simp [hw])
    simp only [Phrase.wellFormed, Expr.wellFormed, Bool.and_eq_true]
    exact ⟨⟨binaryNames_contains hop, hl⟩, hr⟩
  | assignment span hop _ _ _ iht ihv =>
    have ht := iht fun w hw => hws w (by simp [hw])
    have hv := ihv fun w hw => hws w (by simp [hw])
    simp only [Phrase.wellFormed, Expr.wellFormed, Bool.and_eq_true]
    exact ⟨⟨List.contains_iff_mem.2 hop, ht⟩, hv⟩
  | tighter _ _ ih => exact ih hws
  | block span _ hlayout ih =>
    simp only [Phrase.wellFormed, Block.wellFormed, wellFormedStatements_eq, List.all_map,
      List.all_eq_true]
    intro i hi
    have hsubset := (hlayout.isInfix (List.mem_map_of_mem hi)).subset
    exact ih i hi fun w hw => hws w (by simp [hsubset hw])
  | nested _ ih => exact ih hws
  | conditional span _ _ ihc ihb =>
    have hc := ihc fun w hw => hws w (by simp [hw])
    have hb := ihb fun w hw => hws w (by simp [hw])
    simp only [Phrase.wellFormed, Statement.wellFormed, Bool.and_eq_true]
    exact ⟨⟨hc, hb⟩, rfl⟩
  | alternative span _ _ _ ihc ihb ihe =>
    have hc := ihc fun w hw => hws w (by simp [hw])
    have hb := ihb fun w hw => hws w (by simp [hw])
    have he := ihe fun w hw => hws w (by simp [hw])
    simp only [Phrase.wellFormed, Statement.wellFormed, Bool.and_eq_true]
    exact ⟨⟨hc, hb⟩, he⟩
  | function x span hsig _ ih =>
    have hs := hsig.wellFormed fun w hw => hws w (by simp [hw])
    have hb := ih fun w hw => hws w (by simp [hw])
    simp only [Phrase.wellFormed, Statement.wellFormed, Bool.and_eq_true]
    exact ⟨⟨isName_of_lexical (hws _ (by simp)), hs⟩, hb⟩
  | result span _ ih => exact ih fun w hw => hws w (by simp [hw])
  | loop names bodySpan span _ _ _ hlayout ihe ihs =>
    have he := ihe fun w hw => hws w (by simp [hw])
    have hnames : names.all isName = true :=
      wellFormed_loopNames fun w hw => hws w (by simp [hw])
    simp only [Phrase.wellFormed, Statement.wellFormed, Block.wellFormed, Bool.and_eq_true,
      wellFormedStatements_eq]
    refine ⟨⟨he, hnames⟩, ?_⟩
    rw [List.all_map, List.all_eq_true]
    exact fun i hi => ihs i hi fun w hw => hws w (by simp [(hlayout.isInfix hi).subset hw])
  | classDefinition x superclass span _ ih =>
    have hsuper : superclass.all isName = true :=
      wellFormed_superclassText fun w hw => hws w (by simp [hw])
    have hb := ih fun w hw => hws w (by simp [hw])
    simp only [Phrase.wellFormed, Statement.wellFormed, Bool.and_eq_true]
    exact ⟨⟨isName_of_lexical (hws _ (by simp)), hsuper⟩, hb⟩
  | unassigned changes x valueSpan span htype =>
    have ht := htype.wellFormed fun w hw => hws w (by simp [hw])
    simp only [Phrase.wellFormed, Statement.wellFormed, Bool.and_eq_true]
    exact ⟨⟨isName_of_lexical (hws _ (by simp)), ht⟩, rfl⟩
  -- the one place where a name is given
  | declaration changes x span htype _ _ ih =>
    have ht := htype.wellFormed fun w hw => hws w (by simp [hw])
    have hv := ih fun w hw => hws w (by simp [hw])
    simp only [Phrase.wellFormed, Statement.wellFormed, Bool.and_eq_true]
    exact ⟨⟨isName_of_lexical (hws _ (by simp)), ht⟩, Expr.wellFormed_named hv x⟩
  | expression span _ _ ih => exact ih hws

/-- The statements of a program that was read are well formed. -/
theorem parse_statements_wellFormed {source : String} {file : Option String} {tokens : List Token}
    (h : tokenize source file = .ok tokens) {name : String} {b : Block} {stop : Cursor}
    (hp : parse tokens name = .done b stop) : wellFormedStatements b.statements = true := by
  obtain ⟨before, t, rfl, ht, hbefore⟩ := scan_tokens (scan_of_tokenize h)
  have hlexical : ∀ w ∈ before.map Token.terminal, w.Lexical :=
    List.forall_mem_map.2 fun u hu =>
      tokenize_lexical h (List.mem_append_left _ hu) (hbefore u hu).2
  obtain ⟨hderives, -⟩ := parse_sound ht hbefore hp
  generalize hss : b.statements = ss at hderives
  generalize hall : (before ++ [t]).map Token.terminal = all at hderives
  cases hderives with
  | @intro items ws hitems hlayout =>
    rw [List.map_append, List.map_singleton, Token.terminal_endOfInput.2 ht] at hall
    obtain rfl := List.append_cancel_right hall
    rw [wellFormedStatements_eq, List.all_map, List.all_eq_true]
    exact fun i hi => (hitems i hi).wellFormed fun w hw =>
      hlexical w ((hlayout.isInfix (List.mem_map_of_mem hi)).subset hw)

/-- Every program that is read has a well-formed tree. A closure has a name where it is the value
of a declaration, namely the declared one, and nowhere else; only there may a value be missing. The
operators are those of the tables, names are words that are not reserved, no number has a sign, and
no array holds a type that is not written. -/
theorem trees_wellFormed {source : String} {file : Option String} {tokens : List Token}
    (h : tokenize source file = .ok tokens) {name : String} {b : Block} {stop : Cursor}
    (hp : parse tokens name = .done b stop) :
    wellFormedStatements b.statements = true ∧
    binaryNames =
      ["&&", "||", "<", "<=", ">", ">=", "==", "!=", "+", "-", "*", "/", "%"] ∧
    Grammar.assignmentOperators = ["=", "+=", "-="] ∧ Grammar.prefixOperators = ["-", "!"] ∧
    ∀ x, isName x = true ↔
      Pattern.word.regex.Matches x.toList ∧ ∀ word : Keyword, x ≠ word.text :=
  ⟨parse_statements_wellFormed h hp, rfl, rfl, rfl, fun _ => isName_iff⟩

/-- A closure in parentheses is still the value of its declaration. -/
theorem trees_wellFormed_closure :
    let place : UInt32 → Position := fun offset => ⟨offset, "shell"⟩
    let tokens : List Token :=
      [⟨.keyword .kwLet, "let", place 0, place 3⟩, ⟨.name, "f", place 4, place 5⟩,
        ⟨.symbol, "=", place 5, place 6⟩, ⟨.symbol, "(", place 6, place 7⟩,
        ⟨.keyword .kwFunction, "function", place 7, place 15⟩, ⟨.symbol, "(", place 15, place 16⟩,
        ⟨.symbol, ")", place 16, place 17⟩, ⟨.symbol, "\x7b", place 17, place 18⟩,
        ⟨.symbol, "\x7d", place 18, place 19⟩, ⟨.symbol, ")", place 19, place 20⟩,
        ⟨.endOfInput, "EOF", place 20, place 20⟩]
    tokenize "let f=(function()\x7b\x7d)" none = .ok tokens ∧
      ∃ b stop, parse tokens "shell" = .done b stop ∧ wellFormedStatements b.statements = true := by
  intro place tokens
  have htokens : tokenize "let f=(function()\x7b\x7d)" none = .ok tokens := by decide +kernel
  have hends : (parse tokens "shell").error? = none := by decide +kernel
  cases hp : parse tokens "shell" with
  | done b stop => exact ⟨htokens, b, stop, rfl, (trees_wellFormed htokens hp).1⟩
  | failed e stop =>
    rw [hp] at hends
    cases hends
  | endless => exact absurd hp (parse_ends _ _)

end ScriptSyntax
