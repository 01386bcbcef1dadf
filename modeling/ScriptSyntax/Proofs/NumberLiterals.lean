import ScriptSyntax.Proofs.Formation
import ScriptSyntax.Proofs.Nearest
import ScriptSyntax.Proofs.RoundTrip
import ScriptSyntax.Render

/-! Number literals. One is read as the number nearest to its exact value, however long it is, and
the text in which a number is shown is a literal of it again. -/
namespace ScriptSyntax
variable {text : List Char} {exact : ℚ} {c stop : Cursor}

/-! The texts. -/

/-- Digits, or digits with a point and more digits behind it, and the exact value of them. -/
inductive DecimalText : List Char → ℚ → Prop where
  | whole {digits : List Char} (h : IsDigits digits) :
      DecimalText digits (Nat.ofDigitChars 10 digits 0)
  | pointed {digits fraction : List Char} (h : IsDigits digits) (hfraction : IsDigits fraction) :
      DecimalText (digits ++ '.' :: fraction)
        (Nat.ofDigitChars 10 digits 0 + Nat.ofDigitChars 10 fraction 0 / 10 ^ fraction.length)

/-- They are what the pattern of numbers matches. -/
theorem matches_number_iff :
    Pattern.number.regex.Matches text ↔ ∃ exact, DecimalText text exact := by
  rw [Pattern.matches_number]
  constructor
  · rintro (h | ⟨digits, fraction, h, hfraction, rfl⟩)
    · exact ⟨_, .whole h⟩
    · exact ⟨_, .pointed h hfraction⟩
  · rintro ⟨exact, h | ⟨h, hfraction⟩⟩
    · exact .inl h
    · exact .inr ⟨_, _, h, hfraction, rfl⟩

/-- A whole number is one whose fraction is empty. -/
theorem DecimalText.exists_pointed (h : DecimalText text exact) : ∃ digits fraction,
    IsDigits digits ∧ (∀ d ∈ fraction, d.isDigit = true) ∧
      text = digits ++ Double.pointed fraction ∧
      exact = Nat.ofDigitChars 10 (digits ++ fraction) 0 / 10 ^ fraction.length := by
  cases h with
  | whole h =>
    refine ⟨text, [], h, by simp, (List.append_nil _).symm, ?_⟩
    rw [List.append_nil, List.length_nil, pow_zero, div_one]
  | @pointed digits fraction h hfraction =>
    have hpoint : Double.pointed fraction = '.' :: fraction := if_neg hfraction.1
    refine ⟨digits, fraction, h, hfraction.2, by rw [hpoint], ?_⟩
    have hpower : (10 : ℚ) ^ fraction.length ≠ 0 := pow_ne_zero _ (by norm_num)
    have hvalue : Nat.ofDigitChars 10 (digits ++ fraction) 0 =
        10 ^ fraction.length * Nat.ofDigitChars 10 digits 0 + Nat.ofDigitChars 10 fraction 0 := by
      rw [Nat.ofDigitChars_append]
      exact Nat.ofDigitChars_eq_ofDigitChars_zero
    rw [hvalue, eq_div_iff hpower, add_mul, div_mul_cancel₀ _ hpower]
    push_cast
    ring

/-- All characters take one byte. -/
theorem DecimalText.byteCount (h : DecimalText text exact) :
    Text.byteCount text = text.length := by
  have hdigit {d : Char} (hd : d.isDigit = true) : d.utf8Size = 1 := by
    rw [Char.isDigit, Bool.and_eq_true, decide_eq_true_eq, decide_eq_true_eq] at hd
    have hascii : ('9' : Char).val ≤ 127 := by decide
    exact Char.utf8Size_eq_one_iff.2 (UInt32.le_trans hd.2 hascii)
  apply Text.byteCount_of_single
  cases h with
  | whole h => exact fun d hd => hdigit (h.2 d hd)
  | pointed h hfraction =>
    rw [List.forall_mem_append, List.forall_mem_cons]
    exact ⟨fun d hd => hdigit (h.2 d hd), rfl, fun d hd => hdigit (hfraction.2 d hd)⟩

/-- The value of a text without an exponent. -/
theorem DecimalText.ofText?_nearest {text : String} (h : DecimalText text.toList exact) :
    (exact < 2 ^ 1024 - 2 ^ 970 → ∃ x, Double.ofText? text = some x ∧
      ∀ y : Double, y.Nearest exact ↔ y = x) ∧
    (2 ^ 1024 - 2 ^ 970 ≤ exact → Double.ofText? text = none) := by
  obtain ⟨digits, fraction, hdigits, hfraction, htext, rfl⟩ := h.exists_pointed
  have hread := Double.ofChars?_pointed hdigits.2 hfraction hdigits.1 false
  rw [if_neg Bool.false_ne_true, List.nil_append, ← htext] at hread
  rw [Double.ofText?, hread, Option.bind_some]
  exact Double.toDouble?_nearest _ _

/-- The parser of literals at a number. -/
theorem literal_number (hkind : c.current.kind = .number) : Parse.literal c =
    match Double.ofText? c.current.text with
    | some x => .done (.number x c.current.span) c.next
    | none => .failed ⟨.badNumber c.current.text, c.current.span.start⟩ c := by
  rw [Parse.literal, Parse.current_bind, hkind]
  dsimp only
  cases Double.ofText? c.current.text <;> rfl

/-- A number token gives the number nearest to the exact value of its text, of two the even one,
and is consumed. From the middle between the largest number and the power of two above it on it is
refused with its whole text, and stays. -/
theorem literal_nearest (hkind : c.current.kind = .number)
    (htext : DecimalText c.current.text.toList exact) :
    let e : Error := ⟨.badNumber c.current.text, c.current.span.start⟩
    (exact < 2 ^ 1024 - 2 ^ 970 → ∃ x : Double, (∀ y : Double, y.Nearest exact ↔ y = x) ∧
      Parse.literal c = .done (.number x c.current.span) c.next ∧
      c.next.index = c.index + 1 ∧ c.next.tokens = c.tokens) ∧
    (2 ^ 1024 - 2 ^ 970 ≤ exact → Parse.literal c = .failed e c ∧
      e.name = "NumberParseError" ∧ e.found? = some c.current.text) := by
  intro e
  obtain ⟨hnumber, hnone⟩ := htext.ofText?_nearest
  rw [literal_number hkind]
  constructor
  · intro hlt
    obtain ⟨x, hx, hnearest⟩ := hnumber hlt
    have hpasses := Cursor.Passes.next (c := c) (by rw [hkind]; decide)
    exact ⟨x, hnearest, by rw [hx], hpasses.index, hpasses.tokens⟩
  · intro hle
    exact ⟨by rw [hnone hle], rfl, rfl⟩

theorem isDigits_toDigits (n : Nat) : IsDigits (Nat.toDigits 10 n) :=
  ⟨Nat.toDigits_ne_nil, fun _ => Nat.isDigit_of_mem_toDigits (by decide) (by decide)⟩

/-- The middle itself is refused, and what is a tenth less is a number. -/
theorem literal_nearest_middle :
    let middle : Nat := 2 ^ 1024 - 2 ^ 970
    let refused := Nat.toDigits 10 middle
    let accepted := Nat.toDigits 10 (middle - 1) ++ ['.', '9']
    let cursor (text : List Char) : Cursor :=
      .start [⟨.number, String.ofList text, default⟩] "shell"
    DecimalText refused middle ∧ DecimalText accepted (middle - 1 / 10) ∧
    Parse.literal (cursor refused) =
      .failed ⟨.badNumber (String.ofList refused), default⟩ (cursor refused) ∧
    ∃ x : Double, x.Nearest (middle - 1 / 10) ∧
      Parse.literal (cursor accepted) = .done (.number x default) (cursor accepted).next := by
  intro middle refused accepted cursor
  have hlt : 2 ^ 970 < 2 ^ 1024 := pow_lt_pow_right₀ (by decide) (by decide)
  have hpos : 0 < middle := Nat.sub_pos_of_lt hlt
  have hcast : (middle : ℚ) = 2 ^ 1024 - 2 ^ 970 := by
    rw [Nat.cast_sub hlt.le, Nat.cast_pow, Nat.cast_pow, Nat.cast_ofNat]
  clear_value middle
  have hrefused : DecimalText refused middle := by
    have h := DecimalText.whole (isDigits_toDigits middle)
    rwa [Nat.ofDigitChars_ten_toDigits] at h
  have haccepted : DecimalText accepted (middle - 1 / 10) := by
    have hnine : IsDigits ['9'] := ⟨List.cons_ne_nil _ _, List.forall_mem_singleton.2 rfl⟩
    have hvalue : Nat.ofDigitChars 10 ['9'] 0 = 9 := by decide
    have h := DecimalText.pointed (isDigits_toDigits (middle - 1)) hnine
    rw [Nat.ofDigitChars_ten_toDigits, Nat.cast_sub hpos, hvalue] at h
    convert h using 1
    norm_num
    ring
  have hcurrent (text : List Char) :
      (cursor text).current = ⟨.number, String.ofList text, default⟩ := rfl
  have htext {text : List Char} {exact : ℚ} (h : DecimalText text exact) :
      DecimalText (cursor text).current.text.toList exact := by
    rwa [hcurrent, String.toList_ofList]
  obtain ⟨x, hx, hread, -⟩ := (literal_nearest rfl (htext haccepted)).1 (by rw [← hcast]; linarith)
  exact ⟨hrefused, haccepted, ((literal_nearest rfl (htext hrefused)).2 hcast.ge).1, x,
    (hx x).2 rfl, hread⟩

/-! Shown numbers. -/

/-- A number token for a whole source, and the end of the input. -/
def numberTokens (source file : String) : List Token :=
  let stop : Position := ⟨source.utf8ByteSize.toUInt32, file⟩
  [⟨.number, source, ⟨⟨0, file⟩, stop⟩⟩, .endAt stop]

/-- A source is one number token from its beginning to its end, that token is read as the number
wherever it stands, and as a program it is the number, which is shown as the source. -/
structure IsNumeral (source : String) (x : Double) : Prop where
  tokens (origin : Option String) :
    tokenize source origin = .ok (numberTokens source (origin.getD defaultFile))
  literal {c : Cursor} (hkind : c.current.kind = .number) (htext : c.current.text = source) :
    Parse.literal c = .done (.number x c.current.span) c.next
  program (file name : String) : ∃ b stop span span',
    parse (numberTokens source file) name = .done b stop ∧
      b.statements = [.expression (.number x span) span'] ∧
      b.statements.map Statement.render = [source]

theorem matches_display {x : Double} (h : x.negative = false) :
    Pattern.number.regex.Matches x.display.toList :=
  Pattern.matches_of_read? (p := .number) (Double.readNumber?_display h)

/-- Shown numbers are short. -/
theorem size_display_le {x : Double} (h : x.negative = false) :
    x.display.utf8ByteSize ≤ maxOffset := by
  obtain ⟨exact, htext⟩ := matches_number_iff.1 (matches_display h)
  calc
    x.display.utf8ByteSize = x.display.toList.length := by rw [← byteCount_toList, htext.byteCount]
    _ ≤ 1 + (309 + (1 + 1074)) := x.length_display_le
    _ ≤ maxOffset := by decide

theorem tokenize_display {x : Double} (h : x.negative = false) (origin : Option String) :
    tokenize x.display origin = .ok (numberTokens x.display (origin.getD defaultFile)) := by
  have hfirst := Lexeme.first?_number (Double.readNumber?_display h)
  have hspan := Place.span_start (origin.getD defaultFile) x.display.toList
  rw [byteCount_toList] at hspan
  rw [tokenize_single (size_display_le h) hfirst rfl, Lexeme.token?, byteCount_toList, hspan,
    String.ofList_toList]
  rfl

/-- A tree that is a number but for its places is a number. -/
theorem exists_of_bare_number {s : Statement} {x : Double} {span span' : Span}
    (h : s.bare = (Statement.expression (.number x span) span').bare) :
    ∃ span span', s = .expression (.number x span) span' := by
  cases s with
  | expression e _ =>
    rw [Statement.bare, Statement.bare, Statement.relocate, Statement.relocate] at h
    obtain ⟨hvalue, -⟩ := Statement.expression.inj h
    cases e with
    | number y _ =>
      obtain ⟨rfl, -⟩ := Expr.number.inj hvalue
      exact ⟨_, _, rfl⟩
    | _ => cases hvalue
  | _ => cases h

theorem parse_display {x : Double} (h : x.negative = false) (file name : String) :
    ∃ b stop span span', parse (numberTokens x.display file) name = .done b stop ∧
      b.statements = [.expression (.number x span) span'] := by
  have hnumber := Legible.number h default
  have hstatement := Derives.expression default hnumber.derives (by simp)
  let finish : Position := ⟨x.display.utf8ByteSize.toUInt32, file⟩
  have hbefore : ∀ u ∈ [Token.mk .number x.display ⟨⟨0, file⟩, finish⟩],
      u.Genuine ∧ u.kind ≠ .endOfInput :=
    List.forall_mem_singleton.2 ⟨⟨by simp, by simp⟩, by simp⟩
  obtain ⟨b, stop, hparse, hbare⟩ := parse_complete (t := .endAt finish) rfl hbefore
    (fun w hw => (hnumber.usable w hw).2) (.single hstatement) name
  obtain ⟨s, hs, hnumber⟩ := List.map_eq_singleton_iff.1 hbare
  obtain ⟨span, span', rfl⟩ := exists_of_bare_number hnumber
  exact ⟨b, stop, span, span', hparse, hs⟩

theorem isNumeral_display {x : Double} (h : x.negative = false) : IsNumeral x.display x where
  tokens := tokenize_display h
  literal hkind htext := by rw [literal_number hkind, htext, Double.ofText?_display]
  program file name := by
    obtain ⟨b, stop, span, span', hparse, hstatements⟩ := parse_display h file name
    exact ⟨b, stop, span, span', hparse, hstatements, by rw [hstatements]; rfl⟩

/-- A number that a source spells is shown as a number literal again, and not with a sign or an
exponent. What is shown is one token, the number that is read from it is the same, and so is what is
shown of that. -/
theorem number_display_rereads {source : String} {file : Option String} {tokens : List Token}
    (h : tokenize source file = .ok tokens) (hc : c.current ∈ tokens)
    (hkind : c.current.kind = .number) {e : Expr} (hp : Parse.literal c = .done e stop) :
    ∃ x, e = .number x c.current.span ∧ (∃ exact, DecimalText e.render.toList exact) ∧
      IsNumeral e.render x := by
  have hlexical := tokenize_lexical h hc (by rw [hkind]; decide)
  rw [Token.terminal_number.2 ⟨hkind, rfl⟩] at hlexical
  have hpositive := numberValue_not_negative hlexical
  rw [literal_number hkind] at hp
  cases hvalue : Double.ofText? c.current.text with
  | none =>
    rw [hvalue] at hp
    cases hp
  | some x =>
    rw [hvalue] at hp
    obtain ⟨rfl, -⟩ := Outcome.done.inj hp
    rw [numberValue, hvalue, Option.getD_some] at hpositive
    exact ⟨x, rfl, matches_number_iff.1 (matches_display hpositive), isNumeral_display hpositive⟩

/-- A number in the middle between two others is read as the even one and shown as that. -/
theorem number_display_rereads_even :
    let place : UInt32 → Position := fun offset => ⟨offset, "shell"⟩
    let t : Token := ⟨.number, "9007199254740993.0", ⟨place 0, place 18⟩⟩
    let even : Double := ⟨false, 2 ^ 1127, by decide +kernel⟩
    tokenize "9007199254740993.0" none = .ok [t, .endAt (place 18)] ∧
    ∃ stop, Parse.literal (.start [t] "shell") = .done (.number even t.span) stop ∧
      IsNumeral "9007199254740992" even := by
  intro place t even
  have htokens : tokenize "9007199254740993.0" none = .ok [t, .endAt (place 18)] := by
    decide +kernel
  have hvalue : Double.ofText? "9007199254740993.0" = some even := by decide +kernel
  have hshown : even.display = "9007199254740992" := by decide +kernel
  let c : Cursor := .start [t] "shell"
  have hread : Parse.literal c = .done (.number even t.span) c.next := by
    have hcurrent : c.current = t := rfl
    rw [literal_number (by rw [hcurrent]), hcurrent, hvalue]
  obtain ⟨x, hx, -, hnumeral⟩ := number_display_rereads htokens List.mem_cons_self rfl hread
  obtain ⟨rfl, -⟩ := Expr.number.inj hx
  exact ⟨htokens, _, hread, hshown ▸ hnumeral⟩

end ScriptSyntax
