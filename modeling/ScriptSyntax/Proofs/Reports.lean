import ScriptSyntax.Proofs.Carets
import ScriptSyntax.Proofs.Complaints
import ScriptSyntax.Proofs.Formation

/-! The lines of a report on an error. There are five, and one more for each newline in the text of
the token that is refused, which only a string can have. -/
namespace ScriptSyntax
open Text

/-- A text of so many lines, each of which a newline ends. -/
def InLines (n : Nat) (text : List Char) : Prop :=
  ∃ lines : List (List Char), lines.length = n ∧ (∀ line ∈ lines, '\n' ∉ line) ∧
    text = lines.flatMap (· ++ ['\n'])

variable {source : String} {origin : Option String} {name file : String} {e : Error}
  {line text text' : List Char} {m n : Nat} {t : Token}

theorem InLines.append (h : InLines m text) (h' : InLines n text') :
    InLines (m + n) (text ++ text') := by
  obtain ⟨lines, rfl, hlines, rfl⟩ := h
  obtain ⟨lines', rfl, hlines', rfl⟩ := h'
  exact ⟨lines ++ lines', List.length_append, List.forall_mem_append.2 ⟨hlines, hlines'⟩,
    List.flatMap_append.symm⟩

theorem InLines.one (h : '\n' ∉ line) : InLines 1 (line ++ ['\n']) :=
  ⟨[line], rfl, List.forall_mem_singleton.2 h, by simp⟩

/-- Each newline of a text ends a line, and so does one behind it. -/
theorem inLines_ended (text : List Char) : InLines (text.count '\n' + 1) (text ++ ['\n']) := by
  induction hn : text.count '\n' generalizing text with
  | zero => exact .one (List.count_eq_zero.1 hn)
  | succ n ih =>
    have hmem : '\n' ∈ text := List.count_pos_iff.1 (hn ▸ Nat.succ_pos n)
    obtain ⟨line, rest, rfl, hline⟩ := List.eq_append_cons_of_mem hmem
    rw [List.count_append, List.count_eq_zero_of_not_mem hline, List.count_cons_self,
      Nat.zero_add] at hn
    have hrest := (InLines.one hline).append (ih rest (Nat.succ.inj hn))
    simpa [Nat.add_comm, Nat.add_left_comm] using hrest

theorem InLines.count (h : InLines n text) : text.count '\n' = n := by
  obtain ⟨lines, rfl, hlines, rfl⟩ := h
  induction lines with
  | nil => rfl
  | cons line lines ih =>
    obtain ⟨hline, hlines⟩ := List.forall_mem_cons.1 hlines
    rw [List.flatMap_cons, List.count_append, List.count_append, ih hlines,
      List.count_eq_zero_of_not_mem hline, List.length_cons, Nat.zero_add,
      List.count_singleton_self, Nat.add_comm]

namespace Diagnostic

/-- A report has one line for each newline of its headline beyond the five that it always has. -/
theorem render_inLines (h : Refused source origin name e) (hfile : '\n' ∉ file.toList) :
    InLines ((headline e).toList.count '\n' + 5) (render e source file).toList := by
  obtain ⟨before, after, htext, hoffset⟩ := h.between
  obtain ⟨past, left, right, rest, hplace⟩ := exists_standsAt htext
  rw [hoffset] at hplace
  have hshown : '\n' ∉ shownLine (lineAt source e.position.offset).text.toList := by
    rw [hplace.lineAt]
    simp only [String.toList_ofList]
    rw [shownLine_ended hplace.ends]
    exact fun hmem => hplace.line
      ((List.dropWhile_suffix _).subset ((dropTrailingSpace_isPrefix _).subset hmem))
  have hnumber := newLine_not_mem_toString (lineAt source e.position.offset).number
  rw [render]
  generalize toString (lineAt source e.position.offset).number = number at hnumber ⊢
  generalize caretColumn (lineAt source e.position.offset) = dashes
  generalize shownLine (lineAt source e.position.offset).text.toList = shown at hshown ⊢
  have hname : '\n' ∉ "-> ".toList ++ file.toList := by simpa using hfile
  have hgutter : '\n' ∉ (gutter number).toList := by simp [toList_gutter]
  have habove : '\n' ∉ number.toList ++ " | ".toList ++ shown := by simp [hnumber, hshown]
  have hcaret :
      '\n' ∉ (gutter number).toList ++ " ".toList ++ List.replicate dashes '-' ++ ['^'] := by
    simp [hgutter]
  have hlines := ((((inLines_ended (headline e).toList).append (.one hname)).append
    (.one hgutter)).append (.one habove)).append (.one hcaret)
  simpa [Nat.add_assoc] using hlines

end Diagnostic

/-! The text in the headline. -/

theorem IsDigits.newLine_not_mem (h : IsDigits text) : '\n' ∉ text :=
  fun hmem => absurd (h.2 _ hmem) (by decide)

/-- A token is mentioned on one line, unless it is a string. -/
theorem Token.Genuine.newLine_not_mem (hgenuine : t.Genuine)
    (h : t.kind ≠ .endOfInput → t.terminal.Lexical) (hkind : t.kind ≠ .string) :
    '\n' ∉ t.mention.toList := by
  rw [Token.terminal] at h
  rw [Token.mention]
  cases hk : t.kind with
  | endOfInput => exact (by decide : '\n' ∉ "end of input".toList)
  | newLine => exact (by decide : '\n' ∉ "newline".toList)
  | string => exact absurd hk hkind
  | number =>
    rw [hk] at h
    have hread : Pattern.readNumber? t.text.toList = some t.text.toList := h (by simp)
    rcases Pattern.matches_number.1 (Pattern.matches_of_read? (p := .number) hread) with
      hdigits | ⟨whole, digits, hwhole, hdigits, htext⟩
    · exact hdigits.newLine_not_mem
    · dsimp only
      rw [htext]
      simpa using ⟨hwhole.newLine_not_mem, hdigits.newLine_not_mem⟩
  | symbol =>
    rw [hk] at h
    have hmem : t.text.toList ∈ Pattern.symbols := h (by simp)
    exact (show ∀ cs ∈ Pattern.symbols, '\n' ∉ cs by decide) _ hmem
  | name =>
    rw [hk] at h
    have hread : Pattern.readWord? t.text.toList = some t.text.toList := (h (by simp)).1
    obtain ⟨c, cs, hc, hcs, htext⟩ :=
      Pattern.matches_word.1 (Pattern.matches_of_read? (p := .word) hread)
    dsimp only
    rw [htext, List.mem_cons, not_or]
    exact ⟨fun heq => absurd (heq ▸ hc) (by decide), fun hmem => absurd (hcs _ hmem) (by decide)⟩
  | keyword word =>
    dsimp only
    rw [hgenuine.keyword word hk]
    cases word <;> decide

namespace Diagnostic

theorem headline_refused {k : Complaint} {found : String} (he : e.cause = .refused k (some found)) :
    '\n' ∈ (headline e).toList ↔ '\n' ∈ k.message.toList ∨ '\n' ∈ found.toList := by
  simp [headline, Error.tip?, Error.name, he]

theorem headline_badNumber {found : String} (he : e.cause = .badNumber found) :
    '\n' ∈ (headline e).toList ↔ '\n' ∈ found.toList := by
  simp [headline, Error.tip?, Error.name, he]

/-- The lexer's errors show no text of the source in the headline. -/
theorem headline_of_tokenize (h : tokenize source origin = .error e) :
    '\n' ∉ (headline e).toList := by
  rw [tokenize] at h
  split at h
  · obtain rfl := Except.error.inj h
    have hdigits (number : Nat) : '\n' ∉ Nat.toDigits 10 number := by
      simpa using newLine_not_mem_toString number
    simp [headline, Error.tip?, Error.name, hdigits]
  · dsimp only at h
    split at h
    · cases h
    · obtain rfl := Except.error.inj h
      simp [headline, Error.tip?, Error.name]

/-- The parser's errors show the token that they are about, and with it the newlines of a string. -/
theorem headline_of_parse {tokens : List Token} {stop : Cursor}
    (htokens : tokenize source origin = .ok tokens) (hparse : parse tokens name = .failed e stop) :
    '\n' ∈ (headline e).toList ↔
      stop.current.kind = .string ∧ '\n' ∈ stop.current.text.toList := by
  obtain ⟨hmem, hgenuine, -, hcause⟩ := parse_failed_names htokens hparse
  have hplain := hgenuine.newLine_not_mem fun hend => tokenize_lexical htokens hmem hend
  rcases hcause with ⟨k, hk⟩ | ⟨hnumber, hbad⟩
  · rw [headline_refused hk, or_iff_right (parse_complaint hparse hk)]
    by_cases hkind : stop.current.kind = .string
    · have hmention : stop.current.mention = stop.current.text := by simp [Token.mention, hkind]
      rw [hmention, and_iff_right hkind]
    · exact iff_of_false (hplain hkind) fun h => hkind h.1
  · have hkind : stop.current.kind ≠ .string := by simp [hnumber]
    have hmention : stop.current.mention = stop.current.text := by simp [Token.mention, hnumber]
    rw [headline_badNumber hbad, ← hmention]
    exact iff_of_false (hplain hkind) fun h => hkind h.1

/-- A report is on five lines, each ended by a newline, if its caret fits and the parser did not
stop at a string with a newline in its value. That newline would be shown as it is, and break the
headline. -/
theorem report_inLines_iff (h : Refused source origin name e) (hfile : '\n' ∉ file.toList) :
    (∃ text, render? e source file = some text ∧ InLines 5 text.toList) ↔
      Fits e source ∧
      ¬ ∃ tokens stop, tokenize source origin = .ok tokens ∧ parse tokens name = .failed e stop ∧
        stop.current.kind = .string ∧ '\n' ∈ stop.current.text.toList := by
  have hlines := render_inLines h hfile
  have hheadline : InLines 5 (render e source file).toList ↔ '\n' ∉ (headline e).toList := by
    rw [← List.count_eq_zero]
    constructor
    · intro hfive
      have hcount := hlines.count
      rw [hfive.count] at hcount
      omega
    · intro hzero
      rwa [hzero, Nat.zero_add] at hlines
  have hreport : (∃ text, render? e source file = some text ∧ InLines 5 text.toList) ↔
      Fits e source ∧ InLines 5 (render e source file).toList := by
    simp only [render?_eq_some_iff, and_assoc, exists_and_left, exists_eq_left']
  rw [hreport, hheadline]
  refine and_congr_right fun _ => not_congr ?_
  constructor
  · intro hnewLine
    rcases h with h | ⟨tokens, stop, htokens, hparse⟩
    · exact absurd hnewLine (headline_of_tokenize h)
    · exact ⟨tokens, stop, htokens, hparse, (headline_of_parse htokens hparse).1 hnewLine⟩
  · rintro ⟨tokens, stop, htokens, hparse, hstring⟩
    exact (headline_of_parse htokens hparse).2 hstring

/-- A number in the place of a name is reported on five lines. -/
theorem report_inLines_number :
    ∃ e text, Refused "let 1" none "shell" e ∧ render? e "let 1" "shell" = some text ∧
      InLines 5 text.toList := by
  let place : UInt32 → Position := fun offset => ⟨offset, "shell"⟩
  let opening : Token := ⟨.keyword .kwLet, "let", place 0, place 3⟩
  let number : Token := ⟨.number, "1", place 4, place 5⟩
  let met : Cursor :=
    { consumed := [opening], upcoming := [number], finish := ⟨"EOF", place 5, place 5⟩ }
  have htokens : tokenize "let 1" none = .ok [opening, number, .endAt (place 5)] := by
    decide +kernel
  let e : Error := ⟨.refused (.expectedName .variableName) (some "1"), place 4⟩
  have herror : (parse [opening, number, .endAt (place 5)] "shell").error? = some e := by
    decide +kernel
  have hstop : (parse [opening, number, .endAt (place 5)] "shell").cursor? = some met := by
    decide +kernel
  have hrefused : Refused "let 1" none "shell" e :=
    .inr ⟨_, met, htokens, Outcome.eq_failed herror hstop⟩
  have hname : ¬ ∃ tokens stop, tokenize "let 1" none = .ok tokens ∧
      parse tokens "shell" = .failed e stop ∧ stop.current.kind = .string ∧
        '\n' ∈ stop.current.text.toList := by
    rintro ⟨tokens, stop, htokens', hparse, hkind, -⟩
    obtain rfl := Except.ok.inj (htokens.symm.trans htokens')
    rw [hparse] at hstop
    obtain rfl : stop = met := Option.some.inj hstop
    cases hkind
  have hfile : '\n' ∉ "shell".toList := by decide
  obtain ⟨text, htext, hfive⟩ :=
    (report_inLines_iff hrefused hfile).2 ⟨by decide +kernel, hname⟩
  exact ⟨e, text, hrefused, htext, hfive⟩

/-- A string with an escaped newline in the place of a name is reported on six lines. -/
theorem report_six_lines : let source := "let \"a\\nb\""
    ∃ e text, Refused source none "shell" e ∧ render? e source "shell" = some text ∧
      ¬ InLines 5 text.toList := by
  intro source
  let place : UInt32 → Position := fun offset => ⟨offset, "shell"⟩
  let tokens : List Token := [⟨.keyword .kwLet, "let", place 0, place 3⟩,
    ⟨.string, "a\nb", place 4, place 10⟩, .endAt (place 10)]
  let e : Error := ⟨.refused (.expectedName .variableName) (some "a\nb"), place 4⟩
  let stop : Cursor :=
    { consumed := [⟨.keyword .kwLet, "let", place 0, place 3⟩]
      upcoming := [⟨.string, "a\nb", place 4, place 10⟩], finish := ⟨"EOF", place 10, place 10⟩ }
  have htokens : tokenize source none = .ok tokens := by decide +kernel
  have herror : (parse tokens "shell").error? = some e := by decide +kernel
  have hstop : (parse tokens "shell").cursor? = some stop := by decide +kernel
  have hfits : Fits e source := by decide +kernel
  refine ⟨e, _, .inr ⟨tokens, stop, htokens, Outcome.eq_failed herror hstop⟩,
    render?_eq_some_iff.2 ⟨hfits, rfl⟩, fun hfive => ?_⟩
  exact absurd hfive.count (by decide +kernel)

end Diagnostic
end ScriptSyntax
