import ScriptSyntax.Diagnostic
import ScriptSyntax.Proofs.Joining
import ScriptSyntax.Proofs.Language
import ScriptSyntax.Proofs.Tiling

/-! Errors against their source: the line that is shown, and the caret under the place of the
error. -/
namespace ScriptSyntax
open Text

variable {source : String} {origin : Option String} {name file : String} {e : Error}
  {past left right rest before after line text : List Char} {c : Char} {offset number : Nat}

/-! Places on lines. -/

/-- A place in a source: the lines before it, what stands before and behind it on its own line, and
what follows the line, which begins with the newline if there is any. -/
structure StandsAt (source : String) (offset : Nat) (past left right rest : List Char) : Prop where
  text : source.toList = past ++ left ++ right ++ rest
  offset : byteCount (past ++ left) = offset
  line : '\n' ∉ left ++ right
  begins : past = [] ∨ past.getLast? = some '\n'
  ends : rest = [] ∨ rest.head? = some '\n'

theorem exists_past (before : List Char) : ∃ past left, before = past ++ left ∧ '\n' ∉ left ∧
    (past = [] ∨ past.getLast? = some '\n') := by
  by_cases h : '\n' ∈ before.reverse
  · obtain ⟨left, past, hbefore, hleft⟩ := List.eq_append_cons_of_mem h
    refine ⟨past.reverse ++ ['\n'], left.reverse, ?_, by simpa using hleft, .inr (by simp)⟩
    rw [← List.reverse_reverse before, hbefore]
    simp
  · exact ⟨[], before, rfl, by simpa using h, .inl rfl⟩

theorem exists_rest (after : List Char) : ∃ right rest, after = right ++ rest ∧ '\n' ∉ right ∧
    (rest = [] ∨ rest.head? = some '\n') := by
  by_cases h : '\n' ∈ after
  · obtain ⟨right, rest, hafter, hright⟩ := List.eq_append_cons_of_mem h
    exact ⟨right, '\n' :: rest, hafter, hright, .inr rfl⟩
  · exact ⟨after, [], (List.append_nil _).symm, h, .inl rfl⟩

/-- Every place between two characters stands on a line. -/
theorem exists_standsAt (h : source.toList = before ++ after) :
    ∃ past left right rest, StandsAt source (byteCount before) past left right rest := by
  obtain ⟨past, left, rfl, hleft, hpast⟩ := exists_past before
  obtain ⟨right, rest, rfl, hright, hrest⟩ := exists_rest after
  exact ⟨past, left, right, rest, by rw [h, ← List.append_assoc], rfl,
    by simpa using ⟨hleft, hright⟩, hpast, hrest⟩

/-- A line that the place does not stand on is passed. -/
theorem search_behind (h : '\n' ∉ line) (text : List Char) :
    LinePoint.search number (byteCount (line ++ ['\n']) + offset)
        (splitLines (line ++ '\n' :: text)) =
      LinePoint.search (number + 1) offset (splitLines text) := by
  obtain ⟨next, lines, hlines⟩ := List.exists_cons_of_ne_nil (splitLines_ne_nil text)
  rw [splitLines_line h, hlines, LinePoint.search, if_neg (by omega), Nat.add_sub_cancel_left]

theorem search_line (h : '\n' ∉ left ++ right) (hrest : rest = [] ∨ rest.head? = some '\n') :
    LinePoint.search number (byteCount left) (splitLines (left ++ right ++ rest)) =
      ⟨number, String.ofList (left ++ right ++ rest.take 1), byteCount left⟩ := by
  cases rest with
  | nil =>
    rw [List.append_nil, splitLines_of_not_mem h, LinePoint.search, byteCount_append,
      Nat.min_eq_left (Nat.le_add_right _ _), List.take_nil, List.append_nil]
  | cons c rest =>
    obtain rfl : c = '\n' := by simpa using hrest
    obtain ⟨next, lines, hlines⟩ := List.exists_cons_of_ne_nil (splitLines_ne_nil rest)
    have hlt : byteCount left < byteCount (left ++ right ++ ['\n']) := by
      rw [byteCount_append, byteCount_append, byteCount_cons]
      have hpos := '\n'.utf8Size_pos
      omega
    rw [splitLines_line h, hlines, LinePoint.search, if_pos hlt]
    rfl

/-- The line of a place is found under its number, one more than there are newlines before. -/
theorem search_standsAt (h : '\n' ∉ left ++ right) (hpast : past = [] ∨ past.getLast? = some '\n')
    (hrest : rest = [] ∨ rest.head? = some '\n') :
    LinePoint.search number (byteCount (past ++ left))
        (splitLines (past ++ (left ++ right ++ rest))) =
      ⟨number + past.count '\n', String.ofList (left ++ right ++ rest.take 1), byteCount left⟩ := by
  induction hn : past.length using Nat.strong_induction_on generalizing past number with
  | _ n ih =>
    by_cases hmem : '\n' ∈ past
    · obtain ⟨line, past', rfl, hline⟩ := List.eq_append_cons_of_mem hmem
      have hpast' : past' = [] ∨ past'.getLast? = some '\n' := by
        cases past' with
        | nil => exact .inl rfl
        | cons c past' => exact .inr (by simpa using hpast)
      have hoffset : byteCount (line ++ '\n' :: past' ++ left) =
          byteCount (line ++ ['\n']) + byteCount (past' ++ left) := by
        simp only [byteCount_append, byteCount_cons, byteCount_nil]
        omega
      have hcount : (line ++ '\n' :: past').count '\n' = past'.count '\n' + 1 := by
        rw [List.count_append, List.count_eq_zero_of_not_mem hline, List.count_cons_self,
          Nat.zero_add]
      rw [hoffset, List.append_assoc, List.cons_append, search_behind hline,
        ih past'.length (by rw [← hn]; simp; omega) hpast' rfl, hcount, Nat.add_assoc,
        Nat.add_comm 1]
    · obtain rfl : past = [] := by
        rcases hpast with hpast | hpast
        · exact hpast
        · exact absurd (List.mem_of_getLast? hpast) hmem
      rw [List.nil_append, List.nil_append, search_line h hrest]
      rfl

theorem StandsAt.lineAt {position : UInt32}
    (h : StandsAt source position.toNat past left right rest) :
    lineAt source position = ⟨1 + (past ++ left).count '\n',
      String.ofList (left ++ right ++ rest.take 1), byteCount left⟩ := by
  have hleft : left.count '\n' = 0 :=
    List.count_eq_zero_of_not_mem fun hmem => h.line (List.mem_append_left _ hmem)
  rw [ScriptSyntax.lineAt, ← h.offset, h.text, List.append_assoc, List.append_assoc,
    ← List.append_assoc left, search_standsAt h.line h.begins h.ends, List.count_append, hleft,
    Nat.add_zero]

/-! The line as it is shown. -/

namespace Text

theorem dropTrailingSpace_isPrefix (text : List Char) : dropTrailingSpace text <+: text := by
  rw [dropTrailingSpace, ← List.reverse_suffix, List.reverse_reverse]
  exact List.dropWhile_suffix _

theorem dropTrailingSpace_concat (h : isWhiteSpace c = true) (text : List Char) :
    dropTrailingSpace (text ++ [c]) = dropTrailingSpace text := by
  rw [dropTrailingSpace, List.reverse_append, List.reverse_singleton, List.singleton_append,
    List.dropWhile_cons_of_pos h, dropTrailingSpace]

/-- What is no white space is not dropped. -/
theorem dropTrailingSpace_behind (h : isWhiteSpace c = false) (before after : List Char) :
    dropTrailingSpace (before ++ c :: after) = before ++ c :: dropTrailingSpace after := by
  rw [dropTrailingSpace, List.reverse_append, List.reverse_cons, List.append_assoc,
    List.singleton_append, Pattern.dropWhile_behind h, List.reverse_append, List.reverse_cons,
    List.reverse_reverse, List.append_assoc, List.singleton_append, dropTrailingSpace]

end Text

namespace Diagnostic

/-- The newline that ends a line does not show. -/
theorem shownLine_ended (hrest : rest = [] ∨ rest.head? = some '\n') :
    shownLine (line ++ rest.take 1) = dropTrailingSpace (line.dropWhile isIndent) := by
  cases rest with
  | nil => rw [List.take_nil, List.append_nil, shownLine]
  | cons c rest =>
    obtain rfl : c = '\n' := by simpa using hrest
    rw [List.take_succ_cons, List.take_zero, shownLine,
      Pattern.dropWhile_behind (by decide), dropTrailingSpace_concat (by decide)]

theorem takeWhile_ended (hrest : rest = [] ∨ rest.head? = some '\n') :
    (line ++ rest.take 1).takeWhile isIndent = line.takeWhile isIndent := by
  cases rest with
  | nil => rw [List.take_nil, List.append_nil]
  | cons c rest =>
    obtain rfl : c = '\n' := by simpa using hrest
    exact Pattern.takeWhile_behind (by decide) _ _

theorem isIndent_of_not_space (h : isWhiteSpace c = false) : isIndent c = false := by
  refine Bool.eq_false_iff.2 fun hc => ?_
  simp only [isIndent, Bool.or_eq_true, decide_eq_true_eq] at hc
  rcases hc with rfl | rfl <;> exact absurd h (by decide)

/-- How many characters of the shown line stand before a place on the line. -/
def indentedBy (left right : List Char) : Nat :=
  left.length - ((left ++ right).takeWhile isIndent).length

theorem length_dropWhile (line : List Char) :
    (line.dropWhile isIndent).length = line.length - (line.takeWhile isIndent).length := by
  have hline := congrArg List.length
    (List.takeWhile_append_dropWhile (p := isIndent) (l := line))
  rw [List.length_append] at hline
  omega

/-- A character that is no white space is shown where it stands. -/
theorem shown_at (h : isWhiteSpace c = false) (left after : List Char) :
    (dropTrailingSpace ((left ++ c :: after).dropWhile isIndent))[indentedBy left (c :: after)]? =
      some c := by
  have hc := isIndent_of_not_space h
  rw [indentedBy, Pattern.takeWhile_behind hc, Pattern.dropWhile_behind hc, ← length_dropWhile,
    dropTrailingSpace_behind h, List.getElem?_append_right (Nat.le_refl _), Nat.sub_self]
  rfl

/-- At the end of its line a place is not left of what is shown. -/
theorem shown_end (left : List Char) :
    (dropTrailingSpace ((left ++ []).dropWhile isIndent)).length ≤ indentedBy left [] := by
  rw [indentedBy, List.append_nil, ← length_dropWhile]
  exact (dropTrailingSpace_isPrefix _).length_le

end Diagnostic

/-! Where errors are. -/

/-- A parser's error is about a token of its list, the one that the cursor stops at. -/
theorem parse_failed_names {tokens : List Token} {stop : Cursor}
    (h : tokenize source origin = .ok tokens) (hp : parse tokens name = .failed e stop) :
    stop.current ∈ tokens ∧ stop.current.Genuine ∧ e.Names stop.current := by
  obtain ⟨ts, t, rfl, ht, hts⟩ := scan_tokens (scan_of_tokenize h)
  obtain ⟨hgenuine, -, htokens, -⟩ := Cursor.start_spells ht hts name
  have hfit := (Grammar.program_reads name _).fits _ hgenuine rfl
  rw [← parse, hp] at hfit
  obtain ⟨hnames, _, ⟨us, hus, -⟩, -⟩ := hfit
  have hmem : stop.current ∈ (Cursor.start (ts ++ [t]) name).tokens := by
    rw [← hus.tokens]
    exact stop.current_mem
  exact ⟨htokens ▸ hmem, hgenuine _ hmem, hnames⟩

/-- A token begins between two characters. -/
theorem token_start {tokens : List Token} {t : Token} (h : tokenize source origin = .ok tokens)
    (ht : t ∈ tokens) :
    ∃ before after, source.toList = before ++ after ∧
      byteCount before = t.span.start.offset.toNat := by
  obtain ⟨left, right, hsplit⟩ := List.append_of_mem ht
  obtain ⟨before, gap, piece, after, htext, -, -, hcovers, -⟩ :=
    (tiles_of_tokenize h).2.split hsplit
  refine ⟨before ++ gap, piece ++ after, ?_, hcovers.start.symm⟩
  rw [← List.nil_append source.toList, htext, List.append_assoc (before ++ gap)]

/-- Errors are between two characters of the source. -/
theorem Refused.between (h : Refused source origin name e) :
    ∃ before after, source.toList = before ++ after ∧
      byteCount before = e.position.offset.toNat := by
  rcases h with h | ⟨tokens, stop, htokens, hparse⟩
  · by_cases hsize : source.utf8ByteSize ≤ maxOffset
    · have hreads := Lexeme.reads_readAll source.toList
      generalize (Lexeme.readAll source.toList).1 = ls at hreads
      generalize (Lexeme.readAll source.toList).2 = behind at hreads
      cases behind with
      | nil =>
        rw [tokenize_of_reads hsize hreads] at h
        cases h
      | cons c rest =>
        rw [tokenize_of_reads_stop hsize hreads] at h
        obtain rfl := Except.error.inj h
        refine ⟨ls.flatMap Lexeme.text, c :: rest, hreads.text_eq, (Place.offset_after ?_).symm⟩
        rw [← byteCount_toList, hreads.text_eq, byteCount_append] at hsize
        omega
    · rw [tokenize, if_pos (Nat.not_le.1 hsize)] at h
      obtain rfl := Except.error.inj h
      exact ⟨[], source.toList, rfl, rfl⟩
  · obtain ⟨ht, -, hposition, -⟩ := parse_failed_names htokens hparse
    rw [hposition]
    exact token_start htokens ht

/-! The report. -/

namespace Diagnostic

/-- The line of a report that shows a line of the source. -/
def sourceLine (number : Nat) (shown : List Char) : List Char :=
  (toString number).toList ++ [' ', '|', ' '] ++ shown

/-- What stands before the caret under such a line. -/
def beforeCaret (number dashes : Nat) : List Char :=
  List.replicate ((toString number).length + 1) ' ' ++ ['|', ' '] ++ List.replicate dashes '-'

theorem length_beforeCaret (number dashes : Nat) :
    (beforeCaret number dashes).length = (toString number).toList.length + 3 + dashes := by
  simp only [beforeCaret, List.length_append, List.length_replicate, List.length_cons,
    List.length_nil, String.length_toList]

theorem toList_gutter (number : String) :
    (gutter number).toList = List.replicate (number.length + 1) ' ' ++ ['|'] := by
  simp [gutter]

theorem newLine_not_mem_toString (number : Nat) : '\n' ∉ (toString number).toList := by
  intro h
  rw [show toString number = number.repr from rfl, Nat.toList_repr] at h
  exact absurd (Nat.isDigit_of_mem_toDigits (by decide) (by decide) h) (by decide)

theorem characterColumn_eq {position : UInt32}
    (h : StandsAt source position.toNat past left right rest) :
    characterColumn (lineAt source position) = left.length := by
  rw [characterColumn, h.lineAt]
  simp only [String.toList_ofList, List.append_assoc, cutAt?_byteCount]

theorem fits_of_column (h : characterColumn (lineAt source e.position.offset) < maxWidth) :
    Fits e source :=
  Nat.lt_of_le_of_lt (Nat.sub_le _ _) h

/-- Where a line is not indented, a caret fits if its column is smaller than the widest field. -/
theorem fits_iff_of_standsAt (h : StandsAt source e.position.offset.toNat past left right rest)
    (hindent : ∀ c ∈ (left ++ right).head?, isIndent c = false) :
    Fits e source ↔ left.length < maxWidth := by
  have hnone : (left ++ right).takeWhile isIndent = [] := by
    cases htext : left ++ right with
    | nil => rfl
    | cons c text => exact List.takeWhile_cons_of_neg (by simp [hindent c (by rw [htext]; rfl)])
  rw [Fits, caretColumn, characterColumn_eq h, h.lineAt]
  simp only [String.toList_ofList]
  rw [takeWhile_ended h.ends, hnone]
  rfl

theorem byteCount_letters (n : Nat) : byteCount (List.replicate n 'a') = n := by
  have hsingle : ∀ c ∈ List.replicate n 'a', c.utf8Size = 1 :=
    fun c hc => List.eq_of_mem_replicate hc ▸ rfl
  rw [byteCount_of_single hsingle, List.length_replicate]

/-- A name of one letter repeated is a lexeme, and a sign that begins none stands behind it. -/
theorem reads_letters {n : Nat} (hn : 0 < n) :
    Lexeme.Reads (List.replicate n 'a' ++ ['#']) [⟨.word, List.replicate n 'a'⟩] ['#'] := by
  have hword : Pattern.readWord? (List.replicate n 'a') = some (List.replicate n 'a') := by
    obtain ⟨m, rfl⟩ := Nat.exists_eq_succ_of_ne_zero hn.ne'
    rw [List.replicate_succ, Pattern.readWord?, if_pos (by decide),
      List.takeWhile_eq_self_iff.2 fun c hc => List.eq_of_mem_replicate hc ▸ rfl]
  have hbehind := Pattern.readWord?_behind (c := '#') (by decide) (List.replicate n 'a') []
  exact .step (l := ⟨.word, List.replicate n 'a'⟩) (Lexeme.first?_word (hbehind.trans hword))
    (.stop rfl)

/-- The sign is refused. Its caret fits as long as the name is shorter than the widest field. -/
theorem fits_behind_letters {n : Nat} (hn : 0 < n) (hsize : n < maxOffset) (file name : String) :
    let source := String.ofList (List.replicate n 'a' ++ ['#'])
    ∃ e, Refused source (some file) name e ∧ (Fits e source ↔ n < maxWidth) := by
  intro source
  have htext : source.toList = List.replicate n 'a' ++ ['#'] := String.toList_ofList
  have hlarge : source.utf8ByteSize ≤ maxOffset := by
    rw [← byteCount_toList, htext, byteCount_append, byteCount_letters]
    exact hsize
  have hplace : StandsAt source
      (Place.after file (List.replicate n 'a')).position.offset.toNat []
      (List.replicate n 'a') ['#'] [] := by
    refine ⟨by simpa using htext, ?_, by simp, .inl rfl, .inl rfl⟩
    rw [Place.offset_after ((byteCount_letters n).le.trans hsize.le), List.nil_append]
  have hindent : ∀ c ∈ (List.replicate n 'a' ++ ['#']).head?, isIndent c = false := by
    intro c hc
    rcases List.mem_append.1 (List.mem_of_mem_head? hc) with hc | hc
    · rw [List.eq_of_mem_replicate hc]
      rfl
    · rw [List.mem_singleton.1 hc]
      rfl
  have hrefused := tokenize_of_reads_stop hlarge (htext ▸ reads_letters hn) (some file)
  rw [List.flatMap_singleton] at hrefused
  refine ⟨_, .inl hrefused, ?_⟩
  rw [fits_iff_of_standsAt hplace hindent, List.length_replicate]

/-- The last two lines of a report. -/
theorem render_lines (h : StandsAt source e.position.offset.toNat past left right rest)
    (file : String) : ∃ head,
      (render e source file).toList = head ++ ['\n'] ++
        sourceLine (1 + (past ++ left).count '\n')
          (dropTrailingSpace ((left ++ right).dropWhile isIndent)) ++ ['\n'] ++
        beforeCaret (1 + (past ++ left).count '\n') (indentedBy left right) ++ ['^', '\n'] := by
  have hpoint := h.lineAt
  have hcaret : caretColumn (lineAt source e.position.offset) = indentedBy left right := by
    rw [caretColumn, characterColumn_eq h, hpoint]
    simp only [String.toList_ofList]
    rw [takeWhile_ended h.ends, indentedBy]
  have hshown : shownLine (lineAt source e.position.offset).text.toList =
      dropTrailingSpace ((left ++ right).dropWhile isIndent) := by
    rw [hpoint]
    simp only [String.toList_ofList]
    exact shownLine_ended h.ends
  have hnumber : (lineAt source e.position.offset).number = 1 + (past ++ left).count '\n' := by
    rw [hpoint]
  refine ⟨(headline e ++ "\n" ++ "-> " ++ file ++ "\n" ++
    gutter (toString (1 + (past ++ left).count '\n'))).toList, ?_⟩
  rw [render, hcaret, hshown, hnumber]
  simp only [String.toList_append, toList_gutter, String.toList_ofList, sourceLine, beforeCaret,
    List.append_assoc]
  rfl

/-- An error is reported with the caret under its place, if it is not too far to the right. The last
line but one of the report shows the number and the text of the line that the error is on, and the
caret stands as far to the right as the error does in it. What is above the caret is the character
at the error; at the end of a line or of the source the caret is not left of the end of what is
shown. -/
theorem caret_under_error (h : Refused source origin name e)
    (hcolumn : characterColumn (lineAt source e.position.offset) < maxWidth) (file : String) :
    render? e source file = some (render e source file) ∧
    ∃ past left right rest head, StandsAt source e.position.offset.toNat past left right rest ∧
      let number := 1 + (past ++ left).count '\n'
      let above := sourceLine number (dropTrailingSpace ((left ++ right).dropWhile isIndent))
      let lead := beforeCaret number (indentedBy left right)
      (render e source file).toList =
        head ++ ['\n'] ++ above ++ ['\n'] ++ lead ++ ['^', '\n'] ∧
      '\n' ∉ above ∧ indentedBy left right < maxWidth ∧
      (∀ c, (right ++ rest).head? = some c → isWhiteSpace c = false →
        above[lead.length]? = some c) ∧
      ((right ++ rest).head? = none ∨ (right ++ rest).head? = some '\n' →
        above.length ≤ lead.length) := by
  obtain ⟨before, after, htext, hoffset⟩ := h.between
  obtain ⟨past, left, right, rest, hplace⟩ := exists_standsAt htext
  rw [hoffset] at hplace
  obtain ⟨head, hlines⟩ := render_lines hplace file
  have hleft := characterColumn_eq hplace
  refine ⟨render?_eq_some_iff.2 ⟨fits_of_column hcolumn, rfl⟩,
    past, left, right, rest, head, hplace, hlines, ?_, ?_, ?_, ?_⟩
  · rw [sourceLine, List.mem_append, List.mem_append, not_or, not_or]
    refine ⟨⟨newLine_not_mem_toString _, by decide⟩, fun hmem => hplace.line ?_⟩
    exact (List.dropWhile_suffix _).subset ((dropTrailingSpace_isPrefix _).subset hmem)
  · exact Nat.lt_of_le_of_lt (Nat.sub_le _ _) (hleft ▸ hcolumn)
  · intro c hc hspace
    cases right with
    | nil =>
      -- Behind the line there is at most a newline.
      rcases hplace.ends with hrest | hrest
      · rw [hrest] at hc
        cases hc
      · obtain rfl := Option.some.inj (hrest.symm.trans hc)
        exact absurd hspace (by decide)
    | cons d right =>
      obtain rfl := Option.some.inj hc
      rw [length_beforeCaret, sourceLine, List.getElem?_append_right (by simp)]
      have hindex : (toString (1 + (past ++ left).count '\n')).toList.length + 3 +
          indentedBy left (d :: right) - ((toString (1 + (past ++ left).count '\n')).toList ++
            [' ', '|', ' ']).length = indentedBy left (d :: right) := by
        rw [List.length_append]
        exact Nat.add_sub_cancel_left _ _
      rw [hindex]
      exact shown_at hspace left right
  · intro hend
    cases right with
    | nil =>
      rw [length_beforeCaret, sourceLine, List.length_append, List.length_append]
      exact Nat.add_le_add_left (shown_end left) _
    | cons d right =>
      rcases hend with hend | hend
      · cases hend
      · obtain rfl := Option.some.inj hend
        exact absurd (List.mem_append_right left List.mem_cons_self) hplace.line

/-- A character that begins no lexeme, behind a tab and a string with a character of two bytes. -/
theorem caret_under_error_wide :
    let source := "x\n\t\"é\" $"
    let e : Error := ⟨.unrecognised "$", ⟨8, "shell"⟩⟩
    Refused source none "shell" e ∧ ∃ (text : String) (head above lead : List Char),
      render? e source "shell" = some text ∧
      text.toList = head ++ ['\n'] ++ above ++ ['\n'] ++ lead ++ ['^', '\n'] ∧
      above[lead.length]? = some '$' := by
  intro source e
  have hrefused : Refused source none "shell" e := .inl (by decide +kernel)
  have hcolumn : characterColumn (lineAt source e.position.offset) < maxWidth := by
    decide +kernel
  obtain ⟨hreport, past, left, right, rest, head, hplace, hlines, -, -, hbehind, -⟩ :=
    caret_under_error hrefused hcolumn "shell"
  have hcut : cutAt? 8 source.toList = some ("x\n\t\"é\" ".toList, ['$']) := by decide +kernel
  rw [hplace.text, List.append_assoc] at hcut
  have hright : right ++ rest = ['$'] := by
    have hplaced := cutAt?_byteCount (past ++ left) (right ++ rest)
    rw [hplace.offset] at hplaced
    exact (Prod.mk.inj (Option.some.inj (hplaced.symm.trans hcut))).2
  exact ⟨hrefused, _, head, _, _, hreport, hlines,
    hbehind '$' (by rw [hright]; rfl) (by decide)⟩

end Diagnostic
end ScriptSyntax
