import Mathlib.Data.List.SplitBy
import ScriptSyntax.CommandLine
import ScriptSyntax.Proofs.Carets
import ScriptSyntax.Proofs.LayoutLaws

/-! What the command line prints. The lines that it breaks the rendered statements into can be put
together again. -/
namespace ScriptSyntax

/-- Texts without newlines have none with spaces between them. -/
theorem newline_notMem_spaced {texts : List String} (h : ∀ text ∈ texts, '\n' ∉ text.toList) :
    '\n' ∉ (spaced texts).toList := by
  cases texts with
  | nil => exact List.not_mem_nil
  | cons text texts =>
    obtain ⟨htext, htexts⟩ := List.forall_mem_cons.1 h
    rw [spaced_cons]
    simpa [htext] using htexts

/-- A rendered tree is on one line. -/
theorem Shape.Sound.newline_notMem {s : Shape} (h : s.Sound) : '\n' ∉ s.text := by
  induction h with
  | word hword =>
    rw [Shape.text_word]
    exact fun hline => absurd (isPlain_of_isWord hword _ hline) (by decide)
  | quoted text =>
    rw [Shape.text_quoted]
    exact Text.newline_notMem_quoted text
  | @names xs hxs =>
    have hnames := ne_of_mem_spaced (List.all_eq_true.1 hxs) (d := '\n') rfl (by decide)
    rw [Shape.text, Shape.render]
    simpa using fun hline => hnames _ hline rfl
  | @node broken items _ _ _ ih =>
    have hitems := newline_notMem_spaced (List.forall_mem_map.2 ih)
    rw [Shape.text, Shape.render, parenthesized, renderShapes_eq_map]
    simpa using hitems

theorem Statement.newline_notMem_render {s : Statement} (h : s.wellFormed = true) :
    '\n' ∉ s.render.toList := by
  rw [← s.render_shape]
  exact (s.sound h).newline_notMem

theorem Statement.render_exists_cons {s : Statement} (h : s.wellFormed = true) :
    ∃ c cs, s.render.toList = c :: cs ∧ c ≠ ' ' := by
  obtain ⟨c, cs, htext, hc⟩ := (s.sound h).exists_cons []
  rw [List.append_nil, Shape.text, s.render_shape] at htext
  refine ⟨c, cs, htext, ?_⟩
  rintro rfl
  generalize s.shape = part at hc
  cases part with
  | word => cases hc.2
  | _ => cases hc

namespace CommandLine

/-- The rendered statements, from what is printed. A piece of it begins at each line that does not
begin with a space. It gives a statement without its last newline, when it is put together to a
single line. -/
def printed (out : String) : List String :=
  (out.toList.splitBy Layout.together).map fun piece =>
    String.ofList <| Layout.joined false <|
      if piece.getLast? = some '\n' then piece.dropLast else piece

theorem toList_lines (texts : List String) :
    (lines texts).toList = (texts.map fun text => text.toList ++ ['\n']).flatten := by
  rw [lines, String.toList_join, List.flatMap_map, List.flatMap_def]
  simp

/-- Texts that are broken into lines and printed are told from each other, if none of them is empty,
begins with a space or has a newline. -/
theorem printed_lines {texts : List String} (hlines : ∀ text ∈ texts, '\n' ∉ text.toList)
    (hbegins : ∀ text ∈ texts, ∃ c cs, text.toList = c :: cs ∧ c ≠ ' ') :
    printed (lines (texts.map layout)) = texts := by
  have hjoined : ∀ text ∈ texts, Layout.joined false (layout text).toList = text.toList := by
    intro text htext
    rw [layout, String.toList_ofList]
    exact Layout.joined_spread false (hlines text htext) fun h => absurd h Bool.false_ne_true
  have hsplit : (lines (texts.map layout)).toList.splitBy Layout.together =
      texts.map fun text => (layout text).toList ++ ['\n'] := by
    rw [toList_lines, List.map_map]
    refine List.splitBy_flatten (by simp) (List.forall_mem_map.2 fun text htext => ?_) ?_
    · simp only [Function.comp_apply, layout, String.toList_ofList]
      exact Layout.indented_spread (hlines text htext)
    · -- each of the texts ends a line, and the next one begins with something else than a space
      refine (List.isChain_map _).2 (List.pairwise_of_forall_mem_list ?_).isChain
      intro a ha b hb
      refine ⟨by simp, by simp, ?_⟩
      obtain ⟨c, cs, hcs, hc⟩ := hbegins b hb
      obtain ⟨es, hes⟩ := Layout.exists_of_joined_cons ((hjoined b hb).trans hcs) hc
      simp [hes, Layout.together, hc]
  rw [printed, hsplit, List.map_map]
  refine (List.map_congr_left fun text htext => ?_).trans (List.map_id texts)
  simp [hjoined text htext]

theorem run_toUTF8 (path source : String) (tokensOnly : Bool) :
    run path (.ok source.toUTF8) tokensOnly = runOn (fileName path) source tokensOnly := by
  have hdecode : decode source.toUTF8 = .ok source := dif_pos source.isValidUTF8
  rw [run, Except.bind, hdecode]

theorem runOn_accepted {name source : String} {program : Block}
    (h : Accepted source (some name) name program) : runOn name source false =
      .success (lines (program.statements.map fun s => layout s.render)) := by
  obtain ⟨tokens, stop, htokens, hparse⟩ := h
  rw [runOn, htokens]
  dsimp only
  rw [if_neg Bool.false_ne_true, hparse]

theorem runOn_refused {name source : String} {e : Error} (h : Refused source (some name) name e) :
    runOn name source false = refuse e source name := by
  rcases h with htokens | ⟨tokens, stop, htokens, hparse⟩
  · rw [runOn, htokens]
  · rw [runOn, htokens]
    dsimp only
    rw [if_neg Bool.false_ne_true, hparse]

theorem accepted_of_code {name source : String} (h : (runOn name source false).code = 0) :
    ∃ program, Accepted source (some name) name program := by
  cases htokens : tokenize source (some name) with
  | error e =>
    rw [runOn_refused (.inl htokens)] at h
    exact absurd h (refuse_code_ne_zero e source name)
  | ok tokens =>
    cases hparse : parse tokens name with
    | done program stop => exact ⟨program, tokens, stop, htokens, hparse⟩
    | failed e stop =>
      rw [runOn_refused (.inr ⟨tokens, stop, htokens, hparse⟩)] at h
      exact absurd h (refuse_code_ne_zero e source name)
    | endless => exact absurd hparse (parse_ends _ _)

/-- A run with exit code 0 has found a program, and what it prints determines the rendered
statements: a newline in a string, or a line break in a statement, is never taken for the end of a
statement. When the source is refused and the caret fits, the run prints nothing but the report on
the error. -/
theorem run_prints_statements (path source : String) :
    let name := fileName path
    let report := run path (.ok source.toUTF8) false
    (report.code = 0 → ∃ program, Accepted source (some name) name program) ∧
    (∀ program, Accepted source (some name) name program →
      report.code = 0 ∧ printed report.out = program.statements.map Statement.render) ∧
    ∀ e, Refused source (some name) name e → Diagnostic.Fits e source →
      report = ⟨1, "", Diagnostic.render e source name⟩ := by
  intro name report
  have hreport : report = runOn name source false := run_toUTF8 path source false
  rw [hreport]
  refine ⟨accepted_of_code, fun program h => ?_,
    fun e h hfits => (runOn_refused h).trans (refuse_of_fits hfits)⟩
  rw [runOn_accepted h]
  refine ⟨rfl, ?_⟩
  obtain ⟨tokens, stop, htokens, hparse⟩ := h
  have hformed := parse_statements_wellFormed htokens hparse
  rw [wellFormedStatements_eq, List.all_eq_true] at hformed
  have hprinted : printed (lines ((program.statements.map Statement.render).map layout)) =
      program.statements.map Statement.render :=
    printed_lines (List.forall_mem_map.2 fun s hs => s.newline_notMem_render (hformed s hs))
      (List.forall_mem_map.2 fun s hs => s.render_exists_cons (hformed s hs))
  rwa [List.map_map] at hprinted

/-- A newline in a string does not end the statement. -/
theorem run_prints_statements_newline :
    let source := "if a \x7b f(\"\\n(\") \x7d\nx"
    let e : Error := ⟨.unrecognised "$", ⟨2, "greet"⟩⟩
    (∃ program, Accepted source (some "greet") "greet" program ∧
      (run "bin/greet" (.ok source.toUTF8) false).code = 0 ∧
      printed (run "bin/greet" (.ok source.toUTF8) false).out =
        ["(if a (block (call f \"\\n(\")))", "x"]) ∧
    Refused "x $" (some "greet") "greet" e ∧ Diagnostic.Fits e "x $" ∧
    run "bin/greet" (.ok "x $".toUTF8) false = ⟨1, "", Diagnostic.render e "x $" "greet"⟩ := by
  intro source e
  have hcheck : isProgram source (some "greet") "greet" (fun b =>
      b.statements.map Statement.render = ["(if a (block (call f \"\\n(\")))", "x"]) = true := by
    decide +kernel
  obtain ⟨program, haccepted, htexts⟩ := exists_of_isProgram hcheck
  obtain ⟨hcode, hprinted⟩ := (run_prints_statements "bin/greet" source).2.1 program haccepted
  have hrefused : Refused "x $" (some "greet") "greet" e := .inl (by decide +kernel)
  have hfits : Diagnostic.Fits e "x $" := by decide +kernel
  exact ⟨⟨program, haccepted, hcode, hprinted.trans (of_decide_eq_true htexts)⟩, hrefused, hfits,
    (run_prints_statements "bin/greet" "x $").2.2 e hrefused hfits⟩

/-- There is no report on a sign far to the right, for the caret does not fit. The run ends within
its formatting. -/
theorem run_crashes_far_right :
    let source := String.ofList (List.replicate 65535 'a' ++ ['#'])
    ∃ e, Refused source (some "shell") "shell" e ∧ ¬ Diagnostic.Fits e source ∧
      run "shell" (.ok source.toUTF8) false = .crash ∧ Report.crash.code ≠ 1 := by
  intro source
  obtain ⟨e, hrefused, hfits⟩ := Diagnostic.fits_behind_letters (n := 65535) (by decide) (by decide)
    "shell" "shell"
  have hwide : ¬ Diagnostic.Fits e source := fun h => absurd (hfits.1 h) (by decide)
  have hname : fileName "shell" = "shell" := by decide
  refine ⟨e, hrefused, hwide, ?_, by decide⟩
  rw [run_toUTF8, hname, runOn_refused hrefused, refuse_of_not_fits hwide]

end CommandLine
end ScriptSyntax
