import Mathlib.Data.List.Nodup
import ScriptSyntax.Proofs.Output

/-! What the command line prints for tokens. Each is shown on a line of its own, and can be told
from all others. -/
namespace ScriptSyntax

namespace TokenKind

def all : List TokenKind :=
  [endOfInput, newLine, number, string, symbol, name] ++ Keyword.all.map keyword

theorem mem_all (k : TokenKind) : k ∈ all := by
  cases k with
  | keyword word => cases word <;> decide
  | _ => decide

theorem display_injective : Function.Injective display := fun a b h =>
  List.inj_on_of_nodup_map (by decide : (all.map display).Nodup) a.mem_all b.mem_all h

/-- A kind is shown as one word. -/
theorem display_notMem (k : TokenKind) : ' ' ∉ k.display.toList ∧ '\n' ∉ k.display.toList :=
  (by decide : ∀ k ∈ all, ' ' ∉ k.display.toList ∧ '\n' ∉ k.display.toList) k k.mem_all

end TokenKind

namespace Token
variable {t u : Token}

/-- Whether a token is shown with its text. -/
def ShowsText (t : Token) : Prop := t.kind ≠ .newLine ∧ t.kind ≠ .endOfInput

instance (t : Token) : Decidable t.ShowsText :=
  inferInstanceAs (Decidable (t.kind ≠ .newLine ∧ t.kind ≠ .endOfInput))

/-- What stands on the line of a token behind its kind. -/
def details (t : Token) : String :=
  if t.ShowsText then " (" ++ (Text.escaped t.text ++ ")") else ""

theorem display_eq (t : Token) : t.display = t.kind.display ++ t.details := by
  rw [display, details]
  cases hk : t.kind <;> simp [ShowsText, hk, String.append_assoc]

/-- No token breaks the line that it is shown on. -/
theorem newline_notMem_display (t : Token) : '\n' ∉ t.display.toList := by
  rw [display_eq, details]
  split <;> simp [t.kind.display_notMem.2, Text.newline_notMem_escaped]

/-- What is shown tells the kind of a token, and its text wherever that is shown. -/
theorem eq_of_display (h : t.display = u.display) :
    t.kind = u.kind ∧ (t.ShowsText → t.text = u.text) := by
  have hword (t : Token) : ∀ x ∈ t.kind.display.toList, (x != ' ') = true := fun x hx =>
    bne_iff_ne.2 fun hspace => t.kind.display_notMem.1 (hspace ▸ hx)
  have hbehind (t : Token) : ∀ x ∈ t.details.toList.head?, (x != ' ') = false := by
    rw [details]
    split <;> simp
  have hlists := congrArg String.toList h
  rw [display_eq, display_eq, String.toList_append, String.toList_append] at hlists
  obtain ⟨hkind, htext⟩ := run_append_inj (hword t) (hword u) (hbehind t) (hbehind u) hlists
  have hsame := TokenKind.display_injective (String.toList_inj.1 hkind)
  refine ⟨hsame, fun ht => ?_⟩
  have hu : u.ShowsText := by rwa [ShowsText, ← hsame]
  have hdetails := String.toList_inj.1 htext
  rw [details, details, if_pos ht, if_pos hu] at hdetails
  have hinner := (String.append_right_inj _).1 hdetails
  exact Text.escaped_injective ((String.append_left_inj _).1 hinner)

/-- A token that is shown without its text has always the same one. -/
structure Fixed (t : Token) : Prop where
  newLine : t.kind = .newLine → t.text = "\n"
  endOfInput : t.kind = .endOfInput → t.text = "EOF"

theorem Fixed.eq_of_display (ht : t.Fixed) (hu : u.Fixed) (h : t.display = u.display) :
    (t.kind, t.text) = (u.kind, u.text) := by
  obtain ⟨hkind, htext⟩ := Token.eq_of_display h
  refine Prod.ext hkind ?_
  by_cases hline : t.kind = .newLine
  · exact (ht.newLine hline).trans (hu.newLine (hkind ▸ hline)).symm
  · by_cases hend : t.kind = .endOfInput
    · exact (ht.endOfInput hend).trans (hu.endOfInput (hkind ▸ hend)).symm
    · exact htext ⟨hline, hend⟩

end Token

/-! The tokens of a source. -/

theorem Lexeme.token?_fixed {place : Place} {l : Lexeme} {t : Token}
    (hread : ∃ text, l.pattern.read? text = some l.text) (ht : l.token? place = some t) :
    t.Fixed := by
  obtain ⟨text, hread⟩ := hread
  rw [token?] at ht
  cases hpattern : l.pattern with
  | newLine =>
    rw [hpattern] at ht hread
    obtain rfl := Option.some.inj ht
    have htext : l.text = ['\n'] :=
      Pattern.matches_newLine.1 (Pattern.matches_of_read? (p := .newLine) hread)
    exact ⟨fun _ => by simp [htext], by simp⟩
  | word =>
    rw [hpattern] at ht
    obtain rfl := Option.some.inj ht
    cases Keyword.ofText? (String.ofList l.text) <;> exact ⟨by simp, by simp⟩
  | number | string | symbol =>
    rw [hpattern] at ht
    obtain rfl := Option.some.inj ht
    exact ⟨by simp, by simp⟩
  | blanks | comment =>
    rw [hpattern] at ht
    cases ht

theorem fixed_of_tokenize {source : String} {file : Option String} {tokens : List Token}
    (h : tokenize source file = .ok tokens) : ∀ t ∈ tokens, t.Fixed := by
  obtain ⟨-, ls, hreads, rfl⟩ := reads_of_tokenize h
  refine List.forall_mem_append.2 ⟨tokensFrom_forall _ fun l hl _ _ ht =>
    l.token?_fixed (hreads.pattern l hl).2 ht, ?_⟩
  exact List.forall_mem_singleton.2 ⟨nofun, fun _ => rfl⟩

theorem getLast?_of_tokenize {source : String} {file : Option String} {tokens : List Token}
    (h : tokenize source file = .ok tokens) : (tokens.map Token.display).getLast? = some "EOF" := by
  obtain ⟨-, ls, -, rfl⟩ := reads_of_tokenize h
  rw [List.map_append, List.map_singleton, List.getLast?_concat]
  rfl

/-- What is shown of some tokens tells their kinds and texts. -/
theorem map_eq_of_map_display {ts us : List Token} (hts : ∀ t ∈ ts, t.Fixed)
    (hus : ∀ u ∈ us, u.Fixed) (h : ts.map Token.display = us.map Token.display) :
    ts.map (fun t => (t.kind, t.text)) = us.map fun u => (u.kind, u.text) := by
  induction ts generalizing us with
  | nil =>
    rw [List.map_nil] at h
    rw [List.map_eq_nil_iff.1 h.symm]
  | cons t ts ih =>
    cases us with
    | nil => cases h
    | cons u us =>
      obtain ⟨ht, hts⟩ := List.forall_mem_cons.1 hts
      obtain ⟨hu, hus⟩ := List.forall_mem_cons.1 hus
      obtain ⟨hfirst, hrest⟩ := List.cons.inj h
      exact congrArg₂ List.cons (ht.eq_of_display hu hfirst) (ih hts hus hrest)

namespace CommandLine

theorem splitLines_lines {texts : List String} (h : ∀ text ∈ texts, '\n' ∉ text.toList) :
    splitLines (lines texts).toList = (texts.map fun text => text.toList ++ ['\n']) ++ [[]] := by
  rw [toList_lines]
  induction texts with
  | nil => rfl
  | cons text texts ih =>
    obtain ⟨htext, htexts⟩ := List.forall_mem_cons.1 h
    rw [List.map_cons, List.flatten_cons, List.append_assoc, List.singleton_append,
      splitLines_line htext, ih htexts]
    rfl

/-- Texts without newlines in them can be told from what is printed. -/
theorem lines_inj {texts texts' : List String} (h : ∀ text ∈ texts, '\n' ∉ text.toList)
    (h' : ∀ text ∈ texts', '\n' ∉ text.toList) (heq : lines texts = lines texts') :
    texts = texts' := by
  have hlines := splitLines_lines h
  rw [heq, splitLines_lines h', List.append_left_inj] at hlines
  refine (List.map_injective_iff.2 (fun a b hab => ?_) hlines).symm
  exact String.toList_inj.1 (List.append_cancel_right hab)

theorem run_tokens {path source : String} {tokens : List Token}
    (h : tokenize source (some (fileName path)) = .ok tokens) :
    run path (.ok source.toUTF8) true = .success (lines (tokens.map Token.display)) := by
  rw [run_toUTF8, runOn, h]
  rfl

/-- What is shown of a token with its text determines both its kind and its text, and it never
breaks the line. The tokens of a source are printed on one line each, the end of the input on the
last, and two runs print the same only if the kinds and the texts of all tokens are the same. -/
theorem run_prints_tokens :
    (∀ t u : Token, t.ShowsText → u.ShowsText → t.display = u.display →
      t.kind = u.kind ∧ t.text = u.text) ∧
    (∀ t : Token, '\n' ∉ t.display.toList) ∧
    ∀ (path source : String) (tokens : List Token),
      tokenize source (some (fileName path)) = .ok tokens →
      let report := run path (.ok source.toUTF8) true
      report.code = 0 ∧ report.err = "" ∧
      splitLines report.out.toList = (tokens.map fun t => t.display.toList ++ ['\n']) ++ [[]] ∧
      (tokens.map Token.display).getLast? = some "EOF" ∧
      ∀ (path' source' : String) (tokens' : List Token),
        tokenize source' (some (fileName path')) = .ok tokens' →
        (run path' (.ok source'.toUTF8) true).out = report.out →
        tokens'.map (fun t => (t.kind, t.text)) = tokens.map fun t => (t.kind, t.text) := by
  have hlines (tokens : List Token) : ∀ text ∈ tokens.map Token.display, '\n' ∉ text.toList :=
    List.forall_mem_map.2 fun t _ => t.newline_notMem_display
  refine ⟨fun t u ht _ h => ⟨(Token.eq_of_display h).1, (Token.eq_of_display h).2 ht⟩,
    Token.newline_notMem_display, fun path source tokens htokens => ?_⟩
  intro report
  have hreport : report = .success (lines (tokens.map Token.display)) := run_tokens htokens
  rw [hreport]
  refine ⟨rfl, rfl, ?_, getLast?_of_tokenize htokens, fun path' source' tokens' htokens' h => ?_⟩
  · rw [Report.success, splitLines_lines (hlines tokens), List.map_map]
    rfl
  · rw [run_tokens htokens'] at h
    exact map_eq_of_map_display (fixed_of_tokenize htokens') (fixed_of_tokenize htokens)
      (lines_inj (hlines tokens') (hlines tokens) h)

/-- The mark in the string is shown by its code point where it stands first, and the parentheses as
they are. A comment and other blanks leave no trace in what is printed. -/
theorem run_prints_tokens_string :
    let source := "let a = \"\u0301)\\n(\u0301\"\n"
    let source' := "let a=\"\u0301)\\n(\u0301\" // b\n"
    let report := run "bin/greet" (.ok source.toUTF8) true
    let report' := run "greet" (.ok source'.toUTF8) true
    ∃ tokens tokens', tokenize source (some "greet") = .ok tokens ∧
      tokenize source' (some "greet") = .ok tokens' ∧
      (splitLines report.out.toList).map String.ofList =
        ["Keyword(let) (let)\n", "Identifier (a)\n", "Symbol (=)\n",
          "String (\\u\x7b301\x7d)\\n(\u0301)\n", "NewLine\n", "EOF\n", ""] ∧
      report.out = report'.out ∧
      tokens'.map (fun t => (t.kind, t.text)) = tokens.map fun t => (t.kind, t.text) := by
  intro source source' report report'
  have htokens {text : String} (h : (tokenize text (some "greet")).toBool = true) :
      ∃ tokens, tokenize text (some "greet") = .ok tokens := by
    cases htext : tokenize text (some "greet") with
    | ok tokens => exact ⟨tokens, rfl⟩
    | error e =>
      rw [htext] at h
      cases h
  obtain ⟨tokens, hsource⟩ := htokens (by decide +kernel : (tokenize source _).toBool = true)
  obtain ⟨tokens', hsource'⟩ := htokens (by decide +kernel : (tokenize source' _).toBool = true)
  have hout : report.out = report'.out := by decide +kernel
  have hname : fileName "bin/greet" = "greet" := by decide +kernel
  have hname' : fileName "greet" = "greet" := by decide +kernel
  obtain ⟨-, -, -, -, hsame⟩ := run_prints_tokens.2.2 "bin/greet" source tokens (hname ▸ hsource)
  exact ⟨tokens, tokens', hsource, hsource', by decide +kernel, hout,
    hsame "greet" source' tokens' (hname' ▸ hsource') hout.symm⟩

end CommandLine
end ScriptSyntax
