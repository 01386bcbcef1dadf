import ScriptSyntax.Proofs.Lexing
import ScriptSyntax.Proofs.Programs
import ScriptSyntax.Proofs.Scanning

/-! Two sources with the end of a line between them. Their tokens follow each other, and so do their
statements: neither the lexer nor the parser takes anything over from the first to the second. -/
namespace ScriptSyntax
open Parse Text

variable {f : Position → Position} {file name : String} {c c₂ d stop : Cursor}
  {head read text : List Char} {l : Lexeme} {ls ls' : List Lexeme}
  {before before' tokens ts : List Token} {last last' line : Token}

/-! The lexer. -/

/-- A position so many bytes further on. -/
def Position.ahead (bytes : Nat) (p : Position) : Position := ⟨p.offset + bytes.toUInt32, p.file⟩

theorem Position.offset_ahead {bytes : Nat} {p : Position}
    (h : p.offset.toNat + bytes ≤ maxOffset) :
    (p.ahead bytes).offset.toNat = p.offset.toNat + bytes := by
  rw [maxOffset] at h
  rw [ahead, UInt32.toNat_add, Nat.toUInt32_eq, UInt32.toNat_ofNat', Nat.add_mod_mod]
  exact Nat.mod_eq_of_lt (by omega)

/-- Moves the positions in a text to where they are when the text stands behind another one. -/
def MovesBehind (f : Position → Position) (file : String) (head text : List Char) : Prop :=
  ∀ read, read <+: text →
    f (Place.after file read).position = (Place.after file (head ++ read)).position

theorem movesBehind_of_offset (hsize : byteCount (head ++ text) ≤ maxOffset)
    (hf : ∀ p : Position, p.offset.toNat ≤ byteCount text →
      (f p).file = p.file ∧ (f p).offset.toNat = p.offset.toNat + byteCount head) :
    MovesBehind f file head text := by
  rintro read ⟨rest, rfl⟩
  rw [byteCount_append, byteCount_append] at hsize
  have hread := @Place.offset_after file read (by omega)
  have hbehind := @Place.offset_after file (head ++ read) (by rw [byteCount_append]; omega)
  rw [byteCount_append] at hbehind
  obtain ⟨hfile, hoffset⟩ := hf (Place.after file read).position
    (by rw [hread, byteCount_append]; omega)
  have hsame : (f (Place.after file read).position).offset =
      (Place.after file (head ++ read)).position.offset :=
    UInt32.toNat_inj.1 (by rw [hoffset, hread, hbehind, Nat.add_comm])
  exact congrArg₂ Position.mk hsame hfile

theorem Lexeme.token?_moves (hf : MovesBehind f file head text) (h : read ++ l.text <+: text) :
    l.token? (.after file (head ++ read)) =
      (l.token? (.after file read)).map (Token.relocate f) := by
  have hspan : (Place.after file (head ++ read)).span (byteCount l.text) =
      ((Place.after file read).span (byteCount l.text)).relocate f := by
    rw [Place.span, Place.span, Place.advance_after, Place.advance_after, Span.relocate,
      hf read ((List.prefix_append _ _).trans h), hf _ h, List.append_assoc]
  rw [token?, token?, hspan]
  cases l.pattern <;> rfl

theorem tokensFrom_moves (hf : MovesBehind f file head text)
    (h : read ++ ls.flatMap Lexeme.text <+: text) :
    (tokensFrom (.after file (head ++ read)) ls).1 =
      (tokensFrom (.after file read) ls).1.map (Token.relocate f) := by
  induction ls generalizing read with
  | nil => rfl
  | cons l ls ih =>
    rw [List.flatMap_cons, ← List.append_assoc] at h
    have hl := l.token?_moves hf ((List.prefix_append _ _).trans h)
    rw [tokensFrom_cons, tokensFrom_cons, Place.advance_after, Place.advance_after,
      List.append_assoc, ih h, hl, List.map_append]
    cases l.token? (Place.after file read) <;> rfl

/-- The tokens of two texts with the end of a line between them. -/
theorem tokensFrom_line (h : Lexeme.Reads head ls [])
    (hf : MovesBehind f file (head ++ ['\n']) text) (htext : ls'.flatMap Lexeme.text <+: text) :
    tokensFrom (.start file) (ls ++ ⟨.newLine, ['\n']⟩ :: ls') =
      ((tokensFrom (.start file) ls).1 ++ ⟨.newLine, "\n", (Place.after file head).span 1⟩ ::
        (tokensFrom (.start file) ls').1.map (Token.relocate f),
      .after file (head ++ ['\n'] ++ ls'.flatMap Lexeme.text)) := by
  have hhead := h.text_eq
  rw [List.append_nil] at hhead
  have hmoves : (tokensFrom (.after file (head ++ ['\n'] ++ [])) ls').1 =
      (tokensFrom (.after file []) ls').1.map (Token.relocate f) := tokensFrom_moves hf htext
  rw [List.append_nil] at hmoves
  rw [tokensFrom_append, ← Place.after_nil, tokensFrom_stop, List.nil_append, ← hhead,
    tokensFrom_cons, Place.advance_after, hmoves, tokensFrom_stop]
  rfl

section
variable {s s' : String} {origin : Option String}

theorem toList_line (s s' : String) : (s ++ "\n" ++ s').toList = s.toList ++ '\n' :: s'.toList := by
  simp

theorem movesBehind_line (hsize : (s ++ "\n" ++ s').utf8ByteSize ≤ maxOffset)
    (hf : ∀ p : Position, p.offset.toNat ≤ s'.utf8ByteSize →
      (f p).file = p.file ∧ (f p).offset.toNat = p.offset.toNat + (s.utf8ByteSize + 1)) :
    MovesBehind f file (s.toList ++ ['\n']) s'.toList := by
  have hhead : byteCount (s.toList ++ ['\n']) = s.utf8ByteSize + 1 := by
    rw [byteCount_append, byteCount_toList]
    rfl
  rw [← byteCount_toList, toList_line, ← List.singleton_append, ← List.append_assoc] at hsize
  refine movesBehind_of_offset hsize ?_
  rwa [hhead, byteCount_toList]

/-- The tokens of two sources with the end of a line between them, or the error of the second. -/
theorem tokenize_line (hsize : (s ++ "\n" ++ s').utf8ByteSize ≤ maxOffset)
    (hf : MovesBehind f (origin.getD defaultFile) (s.toList ++ ['\n']) s'.toList)
    (h : tokenize s origin = .ok (before ++ [last])) :
    tokenize (s ++ "\n" ++ s') origin =
      match tokenize s' origin with
      | .ok tokens =>
        .ok (before ++ ⟨.newLine, "\n", (Place.after (origin.getD defaultFile) s.toList).span 1⟩ ::
          tokens.map (Token.relocate f))
      | .error e => .error (e.relocate f) := by
  obtain ⟨-, ls, hreads, htokens⟩ := reads_of_tokenize h
  obtain ⟨rfl, -⟩ := List.append_inj' htokens rfl
  have hsize' : s'.utf8ByteSize ≤ maxOffset := by
    rw [← byteCount_toList, toList_line, byteCount_append, byteCount_cons,
      byteCount_toList s'] at hsize
    omega
  have hreads' := Lexeme.reads_readAll s'.toList
  generalize (Lexeme.readAll s'.toList).1 = ls' at hreads'
  generalize (Lexeme.readAll s'.toList).2 = behind at hreads'
  have hline := hreads.line hreads'
  rw [← toList_line] at hline
  have hprefix : ls'.flatMap Lexeme.text <+: s'.toList := ⟨behind, hreads'.text_eq.symm⟩
  have hfrom := tokensFrom_line hreads hf hprefix
  cases behind with
  | nil =>
    have hend := hf _ List.prefix_rfl
    rw [List.append_assoc, List.singleton_append, ← toList_line] at hend
    rw [tokenize_of_reads hsize hline, tokenize_of_reads hsize' hreads', hfrom, ← hend]
    refine congrArg Except.ok ?_
    rw [List.append_assoc, List.cons_append, List.map_append]
    rfl
  | cons c rest =>
    have htext : (ls ++ ⟨.newLine, ['\n']⟩ :: ls').flatMap Lexeme.text =
        s.toList ++ ['\n'] ++ ls'.flatMap Lexeme.text := by
      rw [List.flatMap_append, List.flatMap_cons, hreads.text_eq, List.append_nil,
        List.append_assoc]
    rw [tokenize_of_reads_stop hsize hline, tokenize_of_reads_stop hsize' hreads', htext,
      ← hf _ hprefix]
    rfl

/-- What the lexer refuses in a first source it refuses whatever stands on the lines behind. -/
theorem tokenize_line_error (hsize : (s ++ "\n" ++ s').utf8ByteSize ≤ maxOffset) {e : Error}
    (h : tokenize s origin = .error e) : tokenize (s ++ "\n" ++ s') origin = .error e := by
  have hsize' : s.utf8ByteSize ≤ maxOffset := by
    rw [← byteCount_toList, toList_line, byteCount_append, byteCount_toList] at hsize
    omega
  have hreads := Lexeme.reads_readAll s.toList
  generalize (Lexeme.readAll s.toList).1 = ls at hreads
  generalize (Lexeme.readAll s.toList).2 = behind at hreads
  cases behind with
  | nil =>
    rw [tokenize_of_reads hsize' hreads] at h
    cases h
  | cons c rest =>
    have hline := hreads.line_stop (by simp) s'.toList
    rw [← toList_line] at hline
    rw [tokenize_of_reads_stop hsize' hreads] at h
    rw [← h]
    exact tokenize_of_reads_stop hsize hline origin

/-- The lexer reads line by line. Two sources with the end of a line between them have the tokens of
the first one without its end, a token for the end of the line, and the tokens of the second one
moved behind it. What is refused in either of them is refused, and in the first one first. -/
theorem tokenize_line_by_line (hsize : (s ++ "\n" ++ s').utf8ByteSize ≤ maxOffset)
    (hf : ∀ p : Position, p.offset.toNat ≤ s'.utf8ByteSize →
      (f p).file = p.file ∧ (f p).offset.toNat = p.offset.toNat + (s.utf8ByteSize + 1)) :
    let place : Nat → Position := fun offset => ⟨offset.toUInt32, origin.getD defaultFile⟩
    let line : Token := ⟨.newLine, "\n", ⟨place s.utf8ByteSize, place (s.utf8ByteSize + 1)⟩⟩
    ((∃ ts, tokenize (s ++ "\n" ++ s') origin = .ok ts) ↔
      (∃ ts, tokenize s origin = .ok ts) ∧ ∃ ts, tokenize s' origin = .ok ts) ∧
    (∀ ts ts', tokenize s origin = .ok ts → tokenize s' origin = .ok ts' →
      ∃ before last, ts = before ++ [last] ∧ last.kind = .endOfInput ∧
        (∀ t ∈ before, t.kind ≠ .endOfInput) ∧
        tokenize (s ++ "\n" ++ s') origin = .ok (before ++ line :: ts'.map (Token.relocate f))) ∧
    (∀ e, tokenize s origin = .error e → tokenize (s ++ "\n" ++ s') origin = .error e) ∧
    (∀ ts e, tokenize s origin = .ok ts → tokenize s' origin = .error e →
      tokenize (s ++ "\n" ++ s') origin = .error (e.relocate f)) := by
  intro place line
  have hspan : (Place.after (origin.getD defaultFile) s.toList).span 1 = line.span := by
    have hspan := Place.span_after (origin.getD defaultFile) s.toList ['\n']
    rw [byteCount_append, byteCount_toList] at hspan
    exact hspan
  have herror : ∀ e, tokenize s origin = .error e → tokenize (s ++ "\n" ++ s') origin = .error e :=
    fun e => tokenize_line_error hsize
  have hjoined : ∀ ts, tokenize s origin = .ok ts → ∃ before last, ts = before ++ [last] ∧
      last.kind = .endOfInput ∧ (∀ t ∈ before, t.kind ≠ .endOfInput) ∧
      tokenize (s ++ "\n" ++ s') origin =
        match tokenize s' origin with
        | .ok ts' => .ok (before ++ line :: ts'.map (Token.relocate f))
        | .error e => .error (e.relocate f) := by
    intro ts h
    obtain ⟨before, last, rfl, hlast, hbefore⟩ := scan_tokens (scan_of_tokenize h)
    refine ⟨before, last, rfl, hlast, fun t ht => (hbefore t ht).2, ?_⟩
    rw [tokenize_line hsize (movesBehind_line hsize hf) h, hspan]
  refine ⟨⟨?_, ?_⟩, ?_, herror, ?_⟩
  · rintro ⟨_, hok⟩
    cases h : tokenize s origin with
    | error e =>
      rw [herror e h] at hok
      cases hok
    | ok ts =>
      obtain ⟨before, last, -, -, -, hjoin⟩ := hjoined ts h
      cases h' : tokenize s' origin with
      | error e =>
        rw [hjoin, h'] at hok
        cases hok
      | ok ts' => exact ⟨⟨_, rfl⟩, _, rfl⟩
  · rintro ⟨⟨ts, h⟩, ts', h'⟩
    obtain ⟨before, last, -, -, -, hjoin⟩ := hjoined ts h
    rw [h'] at hjoin
    exact ⟨_, hjoin⟩
  · intro ts ts' h h'
    obtain ⟨before, last, hts, hlast, hbefore, hjoin⟩ := hjoined ts h
    rw [h'] at hjoin
    exact ⟨before, last, hts, hlast, hbefore, hjoin⟩
  · intro ts e h h'
    obtain ⟨before, last, -, -, -, hjoin⟩ := hjoined ts h
    rw [hjoin, h']

/-- A string that is open at the end of its line, half an operator on the second line, and a slash
in front of a comment. -/
theorem tokenize_line_by_line_open :
    let place : UInt32 → Position := fun offset => ⟨offset, "shell"⟩
    (∀ p : Position, p.offset.toNat ≤ 4 →
      (p.ahead 3).file = p.file ∧ (p.ahead 3).offset.toNat = p.offset.toNat + 3) ∧
    tokenize "\"a\\\nb\"" none = .error ⟨.unrecognised "\"", place 0⟩ ∧
    tokenize "x/\n&& &" none = .error ⟨.unrecognised "&", place 6⟩ ∧
    tokenize "x/\n// y" none = .ok [⟨.name, "x", ⟨place 0, place 1⟩⟩,
      ⟨.symbol, "/", ⟨place 1, place 2⟩⟩, ⟨.newLine, "\n", ⟨place 2, place 3⟩⟩,
      .endAt (place 7)] := by
  intro place
  have hahead {bytes size : Nat} (hsize : size + bytes ≤ maxOffset) (p : Position)
      (hp : p.offset.toNat ≤ size) :
      (p.ahead bytes).file = p.file ∧ (p.ahead bytes).offset.toNat = p.offset.toNat + bytes :=
    ⟨rfl, Position.offset_ahead (by omega)⟩
  let first : List Token :=
    [⟨.name, "x", ⟨place 0, place 1⟩⟩, ⟨.symbol, "/", ⟨place 1, place 2⟩⟩]
  have hfirst : tokenize "x/" none = .ok (first ++ [.endAt (place 2)]) := by decide +kernel
  refine ⟨hahead (by decide), ?_, ?_, ?_⟩
  · have hsize : ("\"a\\" ++ "\n" ++ "b\"").utf8ByteSize ≤ maxOffset := by decide
    exact (tokenize_line_by_line hsize (hahead (by decide))).2.2.1 _ (by decide +kernel)
  · have hsize : ("x/" ++ "\n" ++ "&& &").utf8ByteSize ≤ maxOffset := by decide
    exact (tokenize_line_by_line hsize (hahead (by decide))).2.2.2 _
      ⟨.unrecognised "&", place 3⟩ hfirst (by decide +kernel)
  · have hsize : ("x/" ++ "\n" ++ "// y").utf8ByteSize ≤ maxOffset := by decide
    have hcomment : tokenize "// y" none = .ok [.endAt (place 4)] := by decide +kernel
    obtain ⟨before, last, hts, -, -, hjoin⟩ :=
      (tokenize_line_by_line hsize (hahead (by decide))).2.1 _ _ hfirst hcomment
    obtain ⟨rfl, -⟩ := List.append_inj' hts rfl
    exact hjoin

end

/-! The parser. -/

/-- A cursor in front of the same tokens at moved positions passes what another one passes. -/
theorem Cursor.Passes.moved (h : c.Passes ts c₂)
    (hup : d.upcoming = c.upcoming.map (Token.relocate f))
    (hfinish : d.finish.token = c.finish.token.relocate f) :
    ∃ d₂, d.Passes (ts.map (Token.relocate f)) d₂ ∧ d₂.current = c₂.current.relocate f := by
  obtain ⟨hc, -, hc'⟩ := h.lists
  rw [hc, List.map_append] at hup
  have hkinds : ∀ t ∈ ts.map (Token.relocate f), t.kind ≠ .endOfInput := by
    intro t ht
    obtain ⟨u, hu, rfl⟩ := List.mem_map.1 ht
    exact h.kind_ne u hu
  obtain ⟨d₂, hd, hd₂⟩ := passes_of_upcoming hup hkinds
  refine ⟨d₂, hd, ?_⟩
  rw [current, current, hd₂, hd.lists.2.2, hfinish, ← hc']
  cases c₂.upcoming <;> rfl

/-- At the end of its input a cursor has passed all tokens that it had before it. -/
theorem Cursor.Passes.all_of_end (h : c.Passes ts c₂) (hend : c₂.current.kind = .endOfInput)
    (hup : c.upcoming = before) (hbefore : ∀ t ∈ before, t.kind ≠ .endOfInput) : ts = before := by
  rw [h.lists.1] at hup
  cases hrest : c₂.upcoming with
  | nil => rw [← hup, hrest, List.append_nil]
  | cons t rest =>
    have ht : c₂.current = t := by
      rw [current, hrest]
      rfl
    refine absurd (ht ▸ hend) (hbefore t ?_)
    rw [← hup, hrest]
    exact List.mem_append_right _ List.mem_cons_self

theorem parse_eq (tokens : List Token) (name : String) :
    parse tokens name =
      match collect Grammar.script.programRound (Cursor.start tokens name) with
      | .done ss stop => .done ⟨ss, ⟨0, name⟩, stop.lastEnd⟩ stop
      | .failed e stop => .failed e stop
      | .endless => .endless := by
  rw [parse, Grammar.program, bind_apply]
  cases collect Grammar.script.programRound (Cursor.start tokens name) <;> rfl

theorem collect_programRound_stops (tokens : List Token) (name : String) :
    ∃ stop,
      (collect Grammar.script.programRound (Cursor.start tokens name)).cursor? = some stop := by
  have hends := parse_ends tokens name
  rw [parse_eq] at hends
  cases h : collect Grammar.script.programRound (Cursor.start tokens name) with
  | done | failed => exact ⟨_, rfl⟩
  | endless =>
    rw [h] at hends
    exact absurd rfl hends

/-- The statements of two programs with the end of a line between them, or the error of the second.
-/
theorem collect_programRound_between {ss : List Statement}
    (hbefore : ∀ t ∈ before, t.kind ≠ .endOfInput) (hlast : last.kind = .endOfInput)
    (hline : line.kind = .newLine) (hlast' : last'.kind = .endOfInput)
    (h : collect Grammar.script.programRound (Cursor.start (before ++ [last]) name) =
      .done ss stop) :
    ∃ stop', collect Grammar.script.programRound (Cursor.start
        (before ++ line :: (before' ++ [last']).map (Token.relocate f)) name) =
      ((collect Grammar.script.programRound (Cursor.start (before' ++ [last']) name)).transport f
        (List.map (Statement.relocate f)) stop').prepend ss := by
  have hjoined : before ++ line :: (before' ++ [last']).map (Token.relocate f) =
      (before ++ line :: before'.map (Token.relocate f)) ++ [last'.relocate f] := by simp
  obtain ⟨hc, hup, -⟩ := Cursor.start_closed hlast before name
  obtain ⟨-, hup', hfinish'⟩ := Cursor.start_closed hlast' before' name
  have hmoved : (last'.relocate f).kind = .endOfInput := hlast'
  obtain ⟨hd, hdup, hdfinish⟩ := Cursor.start_closed hmoved
    (before ++ line :: before'.map (Token.relocate f)) name
  rw [hjoined]
  obtain ⟨c₂, hc₂⟩ := collect_programRound_stops (before' ++ [last']) name
  -- The first program stops at its end, so all of its tokens are on its way.
  obtain ⟨hend, ts, hts, hjoin⟩ := Grammar.collect_programRound_join h
  obtain rfl : ts = before := hts.all_of_end hend hup hbefore
  generalize Cursor.start (ts ++ line :: before'.map (Token.relocate f) ++ [last'.relocate f])
    name = d at *
  obtain ⟨d₁, hd₁, hrest⟩ := Cursor.passes_of_upcoming hdup hbefore
  have hcur : d₁.current = line := by
    rw [Cursor.current, hrest]
    rfl
  have hkind : d₁.current.kind = .newLine := hcur ▸ hline
  obtain ⟨hnext, -, hnextFinish⟩ := Cursor.upcoming_of_current (c := d₁) (by simp [hkind])
  rw [hrest, hcur, List.cons_inj_right] at hnext
  -- Behind the end of the line stands the second program.
  obtain ⟨us, hus, hfresh⟩ := Grammar.collect_programRound_fresh (f := f) hc₂
  obtain ⟨d₂, hd₂, hcur₂⟩ := hus.moved (f := f) (d := d₁.next) (by rw [← hnext, hup'])
    (by rw [hnextFinish, hd₁.lists.2.2, hdfinish, hfinish'])
  refine ⟨d₂, ?_⟩
  rw [hjoin d d₁ hd₁ (by rw [hd, hc]) hkind, Grammar.collect_programRound_line hkind,
    hfresh d₁.next d₂ hd₂ hcur₂]

theorem parse_done_iff {b : Block} : parse tokens name = .done b stop ↔
    collect Grammar.script.programRound (Cursor.start tokens name) = .done b.statements stop ∧
      b.span = ⟨⟨0, name⟩, stop.lastEnd⟩ := by
  rw [parse_eq]
  cases collect Grammar.script.programRound (Cursor.start tokens name) with
  | done ss c =>
    constructor
    · intro h
      obtain ⟨rfl, rfl⟩ := Outcome.done.inj h
      exact ⟨rfl, rfl⟩
    · rintro ⟨h, hspan⟩
      obtain ⟨rfl, rfl⟩ := Outcome.done.inj h
      obtain ⟨statements, span⟩ := b
      obtain rfl : span = _ := hspan
      rfl
  | failed | endless => simp

theorem parse_failed_iff {e : Error} : parse tokens name = .failed e stop ↔
    collect Grammar.script.programRound (Cursor.start tokens name) = .failed e stop := by
  rw [parse_eq]
  cases collect Grammar.script.programRound (Cursor.start tokens name) <;> simp

/-! Sources. -/

/-- The tokens of a source are a program. -/
def Accepted (source : String) (origin : Option String) (name : String) (b : Block) : Prop :=
  ∃ tokens stop, tokenize source origin = .ok tokens ∧ parse tokens name = .done b stop

/-- Whether a source is a program that passes a test. -/
def isProgram (source : String) (origin : Option String) (name : String) (test : Block → Bool) :
    Bool :=
  match tokenize source origin with
  | .ok tokens =>
    match parse tokens name with
    | .done b _ => test b
    | _ => false
  | .error _ => false

theorem exists_of_isProgram {source : String} {origin : Option String} {name : String}
    {test : Block → Bool} (h : isProgram source origin name test = true) :
    ∃ b, Accepted source origin name b ∧ test b = true := by
  rw [isProgram] at h
  split at h
  · next tokens htokens =>
    split at h
    · next b stop hparse => exact ⟨b, ⟨tokens, stop, htokens, hparse⟩, h⟩
    · cases h
  · cases h

/-- The lexer or the parser has something against a source. -/
def Refused (source : String) (origin : Option String) (name : String) (e : Error) : Prop :=
  tokenize source origin = .error e ∨
    ∃ tokens stop, tokenize source origin = .ok tokens ∧ parse tokens name = .failed e stop

/-- A program and another source with the end of a line between them. If the source is a program as
well, its statements follow those of the first one; if it is refused, then the whole is refused for
the same reason. Positions from the second source are moved by what stands before it. -/
theorem programs_on_lines {s s' : String} {origin : Option String} {name : String} {b : Block}
    {f : Position → Position} (hsize : (s ++ "\n" ++ s').utf8ByteSize ≤ maxOffset)
    (hf : ∀ p : Position, p.offset.toNat ≤ s'.utf8ByteSize →
      (f p).file = p.file ∧ (f p).offset.toNat = p.offset.toNat + (s.utf8ByteSize + 1))
    (h : Accepted s origin name b) :
    (∀ b', Accepted s' origin name b' → ∃ b'', Accepted (s ++ "\n" ++ s') origin name b'' ∧
      b''.statements = b.statements ++ b'.statements.map (Statement.relocate f)) ∧
    (∀ e, Refused s' origin name e → Refused (s ++ "\n" ++ s') origin name (e.relocate f)) := by
  obtain ⟨tokens, stop, htokens, hparse⟩ := h
  obtain ⟨before, last, rfl, hlast, hbefore⟩ := scan_tokens (scan_of_tokenize htokens)
  have hend := fun t ht => (hbefore t ht).2
  have hstatements := (parse_done_iff.1 hparse).1
  let line : Token := ⟨.newLine, "\n", (Place.after (origin.getD defaultFile) s.toList).span 1⟩
  have hline : line.kind = .newLine := rfl
  have hlex := tokenize_line hsize (movesBehind_line hsize hf) htokens
  refine ⟨?_, ?_⟩
  · rintro b' ⟨tokens', stop', htokens', hparse'⟩
    obtain ⟨before', last', rfl, hlast', -⟩ := scan_tokens (scan_of_tokenize htokens')
    obtain ⟨d, hd⟩ := collect_programRound_between (f := f) hend hlast hline hlast' hstatements
    rw [(parse_done_iff.1 hparse').1] at hd
    rw [htokens'] at hlex
    exact ⟨⟨_, _⟩, ⟨_, _, hlex, parse_done_iff.2 ⟨hd, rfl⟩⟩, rfl⟩
  · rintro e (hlexer | ⟨tokens', stop', htokens', hparse'⟩)
    · rw [hlexer] at hlex
      exact .inl hlex
    · obtain ⟨before', last', rfl, hlast', -⟩ := scan_tokens (scan_of_tokenize htokens')
      obtain ⟨d, hd⟩ := collect_programRound_between (f := f) hend hlast hline hlast' hstatements
      rw [parse_failed_iff.1 hparse'] at hd
      rw [htokens'] at hlex
      exact .inr ⟨_, _, hlex, parse_failed_iff.2 hd⟩

/-- A second line that is a program, and one that is refused at its end. -/
theorem programs_on_lines_names :
    let behind : Position → Position := fun p => ⟨p.offset + 2, p.file⟩
    (∃ b b', Accepted "x" none "shell" b ∧ Accepted "x\nx" none "shell" b' ∧
      b'.statements = b.statements ++ b.statements.map (Statement.relocate behind)) ∧
    Refused "x\n(y" none "shell"
      ⟨.refused (.expectedSymbol ")") (some "end of input"), ⟨4, "shell"⟩⟩ := by
  intro behind
  let place : UInt32 → Position := fun offset => ⟨offset, "shell"⟩
  let x : Token := ⟨.name, "x", place 0, place 1⟩
  let group : List Token := [⟨.symbol, "(", place 0, place 1⟩, ⟨.name, "y", place 1, place 2⟩]
  have haccepted : ∃ b, Accepted "x" none "shell" b := by
    let stop : Cursor := { consumed := [x], upcoming := [], finish := ⟨"EOF", place 1, place 1⟩ }
    have herror : (parse [x, .endAt (place 1)] "shell").error? = none := by decide +kernel
    have hstop : (parse [x, .endAt (place 1)] "shell").cursor? = some stop := by decide +kernel
    obtain ⟨b, hb⟩ := Outcome.exists_done herror hstop
    exact ⟨b, _, stop, by decide +kernel, hb⟩
  have hrefused : Refused "(y" none "shell"
      ⟨.refused (.expectedSymbol ")") (some "end of input"), place 2⟩ := by
    let stop : Cursor :=
      { consumed := group.reverse, upcoming := [], finish := ⟨"EOF", place 2, place 2⟩ }
    have herror : (parse (group ++ [.endAt (place 2)]) "shell").error? =
        some ⟨.refused (.expectedSymbol ")") (some "end of input"), place 2⟩ := by decide +kernel
    have hstop : (parse (group ++ [.endAt (place 2)]) "shell").cursor? = some stop := by
      decide +kernel
    exact .inr ⟨_, stop, by decide +kernel, Outcome.eq_failed herror hstop⟩
  have hmoves : ∀ p : Position, p.offset.toNat ≤ 2 →
      (behind p).file = p.file ∧ (behind p).offset.toNat = p.offset.toNat + 2 := by
    intro p hp
    refine ⟨rfl, ?_⟩
    rw [UInt32.toNat_add]
    exact Nat.mod_eq_of_lt (by simp; omega)
  have hsize : ("x" ++ "\n" ++ "x").utf8ByteSize ≤ maxOffset := by decide
  have hsize' : ("x" ++ "\n" ++ "(y").utf8ByteSize ≤ maxOffset := by decide
  obtain ⟨b, hb⟩ := haccepted
  have hshort : ∀ p : Position, p.offset.toNat ≤ "x".utf8ByteSize →
      (behind p).file = p.file ∧ (behind p).offset.toNat = p.offset.toNat + 2 :=
    fun p hp => hmoves p (hp.trans (by decide))
  obtain ⟨b', hb', hstatements⟩ := (programs_on_lines hsize hshort hb).1 b hb
  exact ⟨⟨b, b', hb, hb', hstatements⟩, (programs_on_lines hsize' hmoves hb).2 _ hrefused⟩

end ScriptSyntax
