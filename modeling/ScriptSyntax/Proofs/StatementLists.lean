import ScriptSyntax.Proofs.Precedence
import ScriptSyntax.Proofs.Spans

/-! Lists of statements: a program, a block and the body of a loop read them each in a loop of its
own, with ends of its own. Where each statement has its line, the three read the same. -/
namespace ScriptSyntax
open Parse
variable {c c₁ c₂ d d₁ d₂ : Cursor} {ts us : List Token} {s : Statement} {ss : List Statement}

theorem Outcome.prepend_eq_done {α : Type} {items all : List α} {o : Outcome (List α)}
    (h : o.prepend items = .done all c) : ∃ more, o = .done more c ∧ items ++ more = all := by
  cases o with
  | done more d =>
    obtain ⟨rfl, rfl⟩ := Outcome.done.inj h
    exact ⟨more, rfl, rfl⟩
  | failed | endless => cases h

namespace Cursor

/-- Places at which a cursor has passed equally many tokens are the same. -/
theorem Passes.eq_of_index (h : c.Passes ts d) (h' : c.Passes us d₁) (hi : d.index = d₁.index) :
    d = d₁ := by
  rw [h.index, h'.index, Nat.add_left_cancel_iff] at hi
  obtain ⟨hup, hconsumed, hfinish⟩ := h.lists
  obtain ⟨hup', hconsumed', hfinish'⟩ := h'.lists
  obtain ⟨rfl, hrest⟩ := List.append_inj (hup.symm.trans hup') hi
  exact ext_of_lists (hconsumed.trans hconsumed'.symm) hrest (hfinish.trans hfinish'.symm)

/-- A cursor on the first of some tokens, and where it is led past them. -/
theorem start_passes {last : Token} (hts : ∀ t ∈ ts, t.kind ≠ .endOfInput)
    (hlast : last.kind = .endOfInput) (us : List Token) (name : String) :
    ∃ d, (start (ts ++ us ++ [last]) name).Passes ts d ∧ d.index = ts.length ∧
      d.current = us.headD last := by
  obtain ⟨hconsumed, hup, hfinish⟩ := start_closed hlast (ts ++ us) name
  obtain ⟨d, hd, hrest⟩ := passes_of_upcoming hup hts
  refine ⟨d, hd, ?_, ?_⟩
  · rw [hd.index, start_index, Nat.zero_add]
  · rw [current, hrest, hd.lists.2.2, hfinish]

end Cursor

/-! The loop of a block. -/
namespace Readers
variable {r : Readers}

/-- Readers that consume something for a statement. -/
def Moves (r : Readers) : Prop :=
  ∀ {c : Cursor} {s : Statement} {d : Cursor}, r.statement c = .done s d → d.remaining < c.remaining

theorem collect_blockRound_end (hend : c.current.kind = .endOfInput) :
    collect r.blockRound c = complain .unterminatedBlock c :=
  collect_of_failed (by rw [blockRound, current_bind, if_pos hend]; rfl)

theorem collect_blockRound_brace (hbrace : c.current.isSymbol "\x7d" = true) :
    collect r.blockRound c = .done [] c.next := collect_of_done (blockRound_brace r hbrace)

/-- An empty line before the statements of a block makes no difference. -/
theorem collect_blockRound_line (hline : c.current.kind = .newLine) :
    collect r.blockRound c = collect r.blockRound c.next := by
  have hend : c.current.kind ≠ .endOfInput := by simp [hline]
  have hbrace : ¬ c.current.isSymbol "\x7d" = true := by simp [Token.isSymbol, hline]
  have hround : r.blockRound c = .done (.yield []) c.next := by
    rw [blockRound, current_bind, if_neg hend, if_neg hbrace, if_pos hline]
    rfl
  have hnext := Cursor.remaining_next hend
  rw [collect_of_yield hround (by omega), Outcome.prepend_nil]

theorem collect_blockRound_skip (r : Readers) (c : Cursor) :
    collect r.blockRound c = collect r.blockRound (c.skip .newLine) := by
  by_cases hline : c.current.kind = .newLine
  · have hnext := Cursor.remaining_next (c := c) (by simp [hline])
    rw [collect_blockRound_line hline, (Cursor.skip_next hline (by simp)).1,
      collect_blockRound_skip r c.next]
  · rw [Cursor.skip_of_ne hline]
termination_by c.remaining

/-- What follows a statement of a block: the end of its line and more statements, or the end. -/
def blockRest (r : Readers) (s : Statement) : Parse (List Statement) := do
  if ← acceptKind .newLine then return s :: (← collect r.blockRound)
  else if ← atSymbol "\x7d" then
    let _ ← advance
    return [s]
  else complain .expectedSeparatorInBlock

theorem blockRest_line (hline : c.current.kind = .newLine) :
    r.blockRest s c = (collect r.blockRound c.next).prepend [s] := by
  rw [blockRest, acceptKind, accept_bind, if_pos (by simp [hline]), if_pos rfl, bind_apply]
  cases collect r.blockRound c.next <;> rfl

theorem blockRest_brace (hbrace : c.current.isSymbol "\x7d" = true) :
    r.blockRest s c = .done [s] c.next := by
  have hline : ¬ (decide (c.current.kind = .newLine)) = true := by simp [kind_of_isSymbol hbrace]
  rw [blockRest, acceptKind, accept_bind, if_neg hline, if_neg (by simp), atSymbol_bind,
    if_pos hbrace]
  rfl

theorem blockRest_other (hline : c.current.kind ≠ .newLine)
    (hbrace : ¬ c.current.isSymbol "\x7d" = true) :
    r.blockRest s c = complain .expectedSeparatorInBlock c := by
  rw [blockRest, acceptKind, accept_bind, if_neg (by simp [hline]), if_neg (by simp), atSymbol_bind,
    if_neg hbrace]

/-- The first statement of a block without the checks of the loop. -/
theorem collect_blockRound_statement (hr : r.Moves) (hend : c.current.kind ≠ .endOfInput)
    (hbrace : ¬ c.current.isSymbol "\x7d" = true) (hline : c.current.kind ≠ .newLine) :
    collect r.blockRound c = (r.statement >>= r.blockRest) c := by
  have hround : r.blockRound c = (r.statement >>= fun s => acceptKind .newLine >>= fun b =>
      if b = true then pure (.yield [s])
      else atSymbol "\x7d" >>= fun b =>
        if b = true then pure (.yield [s]) else complain .expectedSeparatorInBlock) c := by
    rw [blockRound, current_bind, if_neg hend, if_neg hbrace, if_neg hline]
  cases hs : r.statement c with
  | done s d =>
    have hlt := hr hs
    rw [bind_done _ hs, acceptKind, accept_bind] at hround
    rw [bind_done _ hs]
    by_cases hline : d.current.kind = .newLine
    · rw [if_pos (by simp [hline]), if_pos rfl] at hround
      rw [blockRest_line hline]
      exact collect_of_yield hround (Nat.lt_of_le_of_lt d.remaining_next_le hlt)
    rw [if_neg (by simp [hline]), if_neg (by simp), atSymbol_bind] at hround
    by_cases hbrace : d.current.isSymbol "\x7d" = true
    · rw [if_pos hbrace] at hround
      rw [blockRest_brace hbrace, collect_of_yield hround hlt, collect_blockRound_brace hbrace]
      rfl
    · rw [if_neg hbrace] at hround
      rw [blockRest_other hline hbrace]
      exact collect_of_failed hround
  | failed e d =>
    rw [bind_failed _ hs] at hround ⊢
    exact collect_of_failed hround
  | endless =>
    rw [bind_endless _ hs] at hround ⊢
    rw [collect, hround]

/-! The loop in the body of a loop. -/

theorem collect_loopRound_brace (hbrace : (c.skip .newLine).current.isSymbol "\x7d" = true) :
    collect r.loopRound c = .done [] (c.skip .newLine) :=
  collect_of_done (by rw [loopRound, skip_bind, atSymbol_bind, if_pos hbrace]; rfl)

theorem collect_loopRound_statement
    (hbrace : ¬ (c.skip .newLine).current.isSymbol "\x7d" = true)
    (hend : (c.skip .newLine).current.kind ≠ .endOfInput)
    (hs : r.statement (c.skip .newLine) = .done s c₁) (hlt : c₁.remaining < c.remaining) :
    collect r.loopRound c = (collect r.loopRound c₁).prepend [s] := by
  refine collect_of_yield ?_ hlt
  rw [loopRound, skip_bind, atSymbol_bind, if_neg hbrace, atToken_bind, if_pos (by simp [hend]),
    bind_done _ hs]
  rfl

end Readers

namespace Grammar

theorem script_moves : script.readers.Moves := fun hs => remaining_statement hs

/-! Statements in other places. -/

/-- A token with an entry among the starts of expressions or the rules of statements. -/
def Begins (t : Token) : Prop :=
  (script.starts.get? t.key).isSome ∨ (script.rules.find? (·.test t)).isSome

theorem begins_of_statement (h : script.statement c = .done s d) : Begins c.current := by
  by_contra hbegins
  obtain ⟨hstart, hrule⟩ := not_or.1 hbegins
  rw [Option.not_isSome_iff_eq_none] at hstart hrule
  rw [script_statement, statementOver, current_bind, hrule] at h
  obtain ⟨e, d', he, -⟩ := bind_eq_done.1 h
  rw [show script.readers.expr .default = script.expr .default from rfl, script_expr, exprOver,
    current_bind, hstart] at he
  cases he

theorem not_begins_brace {t : Token} (h : t.isSymbol "\x7d" = true) : ¬ Begins t := by
  obtain ⟨hkind, htext⟩ : t.kind = .symbol ∧ t.text = "\x7d" := by
    simpa [Token.isSymbol] using h
  have hkey : t.key = "\x7d" := by rw [Token.key, hkind, htext]
  have hstart : script.starts.get? "\x7d" = none := by decide
  have hrule : script.rules.find? (·.test t) = none := by
    rw [show script.rules = scriptRules from rfl]
    simp [scriptRules, TokenTest.symbol, TokenTest.keyword, Token.isSymbol, Token.isKeyword, hkind,
      htext]
  simp [Begins, hkey, hstart, hrule]

theorem not_begins_as {t : Token} (ht : t.Genuine) (h : t.isKeyword .kwAs = true) :
    ¬ Begins t := by
  have hkind : t.kind = .keyword .kwAs := by simpa [Token.isKeyword] using h
  have hkey : t.key = Keyword.kwAs.text := by rw [Token.key, hkind, ht.keyword _ hkind]
  have hstart : script.starts.get? Keyword.kwAs.text = none := by decide
  have hrule : script.rules.find? (·.test t) = none := by
    rw [show script.rules = scriptRules from rfl]
    simp [scriptRules, TokenTest.symbol, TokenTest.keyword, Token.isSymbol, Token.isKeyword, hkind]
  simp [Begins, hkey, hstart, hrule]

/-- A statement is read again wherever its tokens are followed by one that closes, whatever was
consumed before them. -/
theorem statement_elsewhere (h : script.statement c = .done s c₁) :
    ∃ ts, ts ≠ [] ∧ c.Passes ts c₁ ∧ ∀ d d₁, d.Passes ts d₁ → d₁.current.Closes →
      script.statement d = .done s d₁ := by
  obtain ⟨ts, hne, hts, -⟩ := statement_settles h
  refine ⟨ts, hne, hts, fun d d₁ hd hclose => ?_⟩
  have hc : c.current.kind ≠ .endOfInput := by
    obtain ⟨t, ts', rfl⟩ := List.exists_cons_of_ne_nil hne
    obtain ⟨rfl, hk, -⟩ := hts
    exact hk
  have hid : ∀ us : List Token, us.map (Token.relocate id) = us := List.map_id
  -- First only what was consumed is another, then also what follows.
  let behind : Cursor := { consumed := d.consumed, upcoming := c.upcoming, finish := c.finish }
  obtain ⟨us, hus, -, hfresh⟩ := (opens_statement (f := id)).fresh c hc c₁ (by rw [h]; rfl)
  obtain rfl : us = ts := hus.unique hts
  obtain ⟨behind', hbehind, hcur⟩ := hus.moved (f := id) (d := behind) (hid _).symm rfl
  have hread := hfresh behind behind' hbehind hcur
  rw [h, Outcome.transport, Statement.relocate_id] at hread
  rw [hid] at hbehind
  obtain ⟨vs, -, hvs, hsettle⟩ := statement_settles hread
  obtain rfl : vs = us := hvs.unique hbehind
  exact hsettle d d₁ hd rfl hclose

/-! Statements line by line. -/

/-- Statements that each end their line or are the last ones, with empty lines between them, up to a
token of a given sort. -/
inductive Lines (stops : Token → Prop) : Cursor → List Statement → Cursor → Prop
  | none {c : Cursor} : stops (c.skip .newLine).current → Lines stops c [] (c.skip .newLine)
  | last {c c₁ : Cursor} {s : Statement} :
    script.statement (c.skip .newLine) = .done s c₁ → stops c₁.current → Lines stops c [s] c₁
  | cons {c c₁ c₂ : Cursor} {s : Statement} {ss : List Statement} :
    script.statement (c.skip .newLine) = .done s c₁ → c₁.current.kind = .newLine →
      Lines stops c₁ ss c₂ → Lines stops c (s :: ss) c₂

namespace Lines
variable {stops stops' : Token → Prop}

theorem stop (h : Lines stops c ss c₂) : stops c₂.current := by
  induction h with
  | none hstop => exact hstop
  | last _ hstop => exact hstop
  | cons _ _ _ ih => exact ih

theorem passes (h : Lines stops c ss c₂) : ∃ ts, c.Passes ts c₂ := by
  induction h with
  | none _ => exact ⟨_, Cursor.passes_skip _ .newLine⟩
  | last hs _ =>
    obtain ⟨us, -, hus, -⟩ := statement_settles hs
    exact ⟨_, (Cursor.passes_skip _ .newLine).append hus⟩
  | cons hs _ _ ih =>
    obtain ⟨us, -, hus, -⟩ := statement_settles hs
    obtain ⟨vs, hvs⟩ := ih
    exact ⟨_, (Cursor.passes_skip _ .newLine).append (hus.append hvs)⟩

/-- Lines that were skipped make no difference. -/
theorem skipped (h : Lines stops d ss c₂) (hskip : d.skip .newLine = c.skip .newLine) :
    Lines stops c ss c₂ := by
  cases h with
  | none hstop =>
    rw [hskip] at hstop ⊢
    exact .none hstop
  | last hs hstop => exact .last (hskip ▸ hs) hstop
  | cons hs hline hrest => exact .cons (hskip ▸ hs) hline hrest

/-- Lines are read again where they end with another token that closes. -/
theorem elsewhere (h : Lines stops c ss c₂) (hstops : ∀ t, stops t → t.kind ≠ .newLine)
    (hstops' : ∀ t, stops' t → t.Closes ∧ t.kind ≠ .newLine) :
    ∃ ts, c.Passes ts c₂ ∧ ∀ d d₂, d.Passes ts d₂ → stops' d₂.current → Lines stops' d ss d₂ := by
  induction h with
  | @none c hstop =>
    refine ⟨_, c.passes_skip .newLine, fun d d₂ hd hstop' => ?_⟩
    obtain ⟨-, rfl⟩ := skip_of_passes (by simp) hd (fun t ht => Cursor.kind_of_mem_run ht)
      (hstops' _ hstop').2
    exact .none hstop'
  | @last c c₁ s hs hstop =>
    obtain ⟨us, hne, hus, hread⟩ := statement_elsewhere hs
    refine ⟨_, (c.passes_skip .newLine).append hus, fun d d₂ hd hstop' => ?_⟩
    obtain ⟨d₁, hd₁, hd₂⟩ := Cursor.passes_append.1 hd
    obtain rfl := behind_lines hne hus hd₁ hd₂
    exact .last (hread _ _ hd₂ (hstops' _ hstop').1) hstop'
  | @cons c c₁ c₂ s ss hs hline hrest ih =>
    obtain ⟨us, hne, hus, hread⟩ := statement_elsewhere hs
    obtain ⟨vs, hvs, hmore⟩ := ih
    refine ⟨_, (c.passes_skip .newLine).append (hus.append hvs), fun d d₃ hd hstop' => ?_⟩
    obtain ⟨d₁, hd₁, hd⟩ := Cursor.passes_append.1 hd
    obtain ⟨d₂, hd₂, hd₃⟩ := Cursor.passes_append.1 hd
    obtain rfl := behind_lines hne hus hd₁ hd₂
    have hline' : d₂.current.kind = .newLine := by
      cases vs with
      | nil =>
        obtain rfl : c₁ = c₂ := hvs
        exact absurd hline (hstops _ hrest.stop)
      | cons v vs => rw [hd₃.1, ← hvs.1, hline]
    exact .cons (hread _ _ hd₂ (.inl hline')) hline' (hmore _ _ hd₃ hstop')
where
  /-- A statement does not begin with the end of a line, so the lines before it are all skipped. -/
  behind_lines {c c₁ d d₁ d₂ : Cursor} {us : List Token} (hne : us ≠ [])
      (hus : (c.skip .newLine).Passes us c₁) (hd₁ : d.Passes (c.run .newLine) d₁)
      (hd₂ : d₁.Passes us d₂) : d.skip .newLine = d₁ := by
    refine (skip_of_passes (by simp) hd₁ (fun t ht => Cursor.kind_of_mem_run ht) ?_).2
    obtain ⟨u, us, rfl⟩ := List.exists_cons_of_ne_nil hne
    rw [hd₂.1, ← hus.1]
    exact c.current_skip_ne (by simp)

end Lines

/-- A statement ahead is no end of the input. -/
theorem kind_ne_of_statement (h : script.statement c = .done s d) :
    c.current.kind ≠ .endOfInput := by
  obtain ⟨ts, hne, hts, -⟩ := statement_settles h
  obtain ⟨t, ts, rfl⟩ := List.exists_cons_of_ne_nil hne
  rw [hts.1]
  exact hts.kind_ne t List.mem_cons_self

/-- A program is read line by line up to the end of the input. -/
theorem collect_programRound_iff : collect script.programRound c = .done ss c₂ ↔
    Lines (·.kind = .endOfInput) c ss c₂ := by
  constructor
  · intro h
    induction hm : c.remaining using Nat.strong_induction_on generalizing c ss with
    | _ m ih =>
      rw [collect_programRound] at h
      by_cases hend : (c.skip .newLine).current.kind = .endOfInput
      · rw [if_pos hend] at h
        obtain ⟨rfl, rfl⟩ := Outcome.done.inj h
        exact .none hend
      rw [if_neg hend] at h
      obtain ⟨s, c₁, hs, hrest⟩ := bind_eq_done.1 h
      by_cases hlast : c₁.current.kind = .endOfInput
      · rw [programRest_end hlast] at hrest
        obtain ⟨rfl, rfl⟩ := Outcome.done.inj hrest
        exact .last hs hlast
      by_cases hline : c₁.current.kind = .newLine
      · rw [programRest_line hline, ← collect_programRound_line hline] at hrest
        obtain ⟨more, hmore, rfl⟩ := Outcome.prepend_eq_done hrest
        have hlt : c₁.remaining < m := by
          have h₁ := remaining_statement hs
          have h₂ := c.remaining_skip .newLine
          omega
        exact .cons hs hline (ih _ hlt hmore rfl)
      · rw [programRest_other hlast hline] at hrest
        cases hrest
  · intro h
    induction h with
    | none hstop => rw [collect_programRound, if_pos hstop]
    | last hs hstop =>
      rw [collect_programRound, if_neg (kind_ne_of_statement hs), bind_done _ hs,
        programRest_end hstop]
    | cons hs hline _ ih =>
      rw [collect_programRound, if_neg (kind_ne_of_statement hs), bind_done _ hs,
        programRest_line hline, ← collect_programRound_line hline, ih]
      rfl

/-- A block is read line by line up to its brace, which it consumes. -/
theorem collect_blockRound_iff : collect script.readers.blockRound c = .done ss d ↔
    ∃ c₂, Lines (·.isSymbol "\x7d") c ss c₂ ∧ c₂.next = d := by
  constructor
  · intro h
    induction hm : c.remaining using Nat.strong_induction_on generalizing c ss with
    | _ m ih =>
      rw [Readers.collect_blockRound_skip] at h
      by_cases hend : (c.skip .newLine).current.kind = .endOfInput
      · rw [Readers.collect_blockRound_end hend] at h
        cases h
      by_cases hbrace : (c.skip .newLine).current.isSymbol "\x7d" = true
      · rw [Readers.collect_blockRound_brace hbrace] at h
        obtain ⟨rfl, rfl⟩ := Outcome.done.inj h
        exact ⟨_, .none hbrace, rfl⟩
      rw [Readers.collect_blockRound_statement script_moves hend hbrace
        (c.current_skip_ne (by simp))] at h
      obtain ⟨s, c₁, hs, hrest⟩ := bind_eq_done.1 h
      by_cases hline : c₁.current.kind = .newLine
      · rw [Readers.blockRest_line hline, ← Readers.collect_blockRound_line hline] at hrest
        obtain ⟨more, hmore, rfl⟩ := Outcome.prepend_eq_done hrest
        have hlt : c₁.remaining < m := by
          have h₁ := script_moves hs
          have h₂ := c.remaining_skip .newLine
          omega
        obtain ⟨c₂, hlines, rfl⟩ := ih _ hlt hmore rfl
        exact ⟨c₂, .cons hs hline hlines, rfl⟩
      by_cases hlast : c₁.current.isSymbol "\x7d" = true
      · rw [Readers.blockRest_brace hlast] at hrest
        obtain ⟨rfl, rfl⟩ := Outcome.done.inj hrest
        exact ⟨c₁, .last hs hlast, rfl⟩
      · rw [Readers.blockRest_other hline hlast] at hrest
        cases hrest
  · rintro ⟨c₂, h, rfl⟩
    have first {c d : Cursor} {s : Statement}
        (hs : script.statement (c.skip .newLine) = .done s d) :
        collect script.readers.blockRound c = script.readers.blockRest s d := by
      have hbrace : ¬ (c.skip .newLine).current.isSymbol "\x7d" = true := fun h =>
        not_begins_brace h (begins_of_statement hs)
      rw [Readers.collect_blockRound_skip, Readers.collect_blockRound_statement script_moves
        (kind_ne_of_statement hs) hbrace (c.current_skip_ne (by simp))]
      exact bind_done _ hs
    induction h with
    | none hstop => rw [Readers.collect_blockRound_skip, Readers.collect_blockRound_brace hstop]
    | last hs hstop => rw [first hs, Readers.blockRest_brace hstop]
    | cons hs hline _ ih =>
      rw [first hs, Readers.blockRest_line hline, ← Readers.collect_blockRound_line hline, ih]
      rfl

/-- The body of a loop has lines as well, up to a brace that it does not consume. -/
theorem Lines.collect_loopRound (h : Lines (·.isSymbol "\x7d") c ss c₂) :
    collect script.readers.loopRound c = .done ss c₂ := by
  have first {c d : Cursor} {s : Statement} (hs : script.statement (c.skip .newLine) = .done s d) :
      collect script.readers.loopRound c = (collect script.readers.loopRound d).prepend [s] := by
    have hbrace : ¬ (c.skip .newLine).current.isSymbol "\x7d" = true := fun h =>
      not_begins_brace h (begins_of_statement hs)
    exact Readers.collect_loopRound_statement hbrace (kind_ne_of_statement hs) hs
      (Nat.lt_of_lt_of_le (remaining_statement hs) (c.remaining_skip .newLine))
  induction h with
  | none hstop => rw [Readers.collect_loopRound_brace hstop]
  | @last c c₁ s hs hstop =>
    have hskip : c₁.skip .newLine = c₁ := Cursor.skip_of_ne (by simp [kind_of_isSymbol hstop])
    rw [first hs, Readers.collect_loopRound_brace (by rwa [hskip]), hskip]
    rfl
  | cons hs _ _ ih =>
    rw [first hs, ih]
    rfl

/-- A block has a brace in front of its lines, and its span is from brace to brace. -/
theorem block_iff {b : Block} (hopening : c.current.isSymbol "\x7b" = true) :
    script.readers.block c = .done b d ↔ ∃ c₂, Lines (·.isSymbol "\x7d") c.next b.statements c₂ ∧
      b.span = ⟨c.current.span.start, c₂.current.span.stop⟩ ∧ c₂.next = d := by
  rw [Readers.block, expectSymbol, expect_bind, if_pos hopening, bind_eq_done]
  simp only [collect_blockRound_iff]
  constructor
  · rintro ⟨ss, _, ⟨c₂, hlines, rfl⟩, h⟩
    obtain ⟨rfl, rfl⟩ := Outcome.done.inj h
    have hend : c₂.current.kind ≠ .endOfInput := by simp [kind_of_isSymbol hlines.stop]
    exact ⟨c₂, hlines, by rw [Cursor.lastEnd_next hend], rfl⟩
  · rintro ⟨c₂, hlines, hspan, rfl⟩
    have hend : c₂.current.kind ≠ .endOfInput := by simp [kind_of_isSymbol hlines.stop]
    rw [← Cursor.lastEnd_next hend] at hspan
    refine ⟨b.statements, _, ⟨c₂, hlines, rfl⟩, ?_⟩
    obtain ⟨ss, span⟩ := b
    obtain rfl : span = _ := hspan
    rfl

/-- A block that ends at a given brace. -/
theorem block_iff_at {b : Block} (hopening : c.current.isSymbol "\x7b" = true)
    (hway : c.next.Passes ts c₂) (hclosing : c₂.current.isSymbol "\x7d" = true) :
    script.readers.block c = .done b d ∧ d.index = c₂.index + 1 ↔
      Lines (·.isSymbol "\x7d") c.next b.statements c₂ ∧
        b.span = ⟨c.current.span.start, c₂.current.span.stop⟩ ∧ c₂.next = d := by
  have hindex {e : Cursor} (he : e.current.isSymbol "\x7d" = true) : e.next.index = e.index + 1 :=
    (Cursor.Passes.next (c := e) (by simp [kind_of_isSymbol he])).index
  rw [block_iff hopening]
  constructor
  · rintro ⟨⟨e, hlines, hspan, rfl⟩, hsame⟩
    obtain ⟨us, hus⟩ := hlines.passes
    rw [hindex hlines.stop] at hsame
    obtain rfl : e = c₂ := hus.eq_of_index hway (Nat.succ.inj hsame)
    exact ⟨hlines, hspan, rfl⟩
  · rintro ⟨hlines, hspan, rfl⟩
    exact ⟨⟨c₂, hlines, hspan, rfl⟩, hindex hclosing⟩

/-- A loop over a name, with lines in its body the first of which does not give its variables. -/
theorem loop_of_lines (hname : c.next.current.kind = .name)
    (hopening : c.next.next.current.isSymbol "\x7b" = true)
    (hlines : Lines (·.isSymbol "\x7d") c.next.next.next ss c₂)
    (hfirst : ¬ (c.next.next.next.skip .newLine).current.isKeyword .kwAs = true) :
    script.readers.loop c = .done (.loop (.name c.next.current.text c.next.current.span) []
      ⟨ss, c.next.next.current.span.start, c₂.current.span.stop⟩
      ⟨c.current.span.start, c₂.current.span.stop⟩) c₂.next := by
  have hiterable : script.readers.expr .default c.next =
      .done (.name c.next.current.text c.next.current.span) c.next.next := by
    refine expr_name hname ?_
    obtain ⟨hkind, htext⟩ : c.next.next.current.kind = .symbol ∧
        c.next.next.current.text = "\x7b" := by simpa [Token.isSymbol] using hopening
    rw [Token.power, Token.key, hkind, htext]
    decide
  have hskip : ((c.next.next.next.skip .newLine).skip .newLine) =
      c.next.next.next.skip .newLine :=
    Cursor.skip_of_ne (Cursor.current_skip_ne _ (by simp))
  have hbody := (hlines.skipped hskip.symm).collect_loopRound
  have hend : c₂.current.kind ≠ .endOfInput := by simp [kind_of_isSymbol hlines.stop]
  rw [Readers.loop, advance_bind, bind_done _ hiterable, expectSymbol, expect_bind, if_pos hopening,
    skip_bind, Readers.loopVariables, acceptKeyword, bind_assoc, accept_bind, if_neg hfirst]
  simp only [Bool.false_eq_true, if_false, pure_bind]
  rw [bind_done _ hbody, expectSymbol, expect_bind, if_pos hlines.stop, ← Cursor.lastEnd_next hend]
  rfl

/-- The end of the input and a closing brace: lines that stop at the one stop at the other. -/
theorem Lines.iff_of_passes {stops stops' : Token → Prop}
    (hstops : ∀ t, stops t → t.Closes ∧ t.kind ≠ .newLine)
    (hstops' : ∀ t, stops' t → t.Closes ∧ t.kind ≠ .newLine) (hc : c.Passes ts c₂)
    (hd : d.Passes ts d₂) (hstop : stops c₂.current) (hstop' : stops' d₂.current) :
    Lines stops c ss c₂ ↔ Lines stops' d ss d₂ := by
  constructor
  · intro h
    obtain ⟨us, hus, hread⟩ := h.elsewhere (fun t ht => (hstops t ht).2) hstops'
    obtain rfl := hus.unique hc
    exact hread d d₂ hd hstop'
  · intro h
    obtain ⟨us, hus, hread⟩ := h.elsewhere (fun t ht => (hstops' t ht).2) hstops
    obtain rfl := hus.unique hd
    exact hread c c₂ hc hstop

theorem closes_of_end (t : Token) (h : t.kind = .endOfInput) : t.Closes ∧ t.kind ≠ .newLine :=
  ⟨.inr (.inl h), by simp [h]⟩

theorem closes_of_brace (t : Token) (h : t.isSymbol "\x7d" = true) :
    t.Closes ∧ t.kind ≠ .newLine :=
  ⟨.inr (.inr h), by simp [kind_of_isSymbol h]⟩

/-- What is in front of lines behind their empty ones: the token at which they stop, or the first
one of a statement. -/
theorem Lines.first {stops : Token → Prop} (h : Lines stops c ss c₂) (hts : c.Passes ts c₂) :
    stops (c.skip .newLine).current ∨
      (c.skip .newLine).current ∈ ts ∧ Begins (c.skip .newLine).current := by
  have among {us : List Token} {d : Cursor} {s : Statement}
      (hs : script.statement (c.skip .newLine) = .done s d) (hus : d.Passes us c₂) :
      (c.skip .newLine).current ∈ ts ∧ Begins (c.skip .newLine).current := by
    obtain ⟨vs, hne, hvs, -⟩ := statement_settles hs
    obtain ⟨v, vs, rfl⟩ := List.exists_cons_of_ne_nil hne
    have hway := (c.passes_skip .newLine).append (hvs.append hus)
    rw [hts.unique hway, hvs.1]
    exact ⟨by simp, hvs.1 ▸ begins_of_statement hs⟩
  cases h with
  | none hstop => exact .inl hstop
  | last hs _ => exact .inr (among hs (.refl _))
  | cons hs _ hrest => exact .inr (among hs hrest.passes.choose_spec)

end Grammar

/-- The lines of a program go on to its end of input. -/
theorem parse_iff_lines {last : Token} {file : String} (hts : ∀ t ∈ ts, t.kind ≠ .endOfInput)
    (hlast : last.kind = .endOfInput) (hway : (Cursor.start (ts ++ [last]) file).Passes ts d) :
    (∃ b stop, parse (ts ++ [last]) file = .done b stop ∧ b.statements = ss) ↔
      Grammar.Lines (·.kind = .endOfInput) (Cursor.start (ts ++ [last]) file) ss d := by
  constructor
  · rintro ⟨b, stop, hp, rfl⟩
    have hlines := Grammar.collect_programRound_iff.1 (parse_done_iff.1 hp).1
    obtain ⟨us, hus⟩ := hlines.passes
    obtain rfl : us = ts :=
      hus.all_of_end hlines.stop (Cursor.start_closed hlast ts file).2.1 hts
    obtain rfl : stop = d := hus.eq_of_index hway (hus.index.trans hway.index.symm)
    exact hlines
  · intro hlines
    exact ⟨⟨ss, ⟨⟨0, file⟩, d.lastEnd⟩⟩, d,
      parse_done_iff.2 ⟨Grammar.collect_programRound_iff.2 hlines, rfl⟩, rfl⟩

/-- Tokens are a program, with some statements, if and only if they are a block with the same
statements when braces are put around them. And when they are, the block is the body of a loop over
a name as well, with its spans, and the loop has no variables. -/
theorem statement_lists_agree {opening closing last last' : Token}
    (hts : ∀ t ∈ ts, t.Genuine ∧ t.kind ≠ .endOfInput)
    (hopening : opening.isSymbol "\x7b" = true) (hclosing : closing.isSymbol "\x7d" = true)
    (hlast : last.kind = .endOfInput) (hlast' : last'.kind = .endOfInput) (file name : String) :
    let block := Grammar.script.readers.block
      (Cursor.start (opening :: ts ++ [closing] ++ [last']) name)
    (∀ ss, (∃ b stop, parse (ts ++ [last]) file = .done b stop ∧ b.statements = ss) ↔
      ∃ b stop, block = .done b stop ∧ b.statements = ss ∧ stop.index = ts.length + 2) ∧
    ∀ b stop, block = .done b stop → stop.index = ts.length + 2 →
      ∀ word x : Token, word.kind = .keyword .kwFor → x.kind = .name → ∃ stop',
        Grammar.script.readers.loop
          (Cursor.start (word :: x :: opening :: ts ++ [closing] ++ [last']) name) =
            .done (.loop (.name x.text x.span) [] b ⟨word.span.start, closing.span.stop⟩) stop' ∧
        stop'.index = ts.length + 4 := by
  intro block
  have hkinds : ∀ t ∈ ts, t.kind ≠ .endOfInput := fun t ht => (hts t ht).2
  have hopens : ∀ t ∈ opening :: ts, t.kind ≠ .endOfInput :=
    List.forall_mem_cons.2 ⟨by simp [kind_of_isSymbol hopening], hkinds⟩
  obtain ⟨d₂, hd, -, hdcur⟩ := Cursor.start_passes hkinds hlast [] file
  obtain ⟨c₂, ⟨hfirst, -, hc⟩, hcindex, hccur⟩ := Cursor.start_passes hopens hlast' [closing] name
  rw [List.append_nil] at hd
  rw [List.headD_nil] at hdcur
  rw [List.headD_cons] at hccur
  have hbrace : c₂.current.isSymbol "\x7d" = true := hccur ▸ hclosing
  have hblock {b : Block} {stop : Cursor} := Grammar.block_iff_at (b := b) (d := stop)
    (hfirst.symm ▸ hopening) hc hbrace
  rw [hcindex, List.length_cons, hfirst, hccur] at hblock
  refine ⟨fun ss => ?_, fun b stop hb hindex word x hword hx => ?_⟩
  · rw [parse_iff_lines hkinds hlast hd, Grammar.Lines.iff_of_passes Grammar.closes_of_end
      Grammar.closes_of_brace hd hc (hdcur ▸ hlast) hbrace]
    constructor
    · intro hlines
      obtain ⟨hb, hindex⟩ := (hblock (b := ⟨ss, _⟩)).2 ⟨hlines, rfl, rfl⟩
      exact ⟨_, _, hb, rfl, hindex⟩
    · rintro ⟨b, stop, hb, rfl, hindex⟩
      exact (hblock.1 ⟨hb, hindex⟩).1
  · obtain ⟨ss, span⟩ := b
    obtain ⟨hlines, rfl, rfl⟩ := hblock.1 ⟨hb, hindex⟩
    have hwords : ∀ t ∈ word :: x :: opening :: ts, t.kind ≠ .endOfInput :=
      List.forall_mem_cons.2 ⟨by simp [hword], List.forall_mem_cons.2 ⟨by simp [hx], hopens⟩⟩
    obtain ⟨e₂, he, heindex, hecur⟩ := Cursor.start_passes hwords hlast' [closing] name
    generalize Cursor.start (word :: x :: opening :: ts ++ [closing] ++ [last']) name = e at he ⊢
    obtain ⟨rfl, -, rfl, -, rfl, -, he⟩ := he
    obtain rfl : e₂.current = closing := hecur
    have hlines' := (Grammar.Lines.iff_of_passes Grammar.closes_of_brace Grammar.closes_of_brace
      hc he hbrace hclosing).1 hlines
    refine ⟨e₂.next, Grammar.loop_of_lines hx hopening hlines' fun has => ?_, ?_⟩
    · rcases hlines'.first he with hstop | ⟨hmem, hbegins⟩
      · simp [Token.isKeyword, kind_of_isSymbol hstop] at has
      · exact Grammar.not_begins_as (hts _ hmem).1 has hbegins
    · have hend : e₂.current.kind ≠ .endOfInput := by simp [kind_of_isSymbol hclosing]
      rw [(Cursor.Passes.next hend).index, heindex]
      rfl

/-- Two names on lines of their own are a program, a block and the body of a loop. -/
theorem statement_lists_agree_names :
    let span : UInt32 → Span := fun i => ⟨⟨i, "shell"⟩, ⟨i + 1, "shell"⟩⟩
    let ts : List Token := [⟨.name, "a", span 0⟩, ⟨.newLine, "\n", span 1⟩, ⟨.name, "b", span 2⟩]
    let opening : Token := ⟨.symbol, "\x7b", span 3⟩
    let closing : Token := ⟨.symbol, "\x7d", span 4⟩
    let last : Token := ⟨.endOfInput, "EOF", span 5⟩
    ∃ b b' stop stop' stop'', parse (ts ++ [last]) "shell" = .done b stop ∧
      Grammar.script.readers.block (Cursor.start (opening :: ts ++ [closing] ++ [last]) "shell") =
        .done b' stop' ∧ b'.statements = b.statements ∧ stop'.index = 5 ∧
      Grammar.script.readers.loop (Cursor.start (⟨.keyword .kwFor, "for", span 6⟩ ::
        ⟨.name, "x", span 7⟩ :: opening :: ts ++ [closing] ++ [last]) "shell") =
          .done (.loop (.name "x" (span 7)) [] b' ⟨(span 6).start, (span 4).stop⟩) stop'' := by
  intro span ts opening closing last
  have hts : ∀ t ∈ ts, t.Genuine ∧ t.kind ≠ .endOfInput := by
    have hname : ∀ text i, Token.Genuine ⟨.name, text, span i⟩ := fun _ _ => ⟨nofun, nofun⟩
    have hline : Token.Genuine ⟨.newLine, "\n", span 1⟩ := ⟨nofun, nofun⟩
    simp [ts, hname, hline]
  have hopening : opening.isSymbol "\x7b" = true := rfl
  have hclosing : closing.isSymbol "\x7d" = true := rfl
  have hlast : last.kind = .endOfInput := rfl
  obtain ⟨hprogram, hloop⟩ :=
    statement_lists_agree hts hopening hclosing hlast hlast "shell" "shell"
  have herror : (parse (ts ++ [last]) "shell").error? = none := by decide +kernel
  obtain ⟨b, stop, hp⟩ := parse_accepts herror
  obtain ⟨b', stop', hb', hsame, hindex⟩ := (hprogram b.statements).1 ⟨b, stop, hp, rfl⟩
  obtain ⟨stop'', hloop, -⟩ := hloop b' stop' hb' hindex ⟨.keyword .kwFor, "for", span 6⟩
    ⟨.name, "x", span 7⟩ rfl rfl
  exact ⟨b, b', stop, stop', stop'', hp, hb', hsame, hindex, hloop⟩

end ScriptSyntax
