import ScriptSyntax.Proofs.Nesting
import ScriptSyntax.Proofs.Precedence
import ScriptSyntax.Proofs.Slices
import ScriptSyntax.Proofs.Soundness

/-! What the span of a statement reaches over. The span of an expression in parentheses leaves these
out, so that as a statement it need not begin with its first token, nor end with its last one. -/
namespace ScriptSyntax
open Parse
variable {s : Site} {ts us mid : List Token} {t : Token} {span span' : Span}

/-! The tokens that leave a trace in the spans of a tree. -/

/-- Whether a terminal belongs to the tree. Ends of lines and the parentheses around expressions do
not. -/
def Site.owns (s : Site) : Terminal → Bool
  | .newLine => false
  | .symbol "(" => s.operand
  | .symbol ")" => s.enclosing.head? ≠ some .grouping
  | _ => true

theorem Site.owns_symbol {text : String} (h : text ∉ ["(", ")"]) (s : Site) :
    s.owns (.symbol text) := by
  simp only [List.mem_cons, List.not_mem_nil, or_false, not_or] at h
  obtain ⟨hopen, hclose⟩ := h
  unfold owns
  split <;> simp_all

/-- Those of some tokens that belong to the tree. -/
def own : Site → List Token → List Token
  | _, [] => []
  | s, t :: ts => (if s.owns t.terminal then [t] else []) ++ own (s.past t.terminal) ts

theorem own_append (s : Site) (ts us : List Token) :
    own s (ts ++ us) = own s ts ++ own (s.after (ts.map Token.terminal)) us := by
  induction ts generalizing s with
  | nil => rfl
  | cons t ts ih =>
    rw [List.cons_append, own, own, ih, List.append_assoc]
    rfl

theorem own_of_owns (h : s.owns t.terminal) (ts : List Token) :
    own s (t :: ts) = t :: own (s.past t.terminal) ts := by
  rw [own, if_pos h]
  rfl

theorem own_lines (h : EmptyLines (ts.map Token.terminal)) (s : Site) : own s ts = [] := by
  induction ts generalizing s with
  | nil => rfl
  | cons t ts ih =>
    obtain ⟨ht, hts⟩ := List.forall_mem_cons.1 h
    rw [own, ih hts, ht]
    rfl

/-- A span from the first of some tokens to the last of them. -/
def Hull (ts : List Token) (span : Span) : Prop :=
  ts.head?.map (·.span.start) = some span.start ∧ ts.getLast?.map (·.span.stop) = some span.stop

theorem hull_singleton (t : Token) : Hull [t] t.span := ⟨rfl, rfl⟩

theorem Hull.join (h : Hull ts span) (h' : Hull us span') (mid : List Token) :
    Hull (ts ++ (mid ++ us)) (span.to span') := by
  obtain ⟨hstart, -⟩ := h
  obtain ⟨-, hstop⟩ := h'
  cases ts with
  | nil => cases hstart
  | cons t ts =>
    refine ⟨hstart, ?_⟩
    rw [← List.append_assoc, List.getLast?_append]
    cases hlast : us.getLast? with
    | none =>
      rw [hlast] at hstop
      cases hstop
    | some u => rwa [hlast] at hstop

theorem Parse.expectSymbol_eq_done {β : Type} {c e : Cursor} {text : String} {f : Token → Parse β}
    {b : β} : (expectSymbol text >>= f) c = .done b e ↔
      c.current.terminal = .symbol text ∧ f c.current c.next = .done b e := by
  rw [expectSymbol, expect_bind, Token.isSymbol_eq]
  by_cases h : c.current.terminal = .symbol text
  · simp [h]
  · simp [h, complain, refuse]

/-! Expressions. -/

/-- The way from one place to another is an operand, and a span reaches over what belongs to the
tree there. -/
def Outlines (c d : Cursor) (span : Span) : Prop :=
  ∃ ts, c.Passes ts d ∧ EndsOperand (ts.map Token.terminal) ∧
    ∀ s : Site, s.operand = false → Hull (own s ts) span

theorem Cursor.Passes.lastEnd_last {c d : Cursor} (h : c.Passes (ts ++ [t]) d) :
    d.lastEnd = t.span.stop := by
  obtain ⟨-, last, hlast, hstop⟩ := h.ends (by simp)
  rw [List.getLast?_concat] at hlast
  rw [hstop, Option.some.inj hlast]

namespace Outlines
variable {c c₀ c₁ d d₁ d₂ : Cursor}

theorem genuine (h : Outlines c d span) (hc : c.Genuine) : d.Genuine := by
  obtain ⟨ts, hts, -⟩ := h
  rwa [Cursor.Genuine, hts.tokens]

theorem remaining_le (h : Outlines c d span) : d.remaining ≤ c.remaining := by
  obtain ⟨ts, hts, -⟩ := h
  exact Nat.le.intro hts.remaining

/-- A token that is an operand by itself. -/
theorem single (hk : c.current.kind ≠ .endOfInput)
    (h : ∀ s : Site, s.past c.current.terminal = s.behind ∧ s.owns c.current.terminal) :
    Outlines c c.next c.current.span := by
  refine ⟨[c.current], .next hk, fun s => (h s).1, fun s _ => ?_⟩
  rw [own_of_owns (h s).2]
  exact hull_singleton c.current

theorem prefixed {operator : String} (hop : operator ∈ ["-", "!"])
    (hw : c.current.terminal = .symbol operator) (h : Outlines c.next d span) :
    Outlines c d (c.current.span.to span) := by
  obtain ⟨ts, hts, hends, hhull⟩ := h
  have hplain : ∀ operator ∈ ["-", "!"], operator ∉ ["(", "\x7b", ")", "\x7d", ","] := by decide
  have hpast := fun s : Site => s.past_symbol (hplain operator hop)
  have hk : c.current.kind ≠ .endOfInput := by simp [(Token.terminal_symbol.1 hw).1]
  refine ⟨c.current :: ts, ⟨rfl, hk, hts⟩, ?_, fun s _ => ?_⟩
  · rw [List.map_cons, hw]
    exact hends.cons fun s => by rw [hpast]
  · have hother : ∀ operator ∈ ["-", "!"], operator ∉ ["(", ")"] := by decide
    rw [own_of_owns (hw ▸ Site.owns_symbol (hother operator hop) s), hw]
    exact (hull_singleton c.current).join (hhull _ (by rw [hpast])) []

/-- Parentheses around an expression belong to no part of the tree. -/
theorem grouped {nl nl' : List Terminal} (hw : c.current.terminal = .symbol "(")
    (hnl : c.next.Spells nl c₁) (hlines : EmptyLines nl) (h : Outlines c₁ d₁ span)
    (hnl' : d₁.Spells nl' d₂) (hlines' : EmptyLines nl') (hw' : d₂.current.terminal = .symbol ")") :
    Outlines c d₂.next span := by
  obtain ⟨front, hfront, rfl⟩ := hnl
  obtain ⟨ts, hts, hends, hhull⟩ := h
  obtain ⟨behind, hbehind, rfl⟩ := hnl'
  have hk : c.current.kind ≠ .endOfInput := by simp [(Token.terminal_symbol.1 hw).1]
  have hk' : d₂.current.kind ≠ .endOfInput := by simp [(Token.terminal_symbol.1 hw').1]
  refine ⟨c.current :: (front ++ (ts ++ (behind ++ [d₂.current]))), ⟨rfl, hk, ?_⟩, ?_,
    fun s hs => ?_⟩
  · exact hfront.append (hts.append (hbehind.append (.next hk')))
  · have hparens := (hlines.keeps.append (hends.keeps.append hlines'.keeps)).parenthesized
    simpa [hw, hw'] using hparens
  · have hopen : s.past (.symbol "(") = ⟨.grouping :: s.enclosing, false, true⟩ := by
      rw [Site.past, hs]
      rfl
    have hoperand := Site.operand_after_lines (s := s.past (.symbol "(")) hlines rfl
    have hclose : own ((((s.past (.symbol "(")).after (front.map Token.terminal)).after
        (ts.map Token.terminal)).after (behind.map Token.terminal)) [d₂.current] = [] := by
      rw [own, hw', Site.owns, hlines'.keeps, hends.keeps, hlines.keeps, hopen]
      rfl
    rw [own, hw, Site.owns, hs, own_append, own_lines hlines, own_append, own_append,
      own_lines hlines', hclose]
    simpa using hhull _ hoperand

/-- A function reaches from its first word to the brace at its end. -/
theorem closure {signature : Signature} {body : Block} {ws vs : List Terminal}
    (hw : c.current.terminal = .keyword .kwFunction) (hsig : SignatureText signature ws)
    (hws : c.next.Spells ws c₁) (hbody : Derives longestFit (.block body) vs)
    (hvs : c₁.Spells vs d) : Outlines c d ⟨c.current.span.start, d.lastEnd⟩ := by
  have hends : EndsOperand vs := hbody.nests
  obtain ⟨ts, hts, rfl⟩ := hws
  obtain ⟨us, hus, rfl⟩ := hvs
  have hk : c.current.kind ≠ .endOfInput := by simp [Token.terminal_keyword.1 hw]
  have hway : c.Passes (c.current :: (ts ++ us)) d := ⟨rfl, hk, hts.append hus⟩
  obtain ⟨inside, brace, rfl, hbrace⟩ :
      ∃ inside brace, us = inside ++ [brace] ∧ brace.terminal = .symbol "\x7d" := by
    generalize hall : us.map Token.terminal = all at hbody
    cases hbody with
    | block _ _ _ =>
      rw [← List.cons_append, List.map_eq_append_iff] at hall
      obtain ⟨inside, last, rfl, -, hlast⟩ := hall
      obtain ⟨brace, rfl, hbrace⟩ := List.map_eq_singleton_iff.1 hlast
      exact ⟨inside, brace, rfl, hbrace⟩
  refine ⟨_, hway, ?_, fun s _ => ?_⟩
  · have hall := EndsOperand.cons (keeps_keyword .kwFunction) (.append hsig.keeps hends)
    simpa [hw] using hall
  · rw [← List.append_assoc, ← List.cons_append] at hway ⊢
    have hjoin := (hull_singleton c.current).join (hull_singleton brace)
      (own (s.past c.current.terminal) (ts ++ inside))
    rw [hway.lastEnd_last, List.cons_append, own_of_owns (hw ▸ rfl), own_append,
      own_of_owns (hbrace ▸ rfl)]
    exact hjoin

/-- What follows an operand goes on with the span up to its own last token. -/
theorem tail {stop : Span} (h : Outlines c₀ c span) (hus : c.Passes us d)
    (hends : ∀ s : Site, s.behind.after (us.map Token.terminal) = s.behind)
    (hown : ∀ s : Site, ∃ front back, own s.behind us = front ++ back ∧ Hull back stop) :
    Outlines c₀ d (span.to stop) := by
  obtain ⟨ts, hts, hkeeps, hhull⟩ := h
  refine ⟨ts ++ us, hts.append hus, fun s => ?_, fun s hs => ?_⟩
  · rw [List.map_append, Site.after_append, hkeeps, hends]
  · obtain ⟨front, back, hback, hstop⟩ := hown s
    rw [own_append, hkeeps, hback]
    exact (hhull s hs).join hstop front

theorem operated {operator : String} {nl : List Terminal} (hop : operator ∈ infixOperators)
    (h : Outlines c₀ c span) (hw : c.current.terminal = .symbol operator)
    (hnl : c.next.Spells nl c₁) (hlines : EmptyLines nl) (h' : Outlines c₁ d span') :
    Outlines c₀ d (span.to span') := by
  obtain ⟨front, hfront, rfl⟩ := hnl
  obtain ⟨us, hus, hends, hhull⟩ := h'
  have hk : c.current.kind ≠ .endOfInput := by simp [(Token.terminal_symbol.1 hw).1]
  have hway : c.Passes (c.current :: (front ++ us)) d := ⟨rfl, hk, hfront.append hus⟩
  refine h.tail hway (fun s => ?_) fun s => ?_
  · rw [List.map_cons, List.map_append, hw, Site.after_cons, s.behind.past_operator hop,
      EndsOperand.append hlines.keeps hends]
    rfl
  · have hother : ∀ operator ∈ infixOperators, operator ∉ ["(", ")"] := by decide
    have howns : s.behind.owns c.current.terminal := hw ▸ Site.owns_symbol (hother operator hop) _
    have hoperand : (s.behind.past c.current.terminal).operand = false := by
      rw [hw, s.behind.past_operator hop]
    refine ⟨[c.current], _, ?_, hhull _ (Site.operand_after_lines hlines hoperand)⟩
    rw [own_of_owns howns, own_append, own_lines hlines]
    rfl

theorem tail_last (h : Outlines c₀ c span) (hus : c.Passes (us ++ [t]) d)
    (hends : ∀ s : Site, s.behind.after ((us ++ [t]).map Token.terminal) = s.behind)
    (ht : ∀ s : Site, (s.behind.after (us.map Token.terminal)).owns t.terminal) :
    Outlines c₀ d ⟨span.start, d.lastEnd⟩ := by
  rw [hus.lastEnd_last]
  refine h.tail hus hends fun s => ⟨own s.behind us, [t], ?_, hull_singleton t⟩
  rw [own_append, own_of_owns (ht s)]
  rfl

/-- The parentheses around arguments belong to the call. -/
theorem called {items : List (Expr × List Terminal)} {ws : List Terminal}
    (h : Outlines c₀ c span) (hws : c.Spells ws d) (hcall : Parenthesized (items.map (·.2)) ws)
    (hitems : ∀ i ∈ items, Derives longestFit (.expr .expr i.1) i.2) :
    Outlines c₀ d ⟨span.start, d.lastEnd⟩ := by
  obtain ⟨us, hus, rfl⟩ := hws
  have hkeeps : ∀ piece ∈ items.map (·.2), Keeps piece :=
    List.forall_mem_map.2 fun i hi => EndsOperand.keeps (hitems i hi).nests
  have hends := hcall.endsOperand hkeeps
  generalize hall : us.map Token.terminal = all at hcall hends
  cases hcall with
  | @intro nl vs hnl hvs =>
    rw [← List.append_assoc, ← List.cons_append, List.map_eq_append_iff] at hall
    obtain ⟨front, last, rfl, hfront, hlast⟩ := hall
    obtain ⟨close, rfl, hclose⟩ := List.map_eq_singleton_iff.1 hlast
    refine h.tail_last hus (fun s => ?_) fun s => ?_
    · have hafter : s.behind.after _ = s.behind := hends s.behind
      rw [List.map_append, hfront, hlast]
      simpa using hafter
    · rw [hfront, hclose, Site.owns, Site.after_cons, (hnl.keeps.append (hvs.keeps hkeeps)) _]
      rfl

theorem property {x : String} (h : Outlines c₀ c span)
    (hws : c.Spells [.symbol ".", .name x] d) : Outlines c₀ d ⟨span.start, d.lastEnd⟩ := by
  obtain ⟨us, hus, hmap⟩ := hws
  obtain ⟨dot, rest, rfl, hdot, hrest⟩ := List.map_eq_cons_iff.1 hmap
  obtain ⟨name, rfl, hname⟩ := List.map_eq_singleton_iff.1 hrest
  have hway : c.Passes ([dot] ++ [name]) d := hus
  refine h.tail_last hway (fun s => ?_) fun s => hname ▸ rfl
  rw [List.singleton_append, hmap]
  rfl

end Outlines

namespace Grammar
variable {c c₀ d : Cursor} {e left : Expr} {p : BindingPower}

/-- The expressions with fewer tokens left than so many, as they are to be. -/
def OutlinesBelow (n : Nat) : Prop :=
  ∀ (p : BindingPower) (c : Cursor), c.remaining < n → c.Genuine → ∀ e d,
    script.expr p c = .done e d → Outlines c d e.span

theorem literal_outlines
    (hw : (∃ text, c.current.terminal = .number text) ∨ (∃ x, c.current.terminal = .name x) ∨
      ∃ value, c.current.terminal = .string value)
    (h : Parse.literal c = .done e d) : Outlines c d e.span := by
  rw [Parse.literal, current_bind] at h
  rcases hw with ⟨text, hw⟩ | ⟨x, hw⟩ | ⟨value, hw⟩
  · obtain ⟨hk, -⟩ := Token.terminal_number.1 hw
    rw [hk] at h
    dsimp only at h
    cases hvalue : Double.ofText? c.current.text with
    | some value =>
      rw [hvalue] at h
      obtain ⟨rfl, rfl⟩ := Outcome.done.inj h
      exact .single (by simp [hk]) fun s => by rw [hw]; exact ⟨rfl, rfl⟩
    | none =>
      rw [hvalue] at h
      cases h
  · obtain ⟨hk, -⟩ := Token.terminal_name.1 hw
    rw [hk] at h
    obtain ⟨rfl, rfl⟩ := Outcome.done.inj h
    exact .single (by simp [hk]) fun s => by rw [hw]; exact ⟨rfl, rfl⟩
  · obtain ⟨hk, -⟩ := Token.terminal_string.1 hw
    rw [hk] at h
    obtain ⟨rfl, rfl⟩ := Outcome.done.inj h
    exact .single (by simp [hk]) fun s => by rw [hw]; exact ⟨rfl, rfl⟩

theorem start_outlines (ih : OutlinesBelow c.remaining) (hc : c.Genuine) {start : ExprStart}
    (hs : script.starts.get? c.current.key = some start)
    (h : start.read script.readers c = .done e d) : Outlines c d e.span := by
  have hbelow {c₁ : Cursor} (hk : c.current.kind ≠ .endOfInput)
      (hle : c₁.remaining ≤ c.next.remaining) : c₁.remaining < c.remaining := by
    have hnext := Cursor.remaining_next hk
    omega
  rcases start_cases hc.current hs with ⟨rfl, hw⟩ | ⟨rfl, operator, hop, hw⟩ | ⟨rfl, hw⟩ | ⟨rfl, hw⟩
  · exact literal_outlines hw h
  · have hk : c.current.kind ≠ .endOfInput := by simp [(Token.terminal_symbol.1 hw).1]
    rw [ExprStart.read, Readers.prefixed, advance_bind, bind_eq_done] at h
    obtain ⟨operand, d', hoperand, hpure⟩ := h
    obtain ⟨rfl, rfl⟩ := Outcome.done.inj hpure
    exact (ih .unary c.next (hbelow hk (Nat.le_refl _)) hc.next operand _ hoperand).prefixed hop hw
  · have hk : c.current.kind ≠ .endOfInput := by simp [(Token.terminal_symbol.1 hw).1]
    obtain ⟨nl, hlines, hnl⟩ := c.next.spells_skip
    rw [ExprStart.read, Readers.grouping, advanceLine, bind_assoc, advance_bind, bind_assoc,
      skip_bind, pure_bind, bind_eq_done] at h
    obtain ⟨inside, d₁, hinside, h⟩ := h
    obtain ⟨nl', hlines', hnl'⟩ := d₁.spells_skip
    rw [skip_bind, expectSymbol_eq_done] at h
    obtain ⟨hclose, hpure⟩ := h
    obtain ⟨rfl, rfl⟩ := Outcome.done.inj hpure
    have houtline := ih .default _ (hbelow hk (c.next.remaining_skip _)) (hnl.genuine hc.next) _ _
      hinside
    exact houtline.grouped hw hnl hlines hnl' hlines' hclose
  · rw [ExprStart.read, Readers.closure, advance_bind, bind_eq_done] at h
    obtain ⟨signature, c₁, hsignature, h⟩ := h
    obtain ⟨body, c₂, hbody, h⟩ := bind_eq_done.1 h
    obtain ⟨rfl, rfl⟩ := Outcome.done.inj h
    have hfit := (script_sound.signature _).fits c.next hc.next rfl
    rw [hsignature] at hfit
    obtain ⟨ws, hws, -, hsig⟩ := hfit
    have hfit' := (script_sound.block _).fits c₁ (hws.genuine hc.next) rfl
    rw [hbody] at hfit'
    obtain ⟨vs, hvs, -, hblock⟩ := hfit'
    exact .closure hw hsig hws hblock hvs

theorem tail_outlines (hc : c.Genuine) (ih : OutlinesBelow c.remaining)
    (hleft : Outlines c₀ c left.span) {text : String} {tail : ExprTail} {power : BindingPower}
    (hw : c.current.terminal = .symbol text) (htail : TailOf text power tail)
    (h : tail.read script.readers left power c = .done e d) : Outlines c₀ d e.span := by
  have hk : c.current.kind ≠ .endOfInput := by simp [(Token.terminal_symbol.1 hw).1]
  obtain ⟨nl, hlines, hnl⟩ := c.next.spells_skip
  have hbelow : (c.next.skip .newLine).remaining < c.remaining := by
    have hskip := c.next.remaining_skip .newLine
    have hnext := Cursor.remaining_next hk
    omega
  cases htail with
  | assignment hop =>
    rw [ExprTail.read, Readers.assignment, advanceLine, bind_assoc, advance_bind, bind_assoc,
      skip_bind, pure_bind, bind_eq_done] at h
    obtain ⟨value, d', hvalue, hpure⟩ := h
    obtain ⟨rfl, rfl⟩ := Outcome.done.inj hpure
    exact hleft.operated (List.mem_append_left _ hop) hw hnl hlines
      (ih _ _ hbelow (hnl.genuine hc.next) _ _ hvalue)
  | binary level hop =>
    rw [ExprTail.read, Readers.binary, advanceLine, bind_assoc, advance_bind, bind_assoc,
      skip_bind, pure_bind, bind_eq_done] at h
    obtain ⟨right, d', hright, hpure⟩ := h
    obtain ⟨rfl, rfl⟩ := Outcome.done.inj hpure
    exact hleft.operated (mem_infixOperators hop) hw hnl hlines
      (ih _ _ hbelow (hnl.genuine hc.next) _ _ hright)
  | call htext =>
    subst htext
    rw [ExprTail.read, Readers.call, advanceLine, bind_assoc, advance_bind, bind_assoc,
      skip_bind, pure_bind, bind_eq_done] at h
    obtain ⟨arguments, d', harguments, h⟩ := h
    rw [expectSymbol_eq_done] at h
    obtain ⟨hclose, hpure⟩ := h
    obtain ⟨rfl, rfl⟩ := Outcome.done.inj hpure
    have hreads := Reads.commaSeparated (fun w =>
      (script_sound.expr .default (by decide) w).mono fun _ _ _ he => he.1)
    have hfit := (hreads _).fits _ (hnl.genuine hc.next) rfl
    rw [harguments] at hfit
    obtain ⟨ws, hws, -, items, rfl, hitems, hlisted⟩ := hfit
    have hway := hnl.append (hws.append (.next hclose (by simp)))
    exact hleft.called (Cursor.spells_cons.2 ⟨hw, by simp, hway⟩) (.intro hlines hlisted) hitems
  | member htext =>
    subst htext
    rw [ExprTail.read, Parse.member, advance_bind, expectName, bind_assoc, expectKind,
      expect_bind] at h
    split at h
    · next hname =>
      have hname := Token.terminal_name.2 ⟨of_decide_eq_true hname, rfl⟩
      obtain ⟨rfl, rfl⟩ := Outcome.done.inj h
      exact hleft.property (Cursor.spells_cons.2 ⟨hw, by simp, .next hname (by simp)⟩)
    · cases h

/-- Each round takes a tail to what stands before it. -/
theorem iterate_outlines {n : Nat} (ih : OutlinesBelow n) (hc₀ : c₀.Genuine) (hn : c.remaining ≤ n)
    (hleft : Outlines c₀ c left.span)
    (h : iterate (script.exprRound script.readers p) left c = .done e d) :
    Outlines c₀ d e.span := by
  induction hm : c.remaining using Nat.strong_induction_on generalizing left c with
  | _ m ihm =>
    have hc := hleft.genuine hc₀
    have hpower : c.current.power = c.current.terminal.power := power_key hc.current
    by_cases hlt : p < c.current.power
    · obtain ⟨text, tail, hw, htail, hread⟩ := tail_cases hc.current (hpower ▸ hlt)
      rw [iterate_eq_done, exprRound_of_lt hlt, hread, hpower] at h
      rcases h with h | ⟨left', c', h, hless, hrest⟩
      · obtain ⟨_, _, -, hpure⟩ := bind_eq_done.1 h
        cases hpure
      · obtain ⟨_, _, htailRead, hpure⟩ := bind_eq_done.1 h
        cases hpure
        have hleft' := tail_outlines hc (fun q d hd => ih q d (hd.trans_le hn)) hleft hw htail
          htailRead
        exact ihm c'.remaining (hm ▸ hless) (hless.le.trans hn) hleft' hrest rfl
    · rw [iterate_done (exprRound_of_not_lt hlt)] at h
      obtain ⟨rfl, rfl⟩ := Outcome.done.inj h
      exact hleft

theorem expr_outlines (hc : c.Genuine) (h : script.expr p c = .done e d) :
    Outlines c d e.span := by
  induction hn : c.remaining using Nat.strong_induction_on generalizing p c e d with
  | _ n ih =>
    have hbelow : OutlinesBelow c.remaining :=
      fun _ _ hless hgen _ _ h' => ih _ (hn ▸ hless) hgen h' rfl
    rw [script_expr, exprOver, current_bind] at h
    cases hs : script.starts.get? c.current.key with
    | none =>
      rw [hs] at h
      cases h
    | some start =>
      rw [hs] at h
      obtain ⟨left, c₁, hstart, h⟩ := bind_eq_done.1 h
      have hleft := start_outlines hbelow hc hs hstart
      exact iterate_outlines hbelow hc hleft.remaining_le hleft h

end Grammar

/-! Statements. -/

section Statements
variable {fits : Statement → List Terminal → Prop} {st : Statement} {ws : List Terminal}

/-- No statement ends with the end of a line. -/
theorem Derives.lineEnd (h : Derives fits (.statement st) ws) (s : Site) :
    (s.after ws).lineEnd = false := by
  have hoperand {vs : List Terminal} (hvs : EndsOperand vs) (s : Site) :
      (s.after vs).lineEnd = false := by rw [hvs]; rfl
  cases h with
  | nested hbody => exact hoperand hbody.nests s
  | expression span he hne => exact hoperand he.nests s
  | result span he => exact hoperand he.nests _
  | conditional span _ hbody | function x span _ hbody | classDefinition x superclass span hbody =>
    simp only [Site.after_cons, Site.after_append]
    exact hoperand hbody.nests _
  | alternative span _ _ helse =>
    simp only [Site.after_cons, Site.after_append]
    exact hoperand helse.nests _
  | loop =>
    simp only [Site.after_cons, Site.after_append]
    rfl
  | unassigned changes x valueSpan span hws =>
    cases hws with
    | absent => rfl
    | present ht =>
      cases ht with
      | named => rfl
      | array _ =>
        simp only [Site.after_cons, Site.after_append]
        rfl
  | declaration changes x span _ _ he =>
    simp only [Site.after_cons, Site.after_append]
    exact hoperand he.nests _

end Statements

/-- The tokens of a statement that its span reaches over. -/
def Statement.reached (ts : List Token) : Statement → List Token
  | .expression _ _ => own {} ts
  | _ => ts

theorem own_sublist (s : Site) (ts : List Token) : (own s ts).Sublist ts := by
  induction ts generalizing s with
  | nil => exact .slnil
  | cons t ts ih =>
    rw [own]
    split
    · exact (ih _).cons_cons t
    · exact (ih _).cons t

theorem Statement.reached_sublist (ts : List Token) (st : Statement) :
    (st.reached ts).Sublist ts := by
  cases st with
  | expression value span => exact own_sublist {} ts
  | _ => exact List.Sublist.refl ts

/-- No two tokens begin or end at the same place, apart from the end of the input. -/
theorem tokens_apart {source : String} {origin : Option String} {tokens : List Token} {a b : Token}
    (h : tokenize source origin = .ok tokens) (ha : a ∈ tokens) (hb : b ∈ tokens)
    (hka : a.kind ≠ .endOfInput) (hkb : b.kind ≠ .endOfInput) :
    (a.span.start = b.span.start → a = b) ∧ (a.span.stop = b.span.stop → a = b) := by
  have hpairs := (tokens_along h).pairwise
  have hsize : ∀ t ∈ tokens, t.kind ≠ .endOfInput →
      t.span.start.offset.toNat < t.span.stop.offset.toNat := by
    intro t ht hk
    obtain ⟨left, right, hsplit⟩ := List.append_of_mem ht
    obtain ⟨before, gap, piece, rest, -, -, -, hspan, -, hend, hpiece, -⟩ :=
      (tokens_tile h).2 left t right hsplit
    obtain ⟨x, piece, rfl⟩ := List.exists_cons_of_ne_nil fun hnil => hk (hend.2 (hpiece.1 hnil))
    have hx := x.utf8Size_pos
    simp only [hspan.start, hspan.stop, Text.byteCount_append, Text.byteCount_cons]
    omega
  have hbefore {u v : Token} (hu : u.span.start.offset.toNat < u.span.stop.offset.toNat)
      (hv : v.span.start.offset.toNat < v.span.stop.offset.toNat)
      (huv : u.span.stop.offset.toNat ≤ v.span.start.offset.toNat) :
      u.span.start ≠ v.span.start ∧ u.span.stop ≠ v.span.stop := by
    constructor
    · intro heq
      rw [heq] at hu
      omega
    · intro heq
      rw [heq] at huv
      omega
  obtain ⟨left, right, rfl⟩ := List.append_of_mem ha
  rw [List.map_append, List.map_cons, List.pairwise_append, List.pairwise_cons] at hpairs
  obtain ⟨-, ⟨hright, -⟩, hleft⟩ := hpairs
  have hrow := fun (u : Token) hu => hleft u.span (List.mem_map_of_mem hu) a.span List.mem_cons_self
  rcases List.mem_append.1 hb with hmem | hmem
  · obtain ⟨hstart, hstop⟩ := hbefore (hsize b hb hkb) (hsize a ha hka) (hrow b hmem)
    exact ⟨fun heq => absurd heq.symm hstart, fun heq => absurd heq.symm hstop⟩
  · rcases List.mem_cons.1 hmem with rfl | hmem
    · exact ⟨fun _ => rfl, fun _ => rfl⟩
    · obtain ⟨hstart, hstop⟩ := hbefore (hsize a ha hka) (hsize b hb hkb)
        (hright b.span (List.mem_map_of_mem hmem))
      exact ⟨fun heq => absurd heq hstart, fun heq => absurd heq hstop⟩

/-- An expression that is a statement is the value of the parser of expressions. -/
theorem expression_of_statement {c d : Cursor} {value : Expr} {span : Span} (hc : c.Genuine)
    (h : Grammar.script.statement c = .done (.expression value span) d) :
    Grammar.script.expr .default c = .done value d ∧ span = value.span := by
  have hfit := (Grammar.script_sound.statement _).fits c hc rfl
  have hread : Grammar.script.readers.statement c = .done (.expression value span) d := h
  rw [hread] at hfit
  obtain ⟨ws, hws, -, hderives, -⟩ := hfit
  have hform : Grammar.form? c.current.terminal = none := by
    cases hderives with
    | expression _ hexpr hne =>
      obtain ⟨w, us, rfl, hw⟩ := hexpr.begins
      rw [(Cursor.spells_cons.1 hws).1]
      cases w with
      | symbol text =>
        refine if_neg ?_
        rintro rfl
        have hbegins : (Terminal.symbol "\x7b").beginsExpr := hw
        exact absurd hbegins (by decide)
      | keyword word =>
        obtain rfl : word = .kwFunction := of_decide_eq_true hw
        exact absurd rfl hne
      | _ => rfl
  rw [Grammar.script_statement, Grammar.statementOver_eq, hform] at h
  obtain ⟨e, d', he, hpure⟩ := bind_eq_done.1 h
  obtain ⟨heq, rfl⟩ := Outcome.done.inj hpure
  obtain ⟨rfl, rfl⟩ := Statement.expression.inj heq
  exact ⟨he, rfl⟩

theorem hull_reached {c d : Cursor} {st : Statement} (hc : c.Genuine) (hts : c.Passes ts d)
    (hne : ts ≠ []) (h : Grammar.script.statement c = .done st d) :
    Hull (st.reached ts) st.span := by
  by_cases hexpr : ∃ value span, st = .expression value span
  · obtain ⟨value, span, rfl⟩ := hexpr
    obtain ⟨hvalue, rfl⟩ := expression_of_statement hc h
    obtain ⟨us, hus, -, hhull⟩ := Grammar.expr_outlines hc hvalue
    obtain rfl := hts.unique hus
    exact hhull {} rfl
  · have hspan := statement_span h fun value span heq => hexpr ⟨value, span, heq⟩
    have hreached : st.reached ts = ts := by
      cases st with
      | expression value span => exact absurd ⟨value, span, rfl⟩ hexpr
      | _ => rfl
    obtain ⟨hfirst, u, hlast, hstop⟩ := hts.ends hne
    rw [hreached, hspan, Hull, hfirst, hlast, hstop]
    exact ⟨rfl, rfl⟩

/-- The end of a statement is not that of a line. Its span reaches from the first to the last of its
tokens that belong to the tree. These are its own first and last token, unless it is an expression
that begins or ends with a parenthesis around an expression. -/
theorem statement_outline {source : String} {origin : Option String} {tokens : List Token}
    {c d : Cursor} {st : Statement} (htokens : tokenize source origin = .ok tokens)
    (hc : c.tokens = tokens) (h : Grammar.script.statement c = .done st d) :
    ∃ ts, c.Passes ts d ∧ (∃ u, ts.getLast? = some u ∧ u.kind ≠ .newLine) ∧
      Hull (st.reached ts) st.span ∧
      (st.span = ⟨c.current.span.start, d.lastEnd⟩ ↔
        (st.reached ts).head? = ts.head? ∧ (st.reached ts).getLast? = ts.getLast?) := by
  have hgenuine : c.Genuine := by
    obtain ⟨before, t, rfl, ht, hbefore⟩ := scan_tokens (scan_of_tokenize htokens)
    rw [Cursor.Genuine, hc]
    refine List.forall_mem_append.2 ⟨fun u hu => (hbefore u hu).1, List.forall_mem_singleton.2 ?_⟩
    exact ⟨by simp [ht], by simp [ht]⟩
  have hfit := (Grammar.script_sound.statement _).fits c hgenuine rfl
  have hread : Grammar.script.readers.statement c = .done st d := h
  rw [hread] at hfit
  obtain ⟨_, ⟨ts, hts, rfl⟩, -, hderives, -⟩ := hfit
  have hne : ts ≠ [] := by
    rintro rfl
    obtain ⟨_, _, hnil, -⟩ := hderives.begins
    cases hnil
  have hhull := hull_reached hgenuine hts hne h
  obtain ⟨hfirst, u, hlast, hstop⟩ := hts.ends hne
  refine ⟨ts, hts, ⟨u, hlast, fun hline => ?_⟩, hhull, ?_⟩
  · obtain ⟨us, rfl⟩ := List.getLast?_eq_some_iff.1 hlast
    have hend := hderives.lineEnd {}
    rw [List.map_append, Site.after_append, List.map_singleton,
      Token.terminal_newLine.2 hline] at hend
    cases hend
  · obtain ⟨hstart, hend⟩ := hhull
    have hmem {a : Token} (ha : a ∈ ts) : a ∈ tokens ∧ a.kind ≠ .endOfInput := by
      refine ⟨?_, hts.kind_ne a ha⟩
      rw [← hc, Cursor.tokens, hts.lists.1]
      simp [ha]
    have hsame {a b : Token} (ha : a ∈ st.reached ts) (hb : b ∈ ts) :=
      tokens_apart htokens (hmem ((st.reached_sublist ts).subset ha)).1 (hmem hb).1
        (hmem ((st.reached_sublist ts).subset ha)).2 (hmem hb).2
    constructor
    · intro hspan
      rw [hspan] at hstart hend
      obtain ⟨first, hreached, hstart⟩ := Option.map_eq_some_iff.1 hstart
      obtain ⟨last, hreached', hend⟩ := Option.map_eq_some_iff.1 hend
      rw [hreached, hreached', hfirst, hlast,
        (hsame (List.mem_of_head? hreached) (List.mem_of_head? hfirst)).1 hstart,
        (hsame (List.mem_of_getLast? hreached') (List.mem_of_getLast? hlast)).2 (hend.trans hstop)]
      exact ⟨rfl, rfl⟩
    · rintro ⟨hheads, hlasts⟩
      rw [hheads, hfirst, Option.map_some] at hstart
      rw [hlasts, hlast, Option.map_some] at hend
      rw [hstop, Option.some.inj hstart, Option.some.inj hend]

/-- The parentheses of a call belong to it, so that a call is a statement from end to end. -/
theorem statement_outline_call :
    let place : UInt32 → Position := fun offset => ⟨offset, "shell"⟩
    ∃ (c d : Cursor) (st : Statement), tokenize "f(a)" none = .ok c.tokens ∧
      Grammar.script.statement c = .done st d ∧ st.span = ⟨place 0, place 4⟩ := by
  intro place
  let tokens : List Token :=
    [⟨.name, "f", place 0, place 1⟩, ⟨.symbol, "(", place 1, place 2⟩,
      ⟨.name, "a", place 2, place 3⟩, ⟨.symbol, ")", place 3, place 4⟩]
  let c : Cursor := { consumed := [], upcoming := tokens, finish := ⟨"EOF", place 4, place 4⟩ }
  let d : Cursor :=
    { consumed := tokens.reverse, upcoming := [], finish := ⟨"EOF", place 4, place 4⟩ }
  have htokens : tokenize "f(a)" none = .ok c.tokens := by decide +kernel
  have herror : (Grammar.script.statement c).error? = none := by decide +kernel
  have hstop : (Grammar.script.statement c).cursor? = some d := by decide +kernel
  obtain ⟨st, hst⟩ := Outcome.exists_done herror hstop
  obtain ⟨ts, hts, -, -, hspan⟩ := statement_outline htokens rfl hst
  have hway : c.Passes tokens d :=
    ⟨rfl, by decide, rfl, by decide, rfl, by decide, rfl, by decide, rfl⟩
  obtain rfl := hts.unique hway
  have hreached : st.reached tokens = tokens := by cases st <;> rfl
  exact ⟨c, d, st, htokens, hst, hspan.2 ⟨by rw [hreached], by rw [hreached]⟩⟩

/-- A sum in parentheses is a statement without its first and its last token. -/
theorem statement_outline_parentheses :
    let place : UInt32 → Position := fun offset => ⟨offset, "shell"⟩
    ∃ (c d : Cursor) (st : Statement), tokenize "(a + b)" none = .ok c.tokens ∧
      Grammar.script.statement c = .done st d ∧
      c.current.span.start = place 0 ∧ d.lastEnd = place 7 ∧ st.span = ⟨place 1, place 6⟩ := by
  intro place
  let tokens : List Token :=
    [⟨.symbol, "(", place 0, place 1⟩, ⟨.name, "a", place 1, place 2⟩,
      ⟨.symbol, "+", place 3, place 4⟩, ⟨.name, "b", place 5, place 6⟩,
      ⟨.symbol, ")", place 6, place 7⟩]
  let c : Cursor := { consumed := [], upcoming := tokens, finish := ⟨"EOF", place 7, place 7⟩ }
  let d : Cursor :=
    { consumed := tokens.reverse, upcoming := [], finish := ⟨"EOF", place 7, place 7⟩ }
  have htokens : tokenize "(a + b)" none = .ok c.tokens := by decide +kernel
  have herror : (Grammar.script.statement c).error? = none := by decide +kernel
  have hstop : (Grammar.script.statement c).cursor? = some d := by decide +kernel
  obtain ⟨st, hst⟩ := Outcome.exists_done herror hstop
  have hspan : (Grammar.script.statement c).value?.map Statement.span =
      some ⟨place 1, place 6⟩ := by decide +kernel
  rw [hst] at hspan
  exact ⟨c, d, st, htokens, hst, rfl, rfl, Option.some.inj hspan⟩

end ScriptSyntax
