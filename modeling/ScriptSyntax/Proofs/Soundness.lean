import ScriptSyntax.Proofs.Reading

/-! The script grammar reads the language: what its parsers accept is derived by the rules of the
grammar, and what they consume before an error can be completed. -/
namespace ScriptSyntax
open Parse

/-- Expressions whose tails all bind more tightly than a power, before what binds no tighter. -/
def exprLanguage (power : BindingPower) : Language Expr := fun ws e w =>
  Derives longestFit (.expr power.tier e) ws ∧ w.power ≤ power

/-- Statements that have taken everything that can belong to them. -/
def statementLanguage : Language Statement := fun ws s w =>
  Derives longestFit (.statement s) ws ∧ (s.endsOpen → w.power ≤ .default)

/-- Expressions of any level that is tight enough for a power, before what does not belong to a
part of them. -/
def openLanguage (least : Tier) : Language Expr := fun ws e w =>
  ∃ tier, Derives longestFit (.expr tier e) ws ∧ least.rank ≤ tier.rank ∧ w.power ≤ tier.bound

theorem openLanguage.mono {least less : Tier} (h : less.rank ≤ least.rank) (ws : List Terminal)
    (e : Expr) (w : Terminal) (he : openLanguage least ws e w) : openLanguage less ws e w := by
  obtain ⟨tier, hws, hr, hw⟩ := he
  exact ⟨tier, hws, Nat.le_trans h hr, hw⟩

private theorem derives_x (tier : Tier) :
    Derives longestFit (.expr tier (.name "x" default)) [.name "x"] :=
  (Derives.name "x" default).loosen (by cases tier <;> decide)

theorem exprLanguage_viable (power : BindingPower) : (exprLanguage power).Viable 2 [] :=
  ⟨[.name "x"], _, .newLine, .name, derives_x _, by rw [power_newLine]; exact Nat.zero_le _⟩

theorem openLanguage_viable (least : Tier) : (openLanguage least).Viable 2 [] :=
  ⟨[.name "x"], _, .newLine, .name, .primary, derives_x _, by cases least <;> decide,
    by rw [power_newLine]; exact Nat.zero_le _⟩

theorem statementLanguage_viable : statementLanguage.Viable 2 [] :=
  ⟨[.name "x"], _, .newLine, .name, .expression default (derives_x _) (by simp),
    fun _ => by rw [power_newLine]; exact Nat.zero_le _⟩

/-- Readers for the parts of a construct that read the language. Where an expression or a statement
is missing, a name is enough, and a pair of braces for a block. -/
structure Readers.Sound (r : Readers) : Prop where
  typeExpr : ∀ w, Reads 6 w (r.typeExpr .default) fun ws t _ => TypeText t ws
  expr : ∀ power ≤ .unary, ∀ w, Reads 2 w (r.expr power) (exprLanguage power)
  statement : ∀ w, Reads 4 w r.statement statementLanguage

/-- Statements on lines and the brace that closes them. -/
def blockLanguage : Language (List Statement) := fun ws ss _ =>
  ∃ vs, ws = vs ++ [.symbol "\x7d"] ∧
    Items (fun us s => Derives longestFit (.statement s) us) OnLines vs ss

/-- The statements of a loop, without the brace that closes them. -/
def loopLanguage : Language (List Statement) := fun ws ss _ =>
  ∃ items : List (Statement × List Terminal), ss = items.map (·.1) ∧
    (∀ i ∈ items, Derives longestFit (.statement i.1) i.2) ∧ Loosely longestFit items ws

namespace Readers.Sound
variable {r : Readers} (h : r.Sound)
include h

theorem typeAfter (symbol : String) (w : Terminal) :
    Reads 0 w (r.typeAfter symbol) fun ws t _ => Annotation symbol t ws :=
  .acceptSymbol (Language.viable_of_mem (w := w) .absent) (by decide)
    (fun _ w' => (h.typeExpr w').mono fun _ _ _ ht => .present ht) (fun _ => .pure .absent)

/-- At a brace nothing is left of a block. Before that each statement leaves a line or a brace. -/
theorem blockRound (w : Terminal) :
    Reads 6 w r.blockRound (collects blockLanguage [.symbol "\x7d"]) := by
  have hend : blockLanguage [.symbol "\x7d"] [] .newLine :=
    ⟨[], rfl, .nil (.none emptyLines_nil)⟩
  have hviable : (collects blockLanguage [.symbol "\x7d"]).Viable 6 [] :=
    ⟨[.symbol "\x7d"], .done [], .newLine, (Fill.symbol (by decide)).weaken (by decide), hend⟩
  refine .current hviable fun t _ ht => ?_
  split
  · exact .complain hviable
  split
  · next hbrace =>
    rw [Token.isSymbol_eq, ht, decide_eq_true_eq] at hbrace
    subst hbrace
    exact .advance hviable (by simp) trivial (Nat.zero_le _) fun _ _ _ => .pure hend
  split
  · next hline =>
    rw [← Token.terminal_newLine, ht] at hline
    subst hline
    refine .advance hviable (by simp) trivial (Nat.zero_le _) fun _ _ _ => .pure ?_
    rintro us more _ - ⟨vs, rfl, hvs⟩
    exact ⟨.newLine :: vs, rfl, hvs.mono fun _ => .newLine⟩
  refine (h.statement w).bind fun ws s w' hs => ?_
  have hlast : ((collects blockLanguage [.symbol "\x7d"]).after ws).Viable 2 [] :=
    ⟨[.symbol "\x7d"], .done [s], .newLine, .symbol (by decide),
      ws, by simp, .one hs.1 (.last ws)⟩
  refine .acceptNewLine hlast (Nat.zero_le _) (fun _ w'' => .pure ?_) (fun _ => .atSymbol ?_)
  · rintro us more _ - ⟨vs, rfl, hvs⟩
    refine ⟨ws ++ .newLine :: vs, by simp, .cons hs.1 hvs fun _ => ?_⟩
    exact OnLines.cons ws
  by_cases hbrace : w' = .symbol "\x7d"
  · rw [decide_eq_true hbrace]
    refine .pure ?_
    rintro us more _ hus ⟨vs, rfl, hvs⟩
    -- The brace is the end already: no statement begins with one.
    rcases statements_begin hvs with ⟨rfl, rfl⟩ | ⟨v, us, rfl, hv⟩
    · exact ⟨ws, by simp, .one hs.1 (.last ws)⟩
    · have hv' : v = .symbol "\x7d" := by
        rcases hus with hus | hus
        · simp at hus
        · exact hus.trans hbrace
      rw [hv'] at hv
      exact absurd hv (by decide)
  · rw [decide_eq_false hbrace]
    exact .complain hlast

/-- What follows the opening brace of a block. -/
theorem blockBody (start : Position) (w : Terminal) :
    Reads 8 w (do
        let statements ← Parse.collect r.blockRound
        return ⟨statements, ⟨start, ← Parse.lastEnd⟩⟩)
      (Language.after (fun ws b _ => Derives longestFit (.block b) ws) [.symbol "\x7b"]) := by
  have hend : blockLanguage [.symbol "\x7d"] [] .newLine :=
    ⟨[], rfl, .nil (.none emptyLines_nil)⟩
  refine (Reads.collect hend (.symbol (by decide)) h.blockRound w).bind
    fun ws ss w' hss => .lastEnd fun p => .pure ?_
  obtain ⟨vs, rfl, items, rfl, hitems, hvs⟩ := hss
  have hblock := Derives.block ⟨start, p⟩ hitems hvs
  simpa [Language.after] using hblock

theorem block (w : Terminal) : Reads 10 w r.block fun ws b _ => Derives longestFit (.block b) ws :=
  .expectSymbol (by decide) fun t w' _ => h.blockBody t.span.start w'

theorem signature (w : Terminal) : Reads 6 w r.signature fun ws s _ => SignatureText s ws := by
  have hparameter : ∀ w, Reads 2 w r.parameter fun ws p _ => ParameterText p ws := fun w =>
    .expectName fun x w' => .map ((h.typeAfter _ w').mono fun _ _ _ ht => .intro x ht)
  have hparameters : ∀ w, Reads 6 w r.parameters fun ws ps _ =>
      Items (fun us p => ParameterText p us) Parenthesized ws ps := fun w => by
    refine .expectSymbol (by decide) fun _ w₁ _ => .skip fun _ nl w₂ hnl =>
      (Reads.commaSeparated hparameter w₂).bind fun ws ps w₃ hps =>
        .expectSymbol (by decide) fun _ w₄ _ => .pure ?_
    exact hps.mono fun _ hws => .intro hnl hws
  refine (hparameters w).bind fun ws ps w' hps =>
    .map ((h.typeAfter _ w').mono fun us t _ ht => ?_)
  obtain ⟨items, rfl, hitems, hws⟩ := hps
  exact .intro hitems hws ht

/-! Expressions. -/

omit h in
theorem literal
    (hw : (∃ text, w = .number text) ∨ (∃ x, w = .name x) ∨ ∃ value, w = .string value) :
    Reads 2 w Parse.literal (openLanguage .unary) := by
  have hviable := openLanguage_viable .unary
  have hprimary {e : Expr} {w w' : Terminal} (he : Derives longestFit (.expr .primary e) [w]) :
      openLanguage .unary [w] e w' := ⟨.primary, he, by decide, BindingPower.le_primary _⟩
  refine .current hviable fun t _ ht => ?_
  rcases hw with ⟨text, rfl⟩ | ⟨x, rfl⟩ | ⟨value, rfl⟩
  · obtain ⟨hk, rfl⟩ := Token.terminal_number.1 ht
    rw [hk]
    dsimp only
    cases hv : Double.ofText? t.text with
    | some v =>
      have hvalue : v = numberValue t.text := by rw [numberValue, hv]; rfl
      refine .advance hviable (by simp) (by rw [Terminal.Finite, hv]; rfl) (Nat.zero_le _)
        fun _ _ _ => .pure ?_
      rw [hvalue]
      exact hprimary (.number t.text t.span)
    | none =>
      exact ⟨hviable, fun c _ hc => ⟨⟨rfl, .inr ⟨(Token.terminal_number.1 hc).1, rfl⟩⟩, [], .refl c,
        by simp, hviable⟩⟩
  · obtain ⟨hk, rfl⟩ := Token.terminal_name.1 ht
    rw [hk]
    exact .advance hviable (by simp) trivial (Nat.zero_le _)
      fun _ _ _ => .pure (hprimary (.name t.text t.span))
  · obtain ⟨hk, rfl⟩ := Token.terminal_string.1 ht
    rw [hk]
    exact .advance hviable (by simp) trivial (Nat.zero_le _)
      fun _ _ _ => .pure (hprimary (.string t.text t.span))

theorem exprStart {start : ExprStart} {t : Token} (ht : t.Genuine)
    (hs : Grammar.script.starts.get? t.key = some start) :
    Reads 2 t.terminal (start.read r) (openLanguage .unary) := by
  have hviable := openLanguage_viable .unary
  rcases Grammar.start_cases ht hs with ⟨rfl, hw⟩ | ⟨rfl, operator, hop, hw⟩ | ⟨rfl, hw⟩ | ⟨rfl, hw⟩
  · exact literal hw
  · rw [hw]
    refine .advance hviable (by simp) trivial (by decide) fun o w' ho =>
      .map ((h.expr .unary (by decide) w').mono ?_)
    rintro us e w'' ⟨he, hbound⟩
    rw [(Token.terminal_symbol.1 ho).2]
    exact ⟨.unary, .prefixed _ hop he, Nat.le_refl _, hbound⟩
  · rw [hw]
    refine .advanceLine (m := 4) hviable (by simp) trivial (by decide) fun _ nl w' _ hnl =>
      (h.expr .default (by decide) w').bind fun ws e w'' he => .skip fun _ nl' w₃ hnl' =>
        .expectSymbol (by decide) fun _ w₄ _ => .pure ?_
    have hgroup := Derives.grouping hnl he.1 hnl'
    exact ⟨.primary, by simpa [Language.after] using hgroup, by decide, BindingPower.le_primary _⟩
  · rw [hw]
    refine .advance (m := 16) hviable (by simp) trivial (by decide) fun o w' _ =>
      (h.signature w').bind fun ws s w'' hs => (h.block w'').bind fun us b w₃ hb =>
        .lastEnd fun p => .pure ?_
    have hclosure := Derives.closure ⟨o.span.start, p⟩ hs hb
    exact ⟨.primary, by simpa [Language.after] using hclosure, by decide, BindingPower.le_primary _⟩

/-- A tail makes an expression of its own level out of one that is as tight as it has to be. -/
theorem exprTail {tail : ExprTail} {text : String} {power next : BindingPower} {left : Expr}
    {ws : List Terminal} {tier : Tier} (htail : Grammar.TailOf text next tail) (hp : power < next)
    (hleft : Derives longestFit (.expr tier left) ws) (hrank : power.tier.rank ≤ tier.rank)
    (hbound : next ≤ tier.bound) :
    Reads 0 (.symbol text) (tail.read r left next) ((openLanguage power.tier).after ws) := by
  have hviable : ((openLanguage power.tier).after ws).Viable 0 [] :=
    Language.viable_after.2 <| Language.viable_of_mem (w := .newLine) <| by
      rw [List.append_nil]
      exact ⟨tier, hleft, hrank, by rw [power_newLine]; exact Nat.zero_le _⟩
  cases htail with
  | assignment hop =>
    refine .advanceLine hviable (by simp) trivial (by decide) fun o nl w' ho hnl =>
      .map ((h.expr .comma (by decide) w').mono ?_)
    rintro us e w'' ⟨he, hw⟩
    rw [(Token.terminal_symbol.1 ho).2]
    have htarget := hleft.loosen (Tier.logic_le_of_bound hbound)
    refine ⟨.expr, .assignment _ hop htarget hnl he, ?_, hw⟩
    rw [BindingPower.tier_of_lt_assignment hp]
  | binary level hop =>
    obtain ⟨hnext, hlevel, hunary⟩ := Tier.next_of_operator hop
    refine .advanceLine hviable (by simp) trivial (by decide) fun o nl w' ho hnl =>
      .map ((h.expr _ hunary w').mono ?_)
    rintro us e w'' ⟨he, hw⟩
    rw [(Token.terminal_symbol.1 ho).2]
    have hloose := hleft.loosen (Tier.rank_le_of_bound hop hbound)
    exact ⟨level, .binary _ hop hnext hloose hnl he, Tier.rank_le_of_lt hop hp, hlevel ▸ hw⟩
  | call htext =>
    subst htext
    refine .advanceLine (m := 4) hviable (by simp) trivial (by decide) fun _ nl w' _ hnl =>
      (Reads.commaSeparated (fun w => (h.expr .default (by decide) w).mono fun us e w he => he.1)
        w').bind fun us es w'' hes => .expectSymbol (by decide) fun _ w₃ _ => .lastEnd fun p =>
          .pure ?_
    obtain ⟨items, rfl, hitems, hus⟩ := hes
    have hcallee := hleft.loosen (Tier.suffixed_le_of_bound hbound)
    have hcall := Derives.call ⟨left.span.start, p⟩ hcallee hitems (.intro hnl hus)
    exact ⟨.suffixed, by simpa [Language.after] using hcall,
      Nat.le_trans power.tier_rank_le (by decide), BindingPower.le_primary _⟩
  | member htext =>
    subst htext
    refine .advance (m := 2) hviable (by simp) trivial (by decide) fun _ w' _ =>
      .expectName fun x w'' => .lastEnd fun p => .pure ?_
    have hobject := hleft.loosen (Tier.suffixed_le_of_bound
      (BindingPower.le_trans (by decide : BindingPower.call ≤ .member) hbound))
    have hmember := Derives.member x ⟨left.span.start, p⟩ hobject
    exact ⟨.suffixed, by simpa [Language.after] using hmember,
      Nat.le_trans power.tier_rank_le (by decide), BindingPower.le_primary _⟩

theorem exprRound (power : BindingPower) (ws : List Terminal) (left : Expr) (w : Terminal)
    (hleft : openLanguage power.tier ws left w) :
    Reads 0 w (Grammar.script.exprRound r power left)
      (stepsTo (openLanguage power.tier) (exprLanguage power) ws) := by
  obtain ⟨tier, hws, hr, hbound⟩ := hleft
  have hdone := hws.loosen hr
  have hviable : (stepsTo (openLanguage power.tier) (exprLanguage power) ws).Viable 0 [] :=
    Language.viable_of_mem (a := .done left) (w := .newLine) <| by
      rw [stepsTo, List.append_nil, exprLanguage, power_newLine]
      exact ⟨hdone, Nat.zero_le _⟩
  refine .current hviable fun t ht hw => ?_
  dsimp only
  rw [Grammar.power_key ht, hw]
  by_cases hlt : power < w.power
  · rw [if_pos hlt]
    obtain ⟨text, tail, htext, htail, hread⟩ := Grammar.tail_cases ht (hw.symm ▸ hlt)
    rw [hw] at htext htail
    rw [hread]
    rw [htext] at hlt htail hbound ⊢
    exact .map (h.exprTail htail hlt hws hr hbound)
  · rw [if_neg hlt]
    refine .pure ⟨?_, BindingPower.not_lt.1 hlt⟩
    rwa [List.append_nil]

theorem exprOver (power : BindingPower) (w : Terminal) :
    Reads 2 w (Grammar.script.exprOver r power) (exprLanguage power) := by
  refine .current (exprLanguage_viable power) fun t ht hw => ?_
  cases hs : Grammar.script.starts.get? t.key with
  | none => exact .complain (exprLanguage_viable power)
  | some start =>
    have hviable : ∀ us left w', openLanguage power.tier us left w' →
        (exprLanguage power).Viable 0 us := by
      rintro us left w' ⟨tier, hus, hr, -⟩
      exact Language.viable_of_mem (w := .newLine)
        ⟨hus.loosen hr, by rw [power_newLine]; exact Nat.zero_le _⟩
    exact (hw ▸ h.exprStart ht hs).bind fun ws e w' he =>
      .iterate (h.exprRound power) hviable (openLanguage.mono power.tier_rank_le _ _ _ he)

/-! Statements. -/

theorem initializer (x : String) (w : Terminal) : Reads 0 w (r.initializer x) fun ws e w' =>
    (ws = [] ∧ ∃ span, e = .unassigned span) ∨
      ∃ value nl us, ws = .symbol "=" :: (nl ++ us) ∧ e = value.named x ∧ EmptyLines nl ∧
        exprLanguage .default us value w' := by
  refine .atSymbol ?_
  by_cases hw : w = .symbol "="
  · subst hw
    rw [decide_eq_true rfl]
    refine .advanceLine (Language.viable_of_mem (w := .newLine) (.inl ⟨rfl, default, rfl⟩))
      (by simp) trivial (by decide) fun _ nl w' _ hnl =>
        .map ((h.expr .default (by decide) w').mono fun us e w'' he => ?_)
    exact .inr ⟨e, nl, us, rfl, rfl, hnl, he⟩
  · rw [decide_eq_false hw]
    exact .lastEnd fun p => .pure (.inl ⟨rfl, _, rfl⟩)

theorem elseBlock (w : Terminal) : Reads 0 w r.elseBlock fun ws body _ =>
    (ws = [] ∧ body = none) ∨ ∃ us b, ws = .keyword .kwElse :: us ∧ body = some b ∧
      Derives longestFit (.block b) us := by
  refine .acceptKeyword (Language.viable_of_mem (a := none) (w := w) (.inl ⟨rfl, rfl⟩)) (by decide)
    (fun _ w' => .map ((h.block w').mono fun us b _ hb => ?_)) (fun _ => .pure (.inl ⟨rfl, rfl⟩))
  exact .inr ⟨us, b, rfl, rfl, hb⟩

omit h in
theorem loopVariables (w : Terminal) :
    Reads 0 w Readers.loopVariables fun ws names _ => ws = loopNames names := by
  refine .acceptKeyword (m := 4) (Language.viable_of_mem (a := []) (w := w) rfl) (by decide)
    (fun _ w' => ?_) (fun _ => .pure rfl)
  let L : Language (List String) := fun ws names _ => ∃ x xs, names = x :: xs ∧
    ws = .name x :: xs.flatMap fun y => [.symbol ",", .name y]
  have hlast : L [.name "x"] ["x"] .newLine := ⟨"x", [], rfl, rfl⟩
  refine (Reads.collect hlast .name (fun w => .expectName fun x w' => .acceptSymbol
    (Language.viable_of_mem (a := .done [x]) (w := w') ⟨x, [], rfl, rfl⟩) (Nat.zero_le _)
    (fun _ w'' => .pure ?_) (fun _ => .pure ⟨x, [], rfl, rfl⟩)) w').mono ?_
  · rintro us more _ - ⟨y, ys, rfl, rfl⟩
    exact ⟨x, y :: ys, rfl, by simp⟩
  · rintro us names w'' ⟨x, xs, rfl, rfl⟩
    rfl

theorem loopRound (w : Terminal) : Reads 4 w r.loopRound (collects loopLanguage []) := by
  have hend {nl : List Terminal} (w : Terminal) (hnl : EmptyLines nl) :
      loopLanguage (nl ++ []) [] w :=
    ⟨[], rfl, by simp, by rw [List.append_nil]; exact .nil hnl⟩
  refine .skip fun _ nl w' hnl => .atSymbol ?_
  by_cases hbrace : w' = .symbol "\x7d"
  · rw [decide_eq_true hbrace]
    exact .pure (hend w' hnl)
  rw [decide_eq_false hbrace]
  refine .atToken ?_
  by_cases hw : w' = .endOfInput
  · subst hw
    exact .pure (hend .endOfInput hnl)
  rw [decide_eq_true hw]
  refine .map ((h.statement w').mono fun ws s w'' hs => ?_)
  rintro us more _ hus ⟨items, rfl, hitems, hloose⟩
  refine ⟨(s, ws) :: items, rfl, List.forall_mem_cons.2 ⟨hs.1, hitems⟩, ?_⟩
  have hfit : longestFit s us := by
    intro hopen
    have hpower := hs.2 hopen
    rcases hus with rfl | hhead
    · simp
    · cases us with
      | nil => simp
      | cons u us =>
        obtain rfl : u = w'' := hhead
        constructor <;>
        · intro he
          rw [Option.some.inj he] at hpower
          exact absurd hpower (by decide +kernel)
  have hcons := Loosely.cons ws hnl hfit hloose
  rwa [List.append_assoc]

omit h in
theorem superclass (w : Terminal) :
    Reads 0 w Readers.superclass fun ws name _ => ws = superclassText name :=
  .acceptSymbol (m := 2) (Language.viable_of_mem (a := none) (w := w) rfl) (by decide)
    (fun _ _ => .expectName fun _ _ => .pure rfl) (fun _ => .pure rfl)

omit h in
/-- A statement that begins with a word of its own, which pays for the rest of it. -/
theorem statementBehind {word : Keyword} {m : Nat} {f : Token → Parse Statement}
    (hle : m ≤ 4 + credit) (hf : ∀ t w, t.terminal = .keyword word →
      Reads m w (f t) (statementLanguage.after [.keyword word])) :
    Reads 4 (.keyword word) (Parse.advance >>= f) statementLanguage :=
  .advance (statementLanguage_viable.weaken (by decide)) (by simp) trivial hle hf

theorem statementForm {form : StatementForm} {w : Terminal} (hform : Grammar.Opens w form) :
    Reads 4 w (form.read r) statementLanguage := by
  cases hform with
  | block =>
    have hempty := @Derives.block longestFit [] [] default (by simp) (.none emptyLines_nil)
    have hblock : Reads 4 (.symbol "\x7b") r.block fun us b _ => Derives longestFit (.block b) us :=
      .expect ⟨[.symbol "\x7b", .symbol "\x7d"], _, .newLine,
        (Fill.symbol (by decide)).append (.symbol (by decide)), hempty⟩ (by decide)
        fun t w' _ _ => ⟨by simp, trivial, h.blockBody t.span.start w'⟩
    exact .map (hblock.mono fun us b _ hb => ⟨.nested hb, fun hopen => by cases hopen⟩)
  | conditional =>
    refine statementBehind (m := 12) (by decide) fun o w₁ _ =>
      (h.expr .default (by decide) w₁).bind fun ws e w₂ he => (h.block w₂).bind
        fun vs b w₃ hb => (h.elseBlock w₃).bind fun us body w₄ hbody =>
          .lastEnd fun p => .pure ⟨?_, fun hopen => by cases hopen⟩
    rcases hbody with ⟨rfl, rfl⟩ | ⟨us, elseBody, rfl, rfl, helse⟩
    · have hs := Derives.conditional ⟨o.span.start, p⟩ he.1 hb
      simpa using hs
    · have hs := Derives.alternative ⟨o.span.start, p⟩ he.1 hb helse
      simpa using hs
  | function =>
    refine statementBehind (m := 18) (by decide) fun o w₁ _ =>
      .expectName fun x w₂ => (h.signature w₂).bind fun ws sig w₃ hsig =>
        (h.block w₃).bind fun vs b w₄ hb =>
          .lastEnd fun p => .pure ⟨?_, fun hopen => by cases hopen⟩
    have hs := Derives.function x ⟨o.span.start, p⟩ hsig hb
    simpa using hs
  | result =>
    refine statementBehind (m := 2) (by decide) fun o w₁ _ =>
      (h.expr .default (by decide) w₁).bind fun ws e w₂ he =>
        .lastEnd fun p => .pure ⟨?_, fun _ => he.2⟩
    have hs := Derives.result ⟨o.span.start, p⟩ he.1
    simpa using hs
  | loop =>
    refine statementBehind (m := 10) (by decide) fun o w₁ _ =>
      (h.expr .default (by decide) w₁).bind fun ws e w₂ he =>
        .expectSymbol (by decide) fun brace w₃ _ => .skip fun _ nl w₄ hnl =>
          (loopVariables w₄).bind fun _ names w₅ hnames =>
            (Reads.collect (v := .newLine) ⟨[], rfl, by simp, .nil emptyLines_nil⟩ (.nil 0)
              h.loopRound w₅).bind fun vs ss w₆ hss => .expectSymbol (by decide) fun _ w₇ _ =>
                .lastEnd fun p => .pure ⟨?_, fun hopen => by cases hopen⟩
    obtain ⟨items, rfl, hitems, hvs⟩ := hss
    subst hnames
    have hs := Derives.loop names ⟨brace.span.start, p⟩ ⟨o.span.start, p⟩ he.1 hnl hitems hvs
    simpa using hs
  | classDefinition =>
    refine statementBehind (m := 12) (by decide) fun o w₁ _ =>
      .expectName fun x w₂ => (superclass w₂).bind fun _ name w₃ hname =>
        (h.block w₃).bind fun ws b w₄ hb =>
          .lastEnd fun p => .pure ⟨?_, fun hopen => by cases hopen⟩
    subst hname
    have hs := Derives.classDefinition x name ⟨o.span.start, p⟩ hb
    simpa using hs
  | declaration changes =>
    refine statementBehind (m := 2) (by decide) fun o w₁ ho =>
      .expectName fun x w₂ => (h.typeAfter _ w₂).bind fun ws type w₃ hws =>
        (h.initializer x w₃).bind fun vs e w₄ he => .lastEnd fun p => .pure ?_
    have hchanges : o.isKeyword .kwVar = changes := by
      rw [Token.isKeyword_eq, ho]
      cases changes <;> rfl
    rw [hchanges]
    rcases he with ⟨rfl, span, rfl⟩ | ⟨value, nl, us, rfl, rfl, hnl, hvalue⟩
    · have hs : Derives longestFit _ _ := .unassigned changes x span ⟨o.span.start, p⟩ hws
      exact ⟨by simpa using hs, fun hopen => by cases hopen⟩
    · have hs := Derives.declaration changes x ⟨o.span.start, p⟩ hws hnl hvalue.1
      exact ⟨by simpa using hs, fun _ => hvalue.2⟩

theorem statementOver (w : Terminal) :
    Reads 4 w (Grammar.script.statementOver r) statementLanguage := by
  refine ⟨statementLanguage_viable.weaken (by decide), fun c hc hw => ?_⟩
  rw [Grammar.statementOver_eq, hw]
  cases hform : Grammar.form? w with
  | some form => exact (h.statementForm (Grammar.opens_of_form hform)).fits c hc hw
  | none =>
    have hexpr : Reads 2 w (r.expr .default) fun ws e w' =>
        statementLanguage ws (.expression e e.span) w' := by
      refine (h.expr .default (by decide) w).sharpen ⟨[.name "x"], .name "x" default, .newLine,
        .name, .expression _ (derives_x _) (by simp), fun _ => ?_⟩ fun us e w' hhead he => ?_
      · rw [power_newLine]
        exact Nat.zero_le _
      · refine ⟨.expression _ he.1 fun hfunction => ?_, fun _ => he.2⟩
        cases us with
        | nil => cases hfunction
        | cons u us =>
          obtain rfl : u = w := hhead
          rw [Option.some.inj hfunction] at hform
          cases hform
    exact (hexpr.map.weaken (by decide)).fits c hc hw

end Readers.Sound
namespace Grammar

theorem reads_typeExpr (power : BindingPower) (w : Terminal) :
    Reads 6 w (script.typeExpr power) fun ws t _ => TypeText t ws := by
  let K : Language TypeExpr := fun ws t _ => TypeText t ws
  have hviable : K.Viable 6 [] :=
    ⟨[.name "x"], _, .newLine, Fill.name.weaken (by decide), .named "x" default⟩
  have hround : ∀ ws a w, K ws a w → Reads 4 w (script.typeRound power a) (stepsTo K K ws) := by
    intro ws a w ha
    have hstay : (stepsTo K K ws).Viable 4 [] :=
      Language.viable_of_mem (a := .done a) (w := w) (by rwa [stepsTo, List.append_nil])
    have hpure : Reads 4 w (pure (.done a)) (stepsTo K K ws) :=
      .pure (by rwa [stepsTo, List.append_nil])
    refine .current hstay fun t _ _ => ?_
    dsimp only
    cases script.typePowers.get? t.key with
    | none => exact hpure
    | some next =>
      dsimp only
      split
      · cases script.typeTails.get? t.key with
        | none => exact .complain hstay
        | some tail =>
          cases tail
          refine .map (.expectSymbol (by decide) fun _ _ _ => .expectSymbol (by decide)
            fun _ _ _ => .pure ?_)
          exact TypeText.array ha
      · exact hpure
  refine .current hviable fun t _ _ => ?_
  cases script.typeStarts.get? t.key with
  | none => exact .complain hviable
  | some start =>
    cases start
    have hname : Reads 2 w Parse.namedType K :=
      .expectNameToken fun t x w' ht => .pure (by
        rw [(Token.terminal_name.1 ht).2]
        exact .named x _)
    exact hname.bind fun ws a w' ha => .iterate hround
      (fun ws a w ha => Language.viable_of_mem (n := 0) (w := w) ha) ha

theorem checked_sound {exprs statements : Cursor → Prop} [DecidablePred exprs]
    [DecidablePred statements]
    (he : ∀ c, exprs c → c.Genuine → ∀ power ≤ .unary,
      (script.expr power c).Fits 2 c (exprLanguage power))
    (hs : ∀ c, statements c → c.Genuine → (script.statement c).Fits 4 c statementLanguage) :
    Readers.Sound (checked exprs statements) where
  typeExpr := reads_typeExpr _
  expr power hp _ :=
    reads_checked _ (exprLanguage_viable power) fun c hpass hc _ => he c hpass hc power hp
  statement _ := reads_checked _ (statementLanguage_viable.weaken (by decide))
    fun c hpass hc _ => hs c hpass hc

/-- The step is from the constructs that have fewer tokens left to the one at hand. -/
private theorem sound_below (n : Nat) : ∀ c : Cursor, c.remaining < n → c.Genuine →
    (∀ power ≤ .unary, (script.expr power c).Fits 2 c (exprLanguage power)) ∧
      (script.statement c).Fits 4 c statementLanguage := by
  induction n with
  | zero => exact fun _ hc => absurd hc (Nat.not_lt_zero _)
  | succ n ih =>
    have hexpr : ∀ c : Cursor, c.remaining < n + 1 → c.Genuine → ∀ power ≤ .unary,
        (script.expr power c).Fits 2 c (exprLanguage power) := by
      intro c hn hc power _
      have hr : Readers.Sound
          (checked (·.remaining < c.remaining) (·.remaining < c.remaining)) :=
        checked_sound (fun d hd hgen => (ih d (by omega) hgen).1)
          (fun d hd hgen => (ih d (by omega) hgen).2)
      have hover := (hr.exprOver power _).fits c hc rfl
      rwa [checked, ← Grammar.expr.eq_1] at hover
    refine fun c hn hc => ⟨hexpr c hn hc, ?_⟩
    have hr : Readers.Sound
        (checked (·.remaining ≤ c.remaining) (·.remaining < c.remaining)) :=
      checked_sound (fun d hd hgen => hexpr d (by omega) hgen)
        (fun d hd hgen => (ih d (by omega) hgen).2)
    have hover := (hr.statementOver _).fits c hc rfl
    rwa [checked, ← Grammar.statement.eq_1] at hover

theorem script_sound : Readers.Sound script.readers where
  typeExpr := reads_typeExpr _
  expr power hp _ := ⟨exprLanguage_viable power, fun c hc _ =>
    (sound_below (c.remaining + 1) c (Nat.lt_succ_self _) hc).1 power hp⟩
  statement _ := ⟨statementLanguage_viable.weaken (by decide), fun c hc _ =>
    (sound_below (c.remaining + 1) c (Nat.lt_succ_self _) hc).2⟩

/-- Statements on lines up to the end of the input. -/
def programLanguage : Language (List Statement) := fun ws ss w =>
  Items (fun us s => Derives longestFit (.statement s) us) OnLines ws ss ∧ w = .endOfInput

theorem programRound_reads (w : Terminal) :
    Reads 4 w script.programRound (collects programLanguage []) := by
  refine .skip fun _ nl w' hnl => .atToken ?_
  by_cases hw : w' = .endOfInput
  · subst hw
    exact .pure ⟨.nil (by rw [List.append_nil]; exact .none hnl), rfl⟩
  rw [decide_eq_true hw]
  refine (script_sound.statement w').bind fun ws s w'' hs => .atToken ?_
  have hlast : Items (fun us s => Derives longestFit (.statement s) us) OnLines (nl ++ ws) [s] :=
    .one hs.1 ((OnLines.last ws).behind hnl)
  by_cases hend : w'' = .endOfInput
  · subst hend
    refine .pure ?_
    rintro us more _ hus ⟨hmore, rfl⟩
    rcases statements_begin hmore with ⟨rfl, rfl⟩ | ⟨v, us, rfl, hv⟩
    · exact ⟨by simpa using hlast, rfl⟩
    · have hv' : v = .endOfInput := by
        rcases hus with hus | hus
        · cases hus
        · exact hus
      subst hv'
      rcases hv with hv | hv <;> cases hv
  rw [decide_eq_true hend]
  have hdone : (((collects programLanguage []).after nl).after ws).Viable 0 [] :=
    Language.viable_of_mem (a := .done [s]) (w := .endOfInput) ⟨by simpa using hlast, rfl⟩
  refine .acceptNewLine hdone (Nat.zero_le _) (fun _ _ => .pure ?_) (fun _ => .complain hdone)
  · rintro us more _ - ⟨hmore, rfl⟩
    refine ⟨.cons hs.1 hmore fun _ hpieces => ?_, rfl⟩
    have hcons := (OnLines.cons ws hpieces).behind hnl
    simpa using hcons

theorem program_reads (file : String) (w : Terminal) :
    Reads 4 w (script.program file) fun ws b w' => programLanguage ws b.statements w' := by
  have hend : programLanguage [] [] .endOfInput := ⟨.nil (.none emptyLines_nil), rfl⟩
  refine (Reads.collect hend (.nil 0) programRound_reads w).bind fun ws ss w' hss =>
    .lastEnd fun p => .pure ?_
  change programLanguage (ws ++ []) ss w'
  rwa [List.append_nil]

end Grammar
end ScriptSyntax
