import ScriptSyntax.Lexeme
import ScriptSyntax.Proofs.Derivation
import ScriptSyntax.Proofs.Passage
import ScriptSyntax.Parse.Program

/-! Tokens and their terminals: what tests and tables say about a token in terms of the terminal
that it is, and which terminals a cursor passes on its way. -/
namespace ScriptSyntax

/-- The texts of symbols and reserved words are as the lexer reads them. -/
structure Token.Genuine (t : Token) : Prop where
  symbol : t.kind = .symbol → t.text.toList ∈ Pattern.symbols
  keyword : ∀ word, t.kind = .keyword word → t.text = word.text

/-- A terminal that some source text spells. -/
def Terminal.Lexical : Terminal → Prop
  | endOfInput => False
  | number text => Pattern.readNumber? text.toList = some text.toList
  | symbol text => text.toList ∈ Pattern.symbols
  | name x => Pattern.readWord? x.toList = some x.toList ∧ Keyword.ofText? x = none
  | newLine | string _ | keyword _ => True

/-- A number has to have a value that is not too large. -/
def Terminal.Finite : Terminal → Prop
  | number text => (Double.ofText? text).isSome
  | _ => True

/-- The key under which a terminal is in the tables. -/
def Terminal.key : Terminal → String
  | endOfInput => "<eof>"
  | newLine => "<newline>"
  | number _ => "<number>"
  | string _ => "<string>"
  | symbol text => text
  | name _ => "<identifier>"
  | keyword word => word.text

/-- How tightly a terminal binds what stands before it. -/
def Terminal.power (w : Terminal) : BindingPower :=
  (Grammar.script.powers.get? w.key).getD .default

namespace Token
variable {t : Token}

theorem key_eq (h : t.Genuine) : t.key = t.terminal.key := by
  rw [key, terminal]
  cases hk : t.kind with
  | keyword word => exact h.keyword word hk
  | _ => rfl

theorem terminal_endOfInput : t.terminal = .endOfInput ↔ t.kind = .endOfInput := by
  rw [terminal]
  cases t.kind <;> simp

theorem terminal_newLine : t.terminal = .newLine ↔ t.kind = .newLine := by
  rw [terminal]
  cases t.kind <;> simp

theorem terminal_symbol {text : String} :
    t.terminal = .symbol text ↔ t.kind = .symbol ∧ t.text = text := by
  rw [terminal]
  cases t.kind <;> simp

theorem terminal_keyword {word : Keyword} :
    t.terminal = .keyword word ↔ t.kind = .keyword word := by
  rw [terminal]
  cases t.kind <;> simp

theorem terminal_name {x : String} : t.terminal = .name x ↔ t.kind = .name ∧ t.text = x := by
  rw [terminal]
  cases t.kind <;> simp

theorem terminal_number {text : String} :
    t.terminal = .number text ↔ t.kind = .number ∧ t.text = text := by
  rw [terminal]
  cases t.kind <;> simp

theorem terminal_string {text : String} :
    t.terminal = .string text ↔ t.kind = .string ∧ t.text = text := by
  rw [terminal]
  cases t.kind <;> simp

theorem exists_terminal (w : Terminal) : ∃ t : Token, t.terminal = w := by
  cases w with
  | endOfInput => exact ⟨⟨.endOfInput, "", default⟩, rfl⟩
  | newLine => exact ⟨⟨.newLine, "", default⟩, rfl⟩
  | number text => exact ⟨⟨.number, text, default⟩, rfl⟩
  | string value => exact ⟨⟨.string, value, default⟩, rfl⟩
  | symbol text => exact ⟨⟨.symbol, text, default⟩, rfl⟩
  | name x => exact ⟨⟨.name, x, default⟩, rfl⟩
  | keyword word => exact ⟨⟨.keyword word, "", default⟩, rfl⟩

theorem isSymbol_eq (text : String) : t.isSymbol text = decide (t.terminal = .symbol text) := by
  rw [isSymbol, Bool.eq_iff_iff]
  simp [terminal_symbol]

theorem isKeyword_eq (word : Keyword) :
    t.isKeyword word = decide (t.terminal = .keyword word) := by
  rw [isKeyword, Bool.eq_iff_iff]
  simp [terminal_keyword]

theorem symbol_mem (h : t.Genuine) {text : String} (ht : t.terminal = .symbol text) :
    text.toList ∈ Pattern.symbols := by
  obtain ⟨hk, rfl⟩ := terminal_symbol.1 ht
  exact h.symbol hk

end Token

namespace Grammar
variable {t : Token}

/-- The start that a symbol is, if it is one. -/
theorem start_symbol {text : String} (h : text.toList ∈ Pattern.symbols) :
    script.starts.get? text =
      if text ∈ ["-", "!"] then some .prefixed
      else if text = "(" then some .grouping else none := by
  have hall : ∀ cs ∈ Pattern.symbols, script.starts.get? (String.ofList cs) =
      if String.ofList cs ∈ ["-", "!"] then some .prefixed
      else if String.ofList cs = "(" then some .grouping else none := by decide +kernel
  have ht := hall _ h
  rwa [String.ofList_toList] at ht

theorem start_keyword (word : Keyword) :
    script.starts.get? word.text = if word = .kwFunction then some .closure else none := by
  cases word <;> decide +kernel

/-- What an expression may begin with, and what each start is for. -/
theorem start_cases (h : t.Genuine) {start : ExprStart}
    (hs : script.starts.get? t.key = some start) :
    (start = .literal ∧
        ((∃ text, t.terminal = .number text) ∨ (∃ x, t.terminal = .name x) ∨
          ∃ value, t.terminal = .string value)) ∨
      (start = .prefixed ∧ ∃ operator ∈ ["-", "!"], t.terminal = .symbol operator) ∨
      (start = .grouping ∧ t.terminal = .symbol "(") ∨
      (start = .closure ∧ t.terminal = .keyword .kwFunction) := by
  rw [Token.key_eq h] at hs
  cases ht : t.terminal with
  | endOfInput =>
    rw [ht, show script.starts.get? Terminal.endOfInput.key = none by decide +kernel] at hs
    cases hs
  | newLine =>
    rw [ht, show script.starts.get? Terminal.newLine.key = none by decide +kernel] at hs
    cases hs
  | number text =>
    rw [ht, Terminal.key,
      show script.starts.get? "<number>" = some .literal by decide +kernel] at hs
    exact .inl ⟨(Option.some.inj hs).symm, .inl ⟨text, rfl⟩⟩
  | name x =>
    rw [ht, Terminal.key,
      show script.starts.get? "<identifier>" = some .literal by decide +kernel] at hs
    exact .inl ⟨(Option.some.inj hs).symm, .inr (.inl ⟨x, rfl⟩)⟩
  | string value =>
    rw [ht, Terminal.key,
      show script.starts.get? "<string>" = some .literal by decide +kernel] at hs
    exact .inl ⟨(Option.some.inj hs).symm, .inr (.inr ⟨value, rfl⟩)⟩
  | symbol text =>
    rw [ht, Terminal.key, start_symbol (Token.symbol_mem h ht)] at hs
    split at hs
    · next hop => exact .inr (.inl ⟨(Option.some.inj hs).symm, text, hop, rfl⟩)
    · split at hs
      · next hop => exact .inr (.inr (.inl ⟨(Option.some.inj hs).symm, hop ▸ rfl⟩))
      · cases hs
  | keyword word =>
    rw [ht, Terminal.key, start_keyword] at hs
    split at hs
    · next hw => exact .inr (.inr (.inr ⟨(Option.some.inj hs).symm, hw ▸ rfl⟩))
    · cases hs

end Grammar

/-- The power of the operators of a level. -/
def Tier.power : Tier → BindingPower
  | expr => .assignment
  | logic => .logical
  | rel => .relational
  | add => .additive
  | mul => .multiplicative
  | unary | suffixed | primary => .call

/-- What follows an expression of a level without belonging to a part of it binds no tighter. -/
def Tier.bound : Tier → BindingPower
  | expr => .comma
  | logic => .logical
  | rel => .relational
  | add => .additive
  | mul => .multiplicative
  | unary => .unary
  | suffixed | primary => .primary

/-- The level of the expressions whose tails all bind more tightly than a power. -/
def BindingPower.tier : BindingPower → Tier
  | default | comma => .expr
  | assignment => .logic
  | logical => .rel
  | relational => .add
  | additive => .mul
  | _ => .unary

namespace BindingPower
variable {p q : BindingPower}

theorem not_lt {p q : BindingPower} : ¬ p < q ↔ q ≤ p := Nat.not_lt

theorem le_trans {p q s : BindingPower} (h : p ≤ q) (h' : q ≤ s) : p ≤ s := Nat.le_trans h h'

theorem lt_of_lt_of_le {p q s : BindingPower} (h : p < q) (h' : q ≤ s) : p < s :=
  Nat.lt_of_lt_of_le h h'

theorem le_primary (p : BindingPower) : p ≤ primary := by
  cases p <;> decide

theorem tier_rank_le (p : BindingPower) : p.tier.rank ≤ Tier.unary.rank := by
  cases p <;> decide

theorem tier_of_lt_assignment (h : p < assignment) : p.tier = .expr := by
  cases p with
  | default | comma => rfl
  | _ => exact absurd h (by decide)

end BindingPower

namespace Tier
variable {tier : Tier} {operator : String}

/-- The right operands of a level's operators are read with their own power. -/
theorem next_of_operator (h : operator ∈ tier.operators) :
    tier.next? = some tier.power.tier ∧ tier.bound = tier.power ∧ tier.power ≤ .unary := by
  cases tier with
  | logic | rel | add | mul => exact ⟨rfl, rfl, by decide⟩
  | _ => cases h

/-- A tighter level leaves less to its tails and more to what follows. -/
theorem next_le {tighter : Tier} (h : tier.next? = some tighter) :
    tier.power ≤ tighter.power ∧ tier.bound ≤ tighter.bound := by
  cases tier with
  | primary => cases h
  | _ =>
    obtain rfl := Option.some.inj h
    decide

theorem next_lt {tighter : Tier} (h : operator ∈ tier.operators)
    (hn : tier.next? = some tighter) : tier.power < tighter.power := by
  cases tier with
  | logic | rel | add | mul =>
    obtain rfl := Option.some.inj hn
    decide
  | _ => cases h

/-- Operators of a level go on with expressions of the level or a tighter one. -/
theorem rank_le_of_bound {tight : Tier} (h : operator ∈ tier.operators)
    (hb : tier.power ≤ tight.bound) : tier.rank ≤ tight.rank := by
  cases tier with
  | logic | rel | add | mul => cases tight <;> first | decide | exact absurd hb (by decide)
  | _ => cases h

theorem logic_le_of_bound (hb : BindingPower.assignment ≤ tier.bound) : logic.rank ≤ tier.rank := by
  cases tier <;> first | decide | exact absurd hb (by decide)

theorem suffixed_le_of_bound (hb : BindingPower.call ≤ tier.bound) :
    suffixed.rank ≤ tier.rank := by
  cases tier <;> first | decide | exact absurd hb (by decide)

/-- The operators of a level bind more tightly than a power only if the level is tight enough. -/
theorem rank_le_of_lt {p : BindingPower} (h : operator ∈ tier.operators) (hp : p < tier.power) :
    p.tier.rank ≤ tier.rank := by
  cases tier with
  | logic | rel | add | mul => cases p <;> first | decide | exact absurd hp (by decide)
  | _ => cases h

end Tier

namespace Grammar
variable {t : Token}

/-- What a symbol does behind an expression. -/
inductive TailOf (text : String) : BindingPower → ExprTail → Prop
  | assignment : text ∈ ["=", "+=", "-="] → TailOf text .assignment .assignment
  | binary (tier : Tier) : text ∈ tier.operators → TailOf text tier.power .binary
  | call : text = "(" → TailOf text .call .call
  | member : text = "." → TailOf text .member .member

theorem tail_symbol {text : String} (h : text.toList ∈ Pattern.symbols) :
    (script.powers.get? text = none ∧ script.tails.get? text = none) ∨
      ∃ power tail, TailOf text power tail ∧ script.powers.get? text = some power ∧
        script.tails.get? text = some tail := by
  have hall : ∀ cs ∈ Pattern.symbols,
      (script.powers.get? (String.ofList cs) = none ∧
        script.tails.get? (String.ofList cs) = none) ∨
      (String.ofList cs ∈ ["=", "+=", "-="] ∧
        script.powers.get? (String.ofList cs) = some .assignment ∧
        script.tails.get? (String.ofList cs) = some .assignment) ∨
      (∃ tier ∈ [Tier.logic, .rel, .add, .mul], String.ofList cs ∈ tier.operators ∧
        script.powers.get? (String.ofList cs) = some tier.power ∧
        script.tails.get? (String.ofList cs) = some .binary) ∨
      (String.ofList cs = "(" ∧ script.powers.get? (String.ofList cs) = some .call ∧
        script.tails.get? (String.ofList cs) = some .call) ∨
      (String.ofList cs = "." ∧ script.powers.get? (String.ofList cs) = some .member ∧
        script.tails.get? (String.ofList cs) = some .member) := by decide +kernel
  have ht := hall _ h
  rw [String.ofList_toList] at ht
  rcases ht with hnone | ⟨hop, hp, ht⟩ | ⟨tier, -, hop, hp, ht⟩ | ⟨hop, hp, ht⟩ | ⟨hop, hp, ht⟩
  · exact .inl hnone
  · exact .inr ⟨_, _, .assignment hop, hp, ht⟩
  · exact .inr ⟨_, _, .binary tier hop, hp, ht⟩
  · exact .inr ⟨_, _, .call hop, hp, ht⟩
  · exact .inr ⟨_, _, .member hop, hp, ht⟩

theorem power_keyword (word : Keyword) : script.powers.get? word.text = none := by
  cases word <;> decide +kernel

theorem power_class : ∀ key ∈ ["<eof>", "<newline>", "<number>", "<string>", "<identifier>"],
    script.powers.get? key = none := by decide +kernel

theorem power_key (h : t.Genuine) :
    (script.powers.get? t.key).getD .default = t.terminal.power := by
  rw [Token.key_eq h, Terminal.power]

/-- Only symbols bind what stands before them. -/
theorem power_of_not_symbol {w : Terminal} (h : ∀ text, w ≠ .symbol text) : w.power = .default := by
  rw [Terminal.power]
  cases w with
  | symbol text => exact absurd rfl (h text)
  | keyword word => rw [Terminal.key, power_keyword]; rfl
  | endOfInput | newLine | number _ | string _ | name _ =>
    rw [power_class _ (by simp [Terminal.key])]
    rfl

/-- A token that binds what stands before it is a symbol with a tail of its own. -/
theorem tail_cases (h : t.Genuine) {power : BindingPower} (hp : power < t.terminal.power) :
    ∃ text tail, t.terminal = .symbol text ∧ TailOf text t.terminal.power tail ∧
      script.tails.get? t.key = some tail := by
  have hnot : ¬ power < BindingPower.default := Nat.not_lt_zero _
  rw [Token.key_eq h]
  cases ht : t.terminal with
  | symbol text =>
    rw [ht, Terminal.power, Terminal.key] at hp
    rw [Terminal.power, Terminal.key]
    rcases tail_symbol (Token.symbol_mem h ht) with hnone | ⟨next, tail, htail, hnext, hread⟩
    · rw [hnone.1] at hp
      exact absurd hp hnot
    · rw [hnext]
      exact ⟨text, tail, rfl, htail, hread⟩
  | endOfInput | newLine | number _ | string _ | name _ | keyword _ =>
    rw [ht, power_of_not_symbol (by simp)] at hp
    exact absurd hp hnot

/-- The form of the statements that begin with a terminal, unless these are expressions. -/
def form? : Terminal → Option StatementForm
  | .symbol text => if text = "\x7b" then some .block else none
  | .keyword .kwIf => some .conditional
  | .keyword .kwFunction => some .function
  | .keyword .kwReturn => some .result
  | .keyword .kwFor => some .loop
  | .keyword .kwClass => some .classDefinition
  | .keyword .kwLet | .keyword .kwVar => some .declaration
  | _ => none

/-- What each form begins with. -/
inductive Opens : Terminal → StatementForm → Prop
  | block : Opens (.symbol "\x7b") .block
  | conditional : Opens (.keyword .kwIf) .conditional
  | function : Opens (.keyword .kwFunction) .function
  | result : Opens (.keyword .kwReturn) .result
  | loop : Opens (.keyword .kwFor) .loop
  | classDefinition : Opens (.keyword .kwClass) .classDefinition
  | declaration (changes : Bool) :
    Opens (.keyword (if changes then .kwVar else .kwLet)) .declaration

theorem opens_of_form {w : Terminal} {form : StatementForm} (h : form? w = some form) :
    Opens w form := by
  cases w with
  | symbol text =>
    rw [form?] at h
    split at h
    · next htext =>
      obtain rfl := Option.some.inj h
      exact htext ▸ .block
    · cases h
  | keyword word =>
    cases word with
    | kwLet =>
      obtain rfl := Option.some.inj h
      exact .declaration false
    | kwVar =>
      obtain rfl := Option.some.inj h
      exact .declaration true
    | kwIf | kwFor | kwReturn | kwFunction | kwClass =>
      obtain rfl := Option.some.inj h
      constructor
    | kwElse | kwAs => cases h
  | _ => cases h

theorem find_rule (t : Token) :
    (script.rules.find? (·.test t)).map (·.form) = form? t.terminal := by
  have hrules : script.rules = scriptRules := rfl
  rw [hrules, scriptRules]
  simp only [List.find?_cons, TokenTest.symbol, TokenTest.keyword, Token.isSymbol_eq,
    Token.isKeyword_eq]
  cases t.terminal with
  | symbol text => by_cases h : text = "\x7b" <;> simp [form?, h]
  | keyword word => cases word <;> rfl
  | _ => rfl

/-- A statement by the terminal that it begins with. -/
theorem statementOver_eq (r : Readers) (c : Cursor) :
    script.statementOver r c = match form? c.current.terminal with
      | some form => form.read r c
      | none => (r.expr .default >>= fun e => pure (.expression e e.span)) c := by
  rw [← find_rule, statementOver, Parse.current_bind]
  cases script.rules.find? (·.test c.current) <;> rfl

end Grammar

theorem power_newLine : Terminal.newLine.power = .default :=
  Grammar.power_of_not_symbol (by simp)

/-! The way of a cursor in terminals. -/
namespace Cursor
variable {c d e : Cursor} {ws vs : List Terminal} {w : Terminal}

/-- All tokens of the list are as the lexer makes them. -/
def Genuine (c : Cursor) : Prop := ∀ t ∈ c.tokens, t.Genuine

/-- One place is reached from another by consuming tokens that are some terminals. -/
def Spells (c : Cursor) (ws : List Terminal) (d : Cursor) : Prop :=
  ∃ ts, c.Passes ts d ∧ ts.map Token.terminal = ws

theorem Genuine.current (h : c.Genuine) : c.current.Genuine :=
  h _ (List.mem_of_getElem? c.current_getElem?)

theorem Genuine.next (h : c.Genuine) : c.next.Genuine := by
  rwa [Genuine, tokens_next]

theorem Spells.genuine (h : c.Spells ws d) (hc : c.Genuine) : d.Genuine := by
  obtain ⟨ts, hts, -⟩ := h
  rwa [Genuine, hts.tokens]

theorem Spells.refl (c : Cursor) : c.Spells [] c := ⟨[], .refl c, rfl⟩

theorem spells_nil : c.Spells [] d ↔ c = d := by
  constructor
  · rintro ⟨ts, hts, hnil⟩
    rw [List.map_eq_nil_iff] at hnil
    subst hnil
    exact hts
  · rintro rfl
    exact .refl c

theorem spells_cons :
    c.Spells (w :: ws) d ↔ c.current.terminal = w ∧ w ≠ .endOfInput ∧ c.next.Spells ws d := by
  constructor
  · rintro ⟨ts, hts, hmap⟩
    obtain ⟨t, us, rfl, rfl, hus⟩ := List.map_eq_cons_iff.1 hmap
    obtain ⟨rfl, hk, hts⟩ := hts
    exact ⟨rfl, fun he => hk (Token.terminal_endOfInput.1 he), us, hts, hus⟩
  · rintro ⟨rfl, hne, us, hus, rfl⟩
    exact ⟨c.current :: us, ⟨rfl, fun hk => hne (Token.terminal_endOfInput.2 hk), hus⟩, rfl⟩

theorem spells_append : c.Spells (ws ++ vs) e ↔ ∃ d, c.Spells ws d ∧ d.Spells vs e := by
  induction ws generalizing c with
  | nil => simp [spells_nil]
  | cons w ws ih => simp only [List.cons_append, spells_cons, ih, exists_and_left, and_assoc]

theorem Spells.append (h : c.Spells ws d) (h' : d.Spells vs e) : c.Spells (ws ++ vs) e :=
  spells_append.2 ⟨d, h, h'⟩

theorem Spells.next (h : c.current.terminal = w) (hw : w ≠ .endOfInput) : c.Spells [w] c.next :=
  spells_cons.2 ⟨h, hw, .refl _⟩

theorem Spells.remaining (h : c.Spells ws d) : d.remaining + ws.length = c.remaining := by
  obtain ⟨ts, hts, rfl⟩ := h
  rw [List.length_map]
  exact hts.remaining

/-- What is spelled begins with the current terminal. -/
theorem Spells.headD (h : c.Spells ws d) : ws.headD d.current.terminal = c.current.terminal := by
  cases ws with
  | nil => rw [spells_nil.1 h]; rfl
  | cons w ws => exact (spells_cons.1 h).1.symm

/-- The ends of lines from the current token on. -/
theorem spells_skip (c : Cursor) :
    ∃ nl, EmptyLines nl ∧ c.Spells nl (c.skip .newLine) := by
  refine ⟨(c.run .newLine).map Token.terminal, ?_, _, c.passes_skip _, rfl⟩
  intro w hw
  obtain ⟨t, ht, rfl⟩ := List.mem_map.1 hw
  exact Token.terminal_newLine.2 (kind_of_mem_run ht)

theorem skip_of_terminal (h : c.current.terminal ≠ .newLine) : c.skip .newLine = c :=
  skip_of_ne fun hk => h (Token.terminal_newLine.2 hk)

/-- Empty lines up to another token are skipped. -/
theorem Spells.skip (h : c.Spells ws d) (hws : EmptyLines ws) (hd : d.current.terminal ≠ .newLine) :
    c.skip .newLine = d := by
  induction ws generalizing c with
  | nil =>
    obtain rfl := spells_nil.1 h
    exact skip_of_terminal hd
  | cons w ws ih =>
    obtain ⟨hcur, -, hnext⟩ := spells_cons.1 h
    obtain ⟨hw, hws⟩ := List.forall_mem_cons.1 hws
    rw [(skip_next (Token.terminal_newLine.1 (hcur.trans hw)) (by simp)).1]
    exact ih hnext hws

end Cursor
end ScriptSyntax
