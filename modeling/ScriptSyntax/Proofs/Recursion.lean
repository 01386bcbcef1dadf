import ScriptSyntax.Parse.Program
import ScriptSyntax.Proofs.Passage

/-! The recursion of the script grammar always has an end: between two calls for the same construct
a token is consumed, so the checks of the recursion never fail and can be left out. -/
namespace ScriptSyntax

/-- An outcome that is an end, and one after at least so many tokens if it is a value. -/
def Outcome.Ends {α : Type} (c : Cursor) (least : α → Nat) : Outcome α → Prop
  | .done a d => d.remaining + least a ≤ c.remaining
  | .failed _ _ => True
  | .endless => False

theorem Outcome.Ends.mono {α : Type} {o : Outcome α} {c c' : Cursor} {least less : α → Nat}
    (h : o.Ends c least)
    (hm : ∀ a (d : Cursor), d.remaining + least a ≤ c.remaining →
      d.remaining + less a ≤ c'.remaining) :
    o.Ends c' less := by
  cases o with
  | done a d => exact hm a d h
  | failed _ _ => trivial
  | endless => exact h

/-- An outcome with items put before its own. -/
def Outcome.prepend {α : Type} (items : List α) : Outcome (List α) → Outcome (List α)
  | .done more c => .done (items ++ more) c
  | .failed e c => .failed e c
  | .endless => .endless

namespace Parse
variable {α β : Type} {p q : Parse α} {f g : α → Parse β} {least : α → Nat} {n : Nat} {c : Cursor}

/-- Two parsers with the same outcome at a cursor, which is an end. -/
def AgreeAt (c : Cursor) (p q : Parse α) (least : α → Nat) : Prop :=
  p c = q c ∧ (p c).Ends c least

/-- Two parsers that agree wherever fewer than `n` tokens are left. -/
def Agree (n : Nat) (p q : Parse α) (least : α → Nat) : Prop :=
  ∀ c : Cursor, c.remaining < n → AgreeAt c p q least

theorem AgreeAt.weaken (h : AgreeAt c p q least) {less : α → Nat} (hl : ∀ a, less a ≤ least a) :
    AgreeAt c p q less :=
  ⟨h.1, h.2.mono fun a _ hd => Nat.le_trans (Nat.add_le_add_left (hl a) _) hd⟩

theorem Agree.weaken (h : Agree n p q least) {less : α → Nat} (hl : ∀ a, less a ≤ least a) :
    Agree n p q less := fun c hc => (h c hc).weaken hl

/-- A parser that agrees with itself has an outcome everywhere. -/
theorem ne_endless_of_agree (h : ∀ n, Agree n p p least) (c : Cursor) : p c ≠ .endless := by
  intro hc
  have hend := (h (c.remaining + 1) c (Nat.lt_succ_self _)).2
  rw [hc] at hend
  exact hend

/-- The second parser has to consume what the first one has not. -/
theorem AgreeAt.bind {goal : β → Nat} (hp : AgreeAt c p q least)
    (hf : ∀ a d, d.remaining + least a ≤ c.remaining →
      AgreeAt d (f a) (g a) (fun b => goal b - least a)) :
    AgreeAt c (p >>= f) (q >>= g) goal := by
  obtain ⟨heq, hend⟩ := hp
  rw [AgreeAt, bind_apply, bind_apply, ← heq]
  cases hpc : p c with
  | done a d =>
    rw [hpc] at hend
    have hd : d.remaining + least a ≤ c.remaining := hend
    obtain ⟨heq', hend'⟩ := hf a d hd
    exact ⟨heq', hend'.mono fun b e he => by omega⟩
  | failed e d => exact ⟨rfl, trivial⟩
  | endless => rw [hpc] at hend; exact hend.elim

theorem Agree.bind {goal : β → Nat} (hp : Agree n p q least)
    (hf : ∀ a, Agree n (f a) (g a) (fun b => goal b - least a)) :
    Agree n (p >>= f) (q >>= g) goal := fun c hc =>
  (hp c hc).bind fun a d hd => hf a d (by omega)

theorem AgreeAt.pure (a : α) (h : least a = 0) : AgreeAt c (pure a) (pure a) least :=
  ⟨rfl, by rw [pure_apply, Outcome.Ends, h, Nat.add_zero]⟩

theorem agree_pure (a : α) (h : least a = 0) : Agree n (pure a) (pure a) least :=
  fun _ _ => .pure a h

theorem agree_refuse (cause : Token → Cause) : Agree n (refuse cause) (refuse cause) least :=
  fun _ _ => ⟨rfl, trivial⟩

theorem agree_complain (k : Complaint) : Agree n (complain k) (complain k) least :=
  agree_refuse _

theorem agree_lastEnd : Agree n lastEnd lastEnd (fun _ => 0) := fun _ _ => ⟨rfl, Nat.le_refl _⟩

theorem agree_current : Agree n current current (fun _ => 0) := fun _ _ => ⟨rfl, Nat.le_refl _⟩

theorem agree_advance : Agree n advance advance (fun _ => 0) :=
  fun c _ => ⟨rfl, c.remaining_next_le⟩

theorem agree_skip (kind : TokenKind) : Agree n (skip kind) (skip kind) (fun _ => 0) :=
  fun c _ => ⟨rfl, c.remaining_skip kind⟩

theorem agree_advanceLine : Agree n advanceLine advanceLine (fun _ => 0) :=
  agree_advance.bind fun _ => (agree_skip _).bind fun _ => agree_pure _ rfl

theorem agree_atSymbol (text : String) : Agree n (atSymbol text) (atSymbol text) (fun _ => 0) :=
  agree_current.bind fun _ => agree_pure _ rfl

theorem agree_atToken : Agree n atToken atToken (fun _ => 0) :=
  agree_current.bind fun _ => agree_pure _ rfl

theorem kind_of_isSymbol {t : Token} {text : String} (h : t.isSymbol text = true) :
    t.kind = .symbol := by
  simp only [Token.isSymbol, Bool.and_eq_true, decide_eq_true_eq] at h
  exact h.1

theorem kind_of_isKeyword {t : Token} {word : Keyword} (h : t.isKeyword word = true) :
    t.kind = .keyword word := of_decide_eq_true h

/-- A test that an end of input does not pass consumes a token when it is passed. -/
theorem agree_accept {test : Token → Bool} (h : ∀ t, test t = true → t.kind ≠ .endOfInput) :
    Agree n (accept test) (accept test) (fun b => b.toNat) := by
  intro c _
  refine ⟨rfl, ?_⟩
  rw [accept, current_bind]
  split
  · next ht => exact Nat.le_of_eq (Cursor.remaining_next (h _ ht))
  · exact Nat.le_refl _

theorem agree_acceptSymbol (text : String) :
    Agree n (acceptSymbol text) (acceptSymbol text) (fun b => b.toNat) :=
  agree_accept fun _ ht => by simp [kind_of_isSymbol ht]

theorem agree_acceptKeyword (word : Keyword) :
    Agree n (acceptKeyword word) (acceptKeyword word) (fun b => b.toNat) :=
  agree_accept fun _ ht => by simp [kind_of_isKeyword ht]

theorem agree_acceptNewLine :
    Agree n (acceptKind .newLine) (acceptKind .newLine) (fun b => b.toNat) :=
  agree_accept fun _ ht => by simp [of_decide_eq_true ht]

theorem agree_expect {test : Token → Bool} (h : ∀ t, test t = true → t.kind ≠ .endOfInput)
    (k : Complaint) : Agree n (expect test k) (expect test k) (fun _ => 1) := by
  intro c _
  refine ⟨rfl, ?_⟩
  rw [expect, current_bind]
  split
  · next ht => exact Nat.le_of_eq (Cursor.remaining_next (h _ ht))
  · trivial

theorem agree_expectSymbol (text : String) :
    Agree n (expectSymbol text) (expectSymbol text) (fun _ => 1) :=
  agree_expect (fun _ ht => by simp [kind_of_isSymbol ht]) _

theorem agree_expectName (role : NameRole) :
    Agree n (expectName role) (expectName role) (fun _ => 1) :=
  (agree_expect (fun _ ht => by simp [of_decide_eq_true ht]) _).bind fun _ => agree_pure _ rfl

/-- What a round that goes on has to consume. -/
def roundLeast {α : Type} : ForInStep α → Nat
  | .done _ => 0
  | .yield _ => 1

theorem agree_iterate {round round' : α → Parse (ForInStep α)}
    (h : ∀ a, Agree n (round a) (round' a) roundLeast) (a : α) :
    Agree n (iterate round a) (iterate round' a) (fun _ => 0) := by
  intro c
  induction hm : c.remaining using Nat.strong_induction_on generalizing a c with
  | _ m ih =>
    intro hc
    obtain ⟨heq, hend⟩ := h a c (hm ▸ hc)
    rw [AgreeAt, iterate, iterate, ← heq]
    cases hr : round a c with
    | done s d =>
      rw [hr] at hend
      cases s with
      | done b => exact ⟨rfl, hend⟩
      | yield b =>
        have hd : d.remaining + 1 ≤ c.remaining := hend
        obtain ⟨heq', hend'⟩ := ih d.remaining (by omega) b d rfl (by omega)
        simp only [show d.remaining < c.remaining from hd, if_true]
        exact ⟨heq', hend'.mono fun _ _ he => by omega⟩
    | failed e d => exact ⟨rfl, trivial⟩
    | endless => rw [hr] at hend; exact hend.elim

theorem collect_of_done {round : Parse (ForInStep (List α))} {items : List α} {c d : Cursor}
    (h : round c = .done (.done items) d) : collect round c = .done items d := by
  rw [collect, h]

theorem collect_of_yield {round : Parse (ForInStep (List α))} {items : List α} {c d : Cursor}
    (h : round c = .done (.yield items) d) (hlt : d.remaining < c.remaining) :
    collect round c = (collect round d).prepend items := by
  rw [collect, h]
  simp only [hlt, if_true]
  cases collect round d <;> rfl

theorem collect_of_failed {round : Parse (ForInStep (List α))} {e : Error} {c d : Cursor}
    (h : round c = .failed e d) : collect round c = .failed e d := by
  rw [collect, h]

theorem agree_collect {round round' : Parse (ForInStep (List α))}
    (h : Agree n round round' roundLeast) :
    Agree n (collect round) (collect round') (fun _ => 0) := by
  intro c
  induction hm : c.remaining using Nat.strong_induction_on generalizing c with
  | _ m ih =>
    intro hc
    obtain ⟨heq, hend⟩ := h c (hm ▸ hc)
    rw [AgreeAt, collect, collect, ← heq]
    cases hr : round c with
    | done s d =>
      rw [hr] at hend
      cases s with
      | done b => exact ⟨rfl, hend⟩
      | yield b =>
        have hd : d.remaining + 1 ≤ c.remaining := hend
        obtain ⟨heq', hend'⟩ := ih d.remaining (by omega) d rfl (by omega)
        rw [heq'] at hend'
        simp only [show d.remaining < c.remaining from hd, if_true, heq', true_and]
        cases hi : collect round' d with
        | done x e =>
          rw [hi] at hend'
          exact Nat.le_trans hend' (by omega)
        | failed _ _ => trivial
        | endless => rw [hi] at hend'; exact hend'
    | failed e d => exact ⟨rfl, trivial⟩
    | endless => rw [hr] at hend; exact hend.elim

theorem agree_commaSeparated {item item' : Parse α} (h : Agree n item item' (fun _ => 1)) :
    Agree n (commaSeparated item) (commaSeparated item') (fun _ => 0) := by
  refine agree_collect ((agree_atSymbol _).bind fun b => ?_)
  cases b with
  | true => exact agree_pure _ rfl
  | false =>
    refine h.bind fun a => (agree_skip _).bind fun _ => (agree_acceptSymbol _).bind fun b => ?_
    cases b with
    | true => exact (agree_skip _).bind fun _ => agree_pure _ rfl
    | false => exact agree_pure _ rfl

/-- A parser that begins by consuming a token needs its parts to agree only behind that token. -/
theorem AgreeAt.advance {f g : Token → Parse β} {goal : β → Nat}
    (hc : c.current.kind ≠ .endOfInput) (hn : c.remaining ≤ n)
    (hf : ∀ t, Agree n (f t) (g t) (fun b => goal b - 1)) :
    AgreeAt c (Parse.advance >>= f) (Parse.advance >>= g) goal := by
  have hr := Cursor.remaining_next hc
  obtain ⟨heq, hend⟩ := hf c.current c.next (by omega)
  exact ⟨heq, hend.mono fun b d hd => by omega⟩

/-- Where the rest consumes enough by itself, the first token may also be an end of input. -/
theorem AgreeAt.behind {f g : Token → Parse β} {goal : β → Nat} (hn : c.next.remaining < n)
    (hf : ∀ t, Agree n (f t) (g t) goal) :
    AgreeAt c (Parse.advance >>= f) (Parse.advance >>= g) goal := by
  have hr := c.remaining_next_le
  obtain ⟨heq, hend⟩ := hf c.current c.next hn
  exact ⟨heq, hend.mono fun b d hd => by omega⟩

theorem AgreeAt.behindLine {f g : Token → Parse β} {goal : β → Nat} (hn : c.next.remaining < n)
    (hf : ∀ t, Agree n (f t) (g t) goal) :
    AgreeAt c (advanceLine >>= f) (advanceLine >>= g) goal :=
  AgreeAt.behind (f := fun t => skip .newLine >>= fun _ => f t)
    (g := fun t => skip .newLine >>= fun _ => g t) hn fun t => (agree_skip _).bind fun _ => hf t

theorem AgreeAt.current {f g : Token → Parse β} {goal : β → Nat}
    (h : AgreeAt c (f c.current) (g c.current) goal) :
    AgreeAt c (Parse.current >>= f) (Parse.current >>= g) goal := h

end Parse

open Parse

/-- Readers for the parts of a construct that agree wherever fewer than `n` tokens are left. -/
structure Readers.Agree (n : Nat) (r r' : Readers) : Prop where
  typeExpr : ∀ power, Parse.Agree n (r.typeExpr power) (r'.typeExpr power) fun _ => 1
  expr : ∀ power, Parse.Agree n (r.expr power) (r'.expr power) fun _ => 1
  statement : Parse.Agree n r.statement r'.statement fun _ => 1

namespace Readers.Agree
variable {n : Nat} {r r' : Readers} {c : Cursor} (h : r.Agree n r')
include h

theorem typeAfter (symbol : String) :
    Parse.Agree n (r.typeAfter symbol) (r'.typeAfter symbol) fun _ => 0 :=
  (agree_acceptSymbol _).bind fun b => by
    cases b with
    | true => exact (h.typeExpr _).weaken fun _ => Nat.zero_le _
    | false => exact agree_pure _ rfl

theorem blockRound : Parse.Agree n r.blockRound r'.blockRound roundLeast := by
  intro c hc
  have hstatement : Parse.Agree n
      (r.statement >>= fun s => acceptKind .newLine >>= fun b =>
        if b = true then pure (.yield [s])
        else atSymbol "\x7d" >>= fun b =>
          if b = true then pure (.yield [s]) else complain .expectedSeparatorInBlock)
      (r'.statement >>= fun s => acceptKind .newLine >>= fun b =>
        if b = true then pure (.yield [s])
        else atSymbol "\x7d" >>= fun b =>
          if b = true then pure (.yield [s]) else complain .expectedSeparatorInBlock)
      (fun _ : ForInStep (List Statement) => 1) := by
    refine h.statement.bind fun s => agree_acceptNewLine.bind fun b => ?_
    cases b with
    | true => exact agree_pure _ rfl
    | false =>
      refine (agree_atSymbol _).bind fun b => ?_
      cases b with
      | true => exact agree_pure _ rfl
      | false => exact agree_complain _
  refine AgreeAt.current ?_
  by_cases hend : c.current.kind = .endOfInput
  · rw [if_pos hend, if_pos hend]
    exact agree_complain _ c hc
  rw [if_neg hend, if_neg hend]
  by_cases hbrace : c.current.isSymbol "\x7d" = true
  · rw [if_pos hbrace, if_pos hbrace]
    exact (agree_advance.bind fun _ => agree_pure _ rfl) c hc
  rw [if_neg hbrace, if_neg hbrace]
  by_cases hline : c.current.kind = .newLine
  · rw [if_pos hline, if_pos hline]
    exact AgreeAt.advance hend (Nat.le_of_lt hc) fun _ => agree_pure _ rfl
  · rw [if_neg hline, if_neg hline]
    exact (hstatement c hc).weaken fun s => by cases s <;> simp [roundLeast]

/-- A block consumes its opening brace before it calls for anything. -/
theorem blockAt (hn : c.remaining ≤ n) : AgreeAt c r.block r'.block fun _ => 1 :=
  (agree_expectSymbol _ c (Nat.lt_succ_self _)).bind fun _ d hd =>
    ((agree_collect h.blockRound).bind fun _ => agree_lastEnd.bind fun _ => agree_pure _ rfl) d
      (by omega)

theorem block : Parse.Agree n r.block r'.block fun _ => 1 :=
  fun _ hc => h.blockAt (Nat.le_of_lt hc)

theorem parameters : Parse.Agree n r.parameters r'.parameters fun _ => 1 := by
  have hparameter : Parse.Agree n r.parameter r'.parameter fun _ => 1 :=
    (agree_expectName _).bind fun _ => (h.typeAfter _).bind fun _ => agree_pure _ rfl
  exact (agree_expectSymbol _).bind fun _ => (agree_skip _).bind fun _ =>
    (agree_commaSeparated hparameter).bind fun _ => (agree_expectSymbol _).bind fun _ =>
      agree_pure _ rfl

theorem signature : Parse.Agree n r.signature r'.signature fun _ => 1 :=
  h.parameters.bind fun _ => (h.typeAfter _).bind fun _ => agree_pure _ rfl

/-- Starts of expressions are the constructs that do not call for an expression at once. -/
theorem exprStart (start : ExprStart) (hn : c.next.remaining < n) :
    AgreeAt c (start.read r) (start.read r') fun _ => 1 := by
  cases start with
  | literal =>
    refine ⟨rfl, ?_⟩
    simp only [ExprStart.read, Parse.literal, current_bind]
    cases hk : c.current.kind with
    | number =>
      have hr := Nat.le_of_eq (Cursor.remaining_next (c := c) (by simp [hk]))
      cases Double.ofText? c.current.text with
      | some _ => exact hr
      | none => trivial
    | name | string => exact Nat.le_of_eq (Cursor.remaining_next (c := c) (by simp [hk]))
    | symbol | keyword _ | newLine | endOfInput => trivial
  | prefixed =>
    exact .behind hn fun _ => (h.expr .unary).bind fun _ => agree_pure _ rfl
  | grouping =>
    exact .behindLine hn fun _ => (h.expr .default).bind
      fun _ => (agree_skip .newLine).bind fun _ => (agree_expectSymbol ")").bind fun _ =>
        agree_pure _ rfl
  | closure =>
    exact .behind hn fun _ => h.signature.bind fun _ => h.block.bind fun _ =>
      agree_lastEnd.bind fun _ => agree_pure _ rfl

theorem exprTail (tail : ExprTail) (left : Expr) (power : BindingPower)
    (hn : c.next.remaining < n) :
    AgreeAt c (tail.read r left power) (tail.read r' left power) fun _ => 1 := by
  cases tail with
  | assignment => exact .behindLine hn fun _ => (h.expr .comma).bind fun _ => agree_pure _ rfl
  | binary => exact .behindLine hn fun _ => (h.expr power).bind fun _ => agree_pure _ rfl
  | call =>
    exact .behindLine hn fun _ =>
      (agree_commaSeparated (h.expr .default)).bind fun _ => (agree_expectSymbol ")").bind
        fun _ => agree_lastEnd.bind fun _ => agree_pure _ rfl
  | member =>
    exact .behind hn fun _ => (agree_expectName _).bind fun _ => agree_lastEnd.bind
      fun _ => agree_pure _ rfl

theorem initializer (name : String) :
    Parse.Agree n (r.initializer name) (r'.initializer name) fun _ => 0 := by
  refine (agree_atSymbol _).bind fun b => ?_
  cases b with
  | true => exact agree_advanceLine.bind fun _ => (h.expr _).bind fun _ => agree_pure _ rfl
  | false => exact agree_lastEnd.bind fun _ => agree_pure _ rfl

theorem elseBlock : Parse.Agree n r.elseBlock r'.elseBlock fun _ => 0 := by
  refine (agree_acceptKeyword _).bind fun b => ?_
  cases b with
  | true => exact h.block.bind fun _ => agree_pure _ rfl
  | false => exact agree_pure _ rfl

theorem loopRound : Parse.Agree n r.loopRound r'.loopRound roundLeast := by
  refine (agree_skip _).bind fun _ => (agree_atSymbol _).bind fun b => ?_
  cases b with
  | true => exact agree_pure _ rfl
  | false =>
    refine agree_atToken.bind fun b => ?_
    cases b with
    | true => exact h.statement.bind fun _ => agree_pure _ rfl
    | false => exact agree_pure _ rfl

omit h in
theorem loopVariables : Parse.Agree n Readers.loopVariables Readers.loopVariables fun _ => 0 := by
  refine (agree_acceptKeyword _).bind fun b => ?_
  cases b with
  | true =>
    refine (agree_collect ((agree_expectName _).bind fun _ => (agree_acceptSymbol _).bind
      fun b => ?_)).weaken fun _ => Nat.zero_le _
    cases b <;> exact agree_pure _ rfl
  | false => exact agree_pure _ rfl

omit h in
theorem superclass : Parse.Agree n Readers.superclass Readers.superclass fun _ => 0 := by
  refine (agree_acceptSymbol _).bind fun b => ?_
  cases b with
  | true => exact (agree_expectName _).bind fun _ => agree_pure _ rfl
  | false => exact agree_pure _ rfl

/-- All forms but `any` consume their first token before they call for anything. -/
theorem statementForm (form : StatementForm) (hf : form ≠ .any) (hn : c.next.remaining < n) :
    AgreeAt c (form.read r) (form.read r') fun _ => 1 := by
  cases form with
  | any => exact absurd rfl hf
  | block =>
    have hle := c.remaining_le_next
    exact (h.blockAt (by omega)).bind fun _ _ _ => .pure _ rfl
  | declaration =>
    exact .behind hn fun _ => (agree_expectName _).bind fun _ => (h.typeAfter _).bind fun _ =>
      (h.initializer _).bind fun _ => agree_lastEnd.bind fun _ => agree_pure _ rfl
  | conditional =>
    exact .behind hn fun _ => (h.expr _).bind fun _ => h.block.bind fun _ =>
      h.elseBlock.bind fun _ => agree_lastEnd.bind fun _ => agree_pure _ rfl
  | result =>
    exact .behind hn fun _ => (h.expr _).bind fun _ => agree_lastEnd.bind fun _ =>
      agree_pure _ rfl
  | loop =>
    exact .behind hn fun _ => (h.expr _).bind fun _ => (agree_expectSymbol _).bind fun _ =>
      (agree_skip _).bind fun _ => loopVariables.bind fun _ => (agree_collect h.loopRound).bind
        fun _ => (agree_expectSymbol _).bind fun _ => agree_lastEnd.bind fun _ => agree_pure _ rfl
  | function =>
    exact .behind hn fun _ => (agree_expectName _).bind fun _ => h.signature.bind fun _ =>
      h.block.bind fun _ => agree_lastEnd.bind fun _ => agree_pure _ rfl
  | classDefinition =>
    exact .behind hn fun _ => (agree_expectName _).bind fun _ => superclass.bind fun _ =>
      h.block.bind fun _ => agree_lastEnd.bind fun _ => agree_pure _ rfl

end Readers.Agree

namespace Grammar
open Parse
variable {n : Nat} {r r' : Readers} {c : Cursor}

theorem key_of_end {t : Token} (h : t.kind = .endOfInput) : t.key = "<eof>" := by
  simp only [Token.key, h]

/-- No expression starts at the end of the input. -/
theorem script_start {t : Token} {start : ExprStart} (h : script.starts.get? t.key = some start) :
    t.kind ≠ .endOfInput := by
  intro hend
  rw [key_of_end hend, show script.starts.get? "<eof>" = none by decide] at h
  simp at h

/-- The rules of statements look for symbols and reserved words, and none of them begins again. -/
theorem script_rule {t : Token} {rule : StatementRule}
    (h : script.rules.find? (·.test t) = some rule) :
    t.kind ≠ .endOfInput ∧ rule.form ≠ .any := by
  have hmem : rule ∈ scriptRules := List.mem_of_find?_eq_some h
  have hpass : rule.test t = true := by simpa using List.find?_some h
  simp only [scriptRules, List.mem_cons, List.not_mem_nil, or_false] at hmem
  constructor
  · intro hend
    rcases hmem with rfl | rfl | rfl | rfl | rfl | rfl | rfl | rfl <;>
      simp [TokenTest.symbol, TokenTest.keyword, Token.isSymbol, Token.isKeyword, hend] at hpass
  · rcases hmem with rfl | rfl | rfl | rfl | rfl | rfl | rfl | rfl <;> decide

theorem agree_typeStart (start : TypeStart) : Agree n start.read start.read fun _ => 1 := by
  cases start with
  | name =>
    exact (agree_expect (fun t ht => by simp [of_decide_eq_true ht]) _).bind fun _ =>
      agree_pure _ rfl

theorem agree_typeTail (tail : TypeTail) (left : TypeExpr) :
    Agree n (tail.read left) (tail.read left) fun _ => 1 := by
  cases tail with
  | array =>
    exact (agree_expectSymbol _).bind fun _ => (agree_expectSymbol _).bind fun _ =>
      agree_pure _ rfl

/-- A type ends before what does not bind tightly enough. -/
theorem typeRound_of_not_lt {c : Cursor} {power : BindingPower} {left : TypeExpr}
    (h : ∀ next, script.typePowers.get? c.current.key = some next → ¬ power < next) :
    script.typeRound power left c = .done (.done left) c := by
  rw [typeRound, current_bind]
  cases hnext : script.typePowers.get? c.current.key with
  | none => rfl
  | some next => exact congrFun (if_neg (h next hnext)) c

/-- An expression ends before what does not bind tightly enough. -/
theorem exprRound_of_not_lt {r : Readers} {c : Cursor} {power : BindingPower} {left : Expr}
    (h : ¬ power < (script.powers.get? c.current.key).getD .default) :
    script.exprRound r power left c = .done (.done left) c := by
  rw [exprRound, current_bind]
  exact congrFun (if_neg h) c

theorem agree_typeRound (power : BindingPower) (left : TypeExpr) :
    Agree n (script.typeRound power left) (script.typeRound power left) roundLeast := by
  refine agree_current.bind fun t => ?_
  dsimp only
  cases script.typePowers.get? t.key with
  | none => exact agree_pure _ rfl
  | some next =>
    dsimp only
    split
    · cases script.typeTails.get? t.key with
      | none => exact agree_complain _
      | some tail => exact (agree_typeTail tail left).bind fun _ => agree_pure _ rfl
    · exact agree_pure _ rfl

theorem agree_typeExpr (power : BindingPower) :
    Agree n (script.typeExpr power) (script.typeExpr power) fun _ => 1 := by
  refine agree_current.bind fun t => ?_
  cases script.typeStarts.get? t.key with
  | none => exact agree_complain _
  | some start =>
    exact (agree_typeStart start).bind fun a =>
      (agree_iterate (agree_typeRound power) a).weaken fun _ => Nat.le_refl _

theorem agree_exprRound (h : r.Agree n r') (power : BindingPower) (left : Expr) :
    Agree n (script.exprRound r power left) (script.exprRound r' power left) roundLeast := by
  intro c hc
  refine AgreeAt.current ?_
  dsimp only
  by_cases hlt : power < (script.powers.get? c.current.key).getD .default
  · rw [if_pos hlt, if_pos hlt]
    cases script.tails.get? c.current.key with
    | none => exact agree_complain _ c hc
    | some tail =>
      have hn := c.remaining_next_le
      exact (h.exprTail tail left _ (by omega)).bind fun _ _ _ => .pure _ rfl
  · rw [if_neg hlt, if_neg hlt]
    exact .pure _ rfl

theorem agree_exprOver (h : r.Agree n r') (power : BindingPower) (hn : c.remaining ≤ n) :
    AgreeAt c (script.exprOver r power) (script.exprOver r' power) fun _ => 1 := by
  refine AgreeAt.current ?_
  cases hs : script.starts.get? c.current.key with
  | none => exact agree_complain _ c (Nat.lt_succ_self _)
  | some start =>
    have hnext := Cursor.remaining_next (script_start hs)
    exact (h.exprStart start (by omega)).bind fun a d hd =>
      (agree_iterate (agree_exprRound h power) a d (by omega)).weaken fun _ => Nat.le_refl _

theorem agree_statementOver (h : r.Agree n r')
    (he : AgreeAt c (r.expr .default) (r'.expr .default) fun _ => 1) (hn : c.remaining ≤ n) :
    AgreeAt c (script.statementOver r) (script.statementOver r') fun _ => 1 := by
  refine AgreeAt.current ?_
  cases hr : script.rules.find? (·.test c.current) with
  | none => exact he.bind fun _ _ _ => .pure _ rfl
  | some rule =>
    obtain ⟨hend, hany⟩ := script_rule hr
    have hnext := Cursor.remaining_next hend
    exact h.statementForm rule.form hany (by omega)

/-- The readers with checks that calls for expressions and for statements have to pass. -/
def checked (exprs statements : Cursor → Prop) [DecidablePred exprs] [DecidablePred statements] :
    Readers where
  typeExpr := script.typeExpr
  expr power c := if exprs c then script.expr power c else .endless
  statement c := if statements c then script.statement c else .endless

/-- A check of the cursor that holds wherever fewer than `n` tokens are left changes nothing there.
-/
theorem agree_checked {α : Type} {p : Parse α} {least : α → Nat} (h : Agree n p p least)
    (passed : Cursor → Prop) [DecidablePred passed] (hp : ∀ c, c.remaining < n → passed c) :
    Agree n (fun c => if passed c then p c else .endless) p least := by
  intro c hc
  have hif : (if passed c then p c else .endless) = p c := if_pos (hp c hc)
  exact ⟨hif, (congrArg (Outcome.Ends c least) hif).mpr (h c hc).2⟩

theorem checked_agree (he : ∀ power, Agree n (script.expr power) (script.expr power) fun _ => 1)
    (hs : Agree n script.statement script.statement fun _ => 1)
    {exprs statements : Cursor → Prop} [DecidablePred exprs] [DecidablePred statements]
    (hexprs : ∀ c, c.remaining < n → exprs c)
    (hstatements : ∀ c, c.remaining < n → statements c) :
    Readers.Agree n (checked exprs statements) script.readers where
  typeExpr := agree_typeExpr
  expr power := agree_checked (he power) exprs hexprs
  statement := agree_checked hs statements hstatements

/-- Expressions and statements without the checks of their recursion, and with an end. The first
part is about the constructs that have fewer tokens left, the second about the one at hand. -/
theorem agree_script (n : Nat) :
    (∀ power, Agree n (script.expr power) (script.exprOver script.readers power) fun _ => 1) ∧
      Agree n script.statement (script.statementOver script.readers) fun _ => 1 := by
  induction n with
  | zero =>
    exact ⟨fun _ _ hc => absurd hc (Nat.not_lt_zero _), fun _ hc => absurd hc (Nat.not_lt_zero _)⟩
  | succ n ih =>
    have hexpr (power : BindingPower) :
        Agree (n + 1) (script.expr power) (script.exprOver script.readers power) fun _ => 1 := by
      intro c hc
      have hr : Readers.Agree c.remaining
          (checked (·.remaining < c.remaining) (·.remaining < c.remaining)) script.readers :=
        checked_agree (fun power d hd => ⟨rfl, (ih.1 power d (by omega)).2⟩)
          (fun d hd => ⟨rfl, (ih.2 d (by omega)).2⟩) (fun _ hd => hd) (fun _ hd => hd)
      have hover := agree_exprOver hr power (Nat.le_refl _)
      rw [AgreeAt, checked, ← Grammar.expr.eq_1] at hover
      exact hover
    refine ⟨hexpr, fun c hc => ?_⟩
    have hr : Readers.Agree c.remaining
        (checked (·.remaining ≤ c.remaining) (·.remaining < c.remaining)) script.readers :=
      checked_agree (fun power d hd => ⟨rfl, (ih.1 power d (by omega)).2⟩)
        (fun d hd => ⟨rfl, (ih.2 d (by omega)).2⟩) (fun _ hd => Nat.le_of_lt hd) (fun _ hd => hd)
    have he := agree_checked (n := c.remaining + 1) (p := script.expr .default)
      (fun d hd => ⟨rfl, (hexpr .default d (by omega)).2⟩) (·.remaining ≤ c.remaining)
      (fun _ hd => Nat.le_of_lt_succ hd) c (Nat.lt_succ_self _)
    have hover := agree_statementOver hr he (Nat.le_refl _)
    rw [AgreeAt, checked, ← Grammar.statement.eq_1] at hover
    exact hover

theorem script_expr (power : BindingPower) :
    script.expr power = script.exprOver script.readers power :=
  funext fun c => ((agree_script (c.remaining + 1)).1 power c (Nat.lt_succ_self _)).1

theorem script_statement : script.statement = script.statementOver script.readers :=
  funext fun c => ((agree_script (c.remaining + 1)).2 c (Nat.lt_succ_self _)).1

theorem readers_agree (n : Nat) : script.readers.Agree n script.readers where
  typeExpr := agree_typeExpr
  expr power c hc := ⟨rfl, ((agree_script n).1 power c hc).2⟩
  statement c hc := ⟨rfl, ((agree_script n).2 c hc).2⟩

theorem agree_program (file : String) :
    Agree n (script.program file) (script.program file) fun _ => 0 := by
  have hround : Agree n script.programRound script.programRound roundLeast := by
    refine (agree_skip _).bind fun _ => agree_atToken.bind fun b => ?_
    cases b with
    | false => exact agree_pure _ rfl
    | true =>
      refine (readers_agree n).statement.bind fun s => agree_atToken.bind fun b => ?_
      cases b with
      | false => exact agree_pure _ rfl
      | true =>
        refine agree_acceptNewLine.bind fun b => ?_
        cases b with
        | true => exact agree_pure _ rfl
        | false => exact agree_complain _
  exact (agree_collect hround).bind fun _ => agree_lastEnd.bind fun _ => agree_pure _ rfl

/-! The statements of a program one by one. -/

theorem remaining_statement {s : Statement} {c d : Cursor} (h : script.statement c = .done s d) :
    d.remaining < c.remaining := by
  have hend := ((readers_agree (c.remaining + 1)).statement c (Nat.lt_succ_self _)).2
  rw [show script.readers.statement c = .done s d from h] at hend
  exact hend

/-- What follows a statement of a program: the end, or the end of its line and more statements. -/
def programRest (s : Statement) : Parse (List Statement) := do
  if ← atToken then
    let _ ← expectKind .newLine .expectedSeparator
    return s :: (← collect script.programRound)
  else return [s]

theorem programRest_end {s : Statement} {d : Cursor} (h : d.current.kind = .endOfInput) :
    programRest s d = .done [s] d := by
  rw [programRest, atToken_bind, if_neg (by simp [h])]
  rfl

theorem programRest_line {s : Statement} {d : Cursor} (h : d.current.kind = .newLine) :
    programRest s d = (collect script.programRound d.next).prepend [s] := by
  rw [programRest, atToken_bind, if_pos (by simp [h]), expectKind, expect_bind,
    if_pos (by simp [h]), bind_apply]
  cases collect script.programRound d.next <;> rfl

theorem programRest_other {s : Statement} {d : Cursor} (h : d.current.kind ≠ .endOfInput)
    (h' : d.current.kind ≠ .newLine) : programRest s d = complain .expectedSeparator d := by
  rw [programRest, atToken_bind, if_pos (by simp [h]), expectKind, expect_bind,
    if_neg (by simp [h'])]

theorem programRound_end {c : Cursor} (h : (c.skip .newLine).current.kind = .endOfInput) :
    script.programRound c = .done (.done []) (c.skip .newLine) := by
  rw [programRound, skip_bind, atToken_bind, if_neg (by simp [h])]
  rfl

/-- The statements of a program up to the end of the input, without the checks of their loop. -/
theorem collect_programRound (c : Cursor) :
    collect script.programRound c =
      if (c.skip .newLine).current.kind = .endOfInput then .done [] (c.skip .newLine)
      else (script.statement >>= programRest) (c.skip .newLine) := by
  by_cases hend : (c.skip .newLine).current.kind = .endOfInput
  · rw [if_pos hend]
    exact collect_of_done (programRound_end hend)
  have hround : script.programRound c = (script.statement >>= fun s => atToken >>= fun b =>
      if b = true then acceptKind .newLine >>= fun b =>
        if b = true then pure (.yield [s]) else complain .expectedSeparator
      else pure (.yield [s])) (c.skip .newLine) := by
    rw [programRound, skip_bind, atToken_bind, if_pos (by simp [hend])]
    rfl
  rw [if_neg hend]
  cases hs : script.statement (c.skip .newLine) with
  | done s d =>
    rw [bind_done _ hs, atToken_bind] at hround
    rw [bind_done _ hs]
    have hlt : d.remaining < c.remaining :=
      Nat.lt_of_lt_of_le (remaining_statement hs) (c.remaining_skip .newLine)
    by_cases hlast : d.current.kind = .endOfInput
    · have hskip : d.skip .newLine = d := Cursor.skip_of_ne (by simp [hlast])
      have hstop := programRound_end (c := d) (by rwa [hskip])
      rw [if_neg (by simp [hlast])] at hround
      rw [programRest_end hlast, collect_of_yield hround hlt, collect_of_done hstop, hskip]
      rfl
    rw [if_pos (by simp [hlast]), acceptKind, accept_bind] at hround
    by_cases hline : d.current.kind = .newLine
    · rw [if_pos (by simp [hline])] at hround
      rw [programRest_line hline]
      exact collect_of_yield hround (Nat.lt_of_le_of_lt d.remaining_next_le hlt)
    · rw [if_neg (by simp [hline])] at hround
      rw [programRest_other hlast hline]
      exact collect_of_failed hround
  | failed e d =>
    rw [bind_failed _ hs] at hround ⊢
    exact collect_of_failed hround
  | endless =>
    rw [bind_endless _ hs] at hround ⊢
    rw [collect, hround]

/-- An empty line before a program makes no difference. -/
theorem collect_programRound_line {c : Cursor} (hc : c.current.kind = .newLine) :
    collect script.programRound c = collect script.programRound c.next := by
  rw [collect_programRound, collect_programRound c.next, (Cursor.skip_next hc (by simp)).1]

end Grammar

/-- Parsing a program always has a result. -/
theorem parse_ends (tokens : List Token) (file : String) : parse tokens file ≠ .endless :=
  ne_endless_of_agree (fun _ => Grammar.agree_program file) (Cursor.start tokens file)

/-- Without an error a program is accepted. -/
theorem parse_accepts {tokens : List Token} {file : String}
    (h : (parse tokens file).error? = none) : ∃ b stop, parse tokens file = .done b stop := by
  cases hp : parse tokens file with
  | done b stop => exact ⟨b, stop, rfl⟩
  | failed e stop =>
    rw [hp] at h
    cases h
  | endless => exact absurd hp (parse_ends tokens file)

end ScriptSyntax
