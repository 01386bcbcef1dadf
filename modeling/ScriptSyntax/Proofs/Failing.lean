import ScriptSyntax.Proofs.Reading
import ScriptSyntax.Proofs.Sessions

/-! How parsers fail, over whatever tables and from whatever place. An error is about the token at
which the cursor is left, and a construct hands on the errors of its parts as they are. One walk
over the constructs shows both: it compares a construct with one that has other parts. -/
namespace ScriptSyntax
open Parse
variable {α β : Type} {F P : Error → Cursor → Prop}

/-- A property of the errors with which a parser refuses the current token. -/
class Refusals (P : Error → Cursor → Prop) : Prop where
  complaint : ∀ (k : Complaint) (c : Cursor),
    P ⟨.refused k (some c.current.mention), c.current.span.start⟩ c
  badNumber : ∀ c : Cursor, c.current.kind = .number →
    P ⟨.badNumber c.current.text, c.current.span.start⟩ c

instance : Refusals fun e d => e.Names d.current :=
  ⟨fun k _ => ⟨rfl, .inl ⟨k, rfl⟩⟩, fun _ h => ⟨rfl, .inr ⟨h, rfl⟩⟩⟩

instance : Refusals fun _ _ => True := ⟨fun _ _ => trivial, fun _ _ => trivial⟩

/-- A failure of a given sort, or another outcome as it is, whose failure has a property. -/
def Outcome.HandsOn (F P : Error → Cursor → Prop) (o o' : Outcome α) : Prop :=
  (∃ e d, o = .failed e d ∧ F e d) ∨ (o = o' ∧ ∀ e d, o = .failed e d → P e d)

theorem Outcome.HandsOn.done (a : α) (c : Cursor) :
    (Outcome.done a c).HandsOn F P (.done a c) := .inr ⟨rfl, fun _ _ h => nomatch h⟩

theorem Outcome.HandsOn.failed {e : Error} {d : Cursor} (h : P e d) :
    (Outcome.failed e d : Outcome α).HandsOn F P (.failed e d) :=
  .inr ⟨rfl, fun _ _ heq => by cases heq; exact h⟩

theorem Outcome.HandsOn.endless : (Outcome.endless : Outcome α).HandsOn F P .endless :=
  .inr ⟨rfl, fun _ _ h => nomatch h⟩

namespace Parse
variable {p q : Parse α} {c : Cursor}

def HandsOnAt (F P : Error → Cursor → Prop) (c : Cursor) (p q : Parse α) : Prop :=
  (p c).HandsOn F P (q c)

/-- The first parser does what the second one does, but that it may also fail in a given way. -/
class HandsOn (F P : Error → Cursor → Prop) (p q : Parse α) : Prop where
  at_ : ∀ c, HandsOnAt F P c p q

instance (a : α) : HandsOn F P (pure a) (pure a) := ⟨fun c => .done a c⟩
instance : HandsOn F P current current := ⟨fun c => .done _ c⟩
instance : HandsOn F P lastEnd lastEnd := ⟨fun c => .done _ c⟩
instance : HandsOn F P advance advance := ⟨fun c => .done _ c.next⟩
instance (kind : TokenKind) : HandsOn F P (skip kind) (skip kind) :=
  ⟨fun c => .done _ (c.skip kind)⟩
instance (k : Complaint) [h : Refusals P] : HandsOn F P (complain k : Parse α) (complain k) :=
  ⟨fun c => .failed (h.complaint k c)⟩

/-- What stands behind a failure is never reached. -/
instance HandsOn.bind {f g : α → Parse β} [hp : HandsOn F P p q]
    [hf : ∀ a, HandsOn F P (f a) (g a)] : HandsOn F P (p >>= f) (q >>= g) where
  at_ c := by
    rw [HandsOnAt, bind_apply, bind_apply]
    rcases hp.at_ c with ⟨e, d, hfail, he⟩ | ⟨hsame, hnames⟩
    · rw [hfail]
      exact .inl ⟨e, d, rfl, he⟩
    · rw [← hsame]
      cases hc : p c with
      | done a d => exact (hf a).at_ d
      | failed e d => exact .failed (hnames e d hc)
      | endless => exact .endless

instance {b : Prop} [Decidable b] {p' q' : Parse α} [hp : HandsOn F P p q]
    [hp' : HandsOn F P p' q'] : HandsOn F P (if b then p else p') (if b then q else q') := by
  split
  · exact hp
  · exact hp'

instance {round round' : α → Parse (ForInStep α)} [hr : ∀ a, HandsOn F P (round a) (round' a)]
    (a : α) : HandsOn F P (iterate round a) (iterate round' a) where
  at_ c := by
    induction hn : c.remaining using Nat.strong_induction_on generalizing a c with
    | _ n ih =>
      rw [HandsOnAt, iterate, iterate.eq_def round']
      rcases (hr a).at_ c with ⟨e, d, hfail, he⟩ | ⟨hsame, hnames⟩
      · rw [hfail]
        exact .inl ⟨e, d, rfl, he⟩
      rw [← hsame]
      cases hc : round a c with
      | done step d =>
        cases step with
        | done b => exact .done b d
        | yield b =>
          dsimp only
          split
          · next hlt => exact ih d.remaining (hn ▸ hlt) b d rfl
          · exact .endless
      | failed e d => exact .failed (hnames e d hc)
      | endless => exact .endless

instance {round round' : Parse (ForInStep (List α))} [hr : HandsOn F P round round'] :
    HandsOn F P (collect round) (collect round') where
  at_ c := by
    induction hn : c.remaining using Nat.strong_induction_on generalizing c with
    | _ n ih =>
      rw [HandsOnAt, collect, collect.eq_def round']
      rcases hr.at_ c with ⟨e, d, hfail, he⟩ | ⟨hsame, hnames⟩
      · rw [hfail]
        exact .inl ⟨e, d, rfl, he⟩
      rw [← hsame]
      cases hc : round c with
      | done step d =>
        cases step with
        | done items => exact .done items d
        | yield items =>
          dsimp only
          split
          · next hlt =>
            rcases ih d.remaining (hn ▸ hlt) d rfl with ⟨e, d', hfail, he⟩ | ⟨hmore, hmoreNames⟩
            · rw [hfail]
              exact .inl ⟨e, d', rfl, he⟩
            · rw [← hmore]
              cases hd : collect round d with
              | done more d' => exact .done _ d'
              | failed e d' => exact .failed (hmoreNames e d' hd)
              | endless => exact .endless
          · exact .endless
      | failed e d => exact .failed (hnames e d hc)
      | endless => exact .endless

section Refusing
variable [hP : Refusals P]

instance : HandsOn F P advanceLine advanceLine := by unfold advanceLine; infer_instance
instance (text : String) : HandsOn F P (atSymbol text) (atSymbol text) := by
  unfold atSymbol; infer_instance
instance (word : Keyword) : HandsOn F P (atKeyword word) (atKeyword word) := by
  unfold atKeyword; infer_instance
instance : HandsOn F P atToken atToken := by unfold atToken; infer_instance
instance (test : Token → Bool) : HandsOn F P (accept test) (accept test) := by
  unfold accept; infer_instance
instance (text : String) : HandsOn F P (acceptSymbol text) (acceptSymbol text) := by
  unfold acceptSymbol; infer_instance
instance (word : Keyword) : HandsOn F P (acceptKeyword word) (acceptKeyword word) := by
  unfold acceptKeyword; infer_instance
instance (kind : TokenKind) : HandsOn F P (acceptKind kind) (acceptKind kind) := by
  unfold acceptKind; infer_instance
instance (test : Token → Bool) (k : Complaint) : HandsOn F P (expect test k) (expect test k) := by
  unfold expect; infer_instance
instance (text : String) : HandsOn F P (expectSymbol text) (expectSymbol text) := by
  unfold expectSymbol; infer_instance
instance (kind : TokenKind) (k : Complaint) :
    HandsOn F P (expectKind kind k) (expectKind kind k) := by unfold expectKind; infer_instance
instance (role : NameRole) : HandsOn F P (expectName role) (expectName role) := by
  unfold expectName; infer_instance

instance [HandsOn F P p q] : HandsOn F P (commaSeparated p) (commaSeparated q) := by
  unfold commaSeparated; infer_instance

/-- The one refusal that is no complaint: only at a number is there a bad number. -/
instance : HandsOn F P literal literal where
  at_ c := by
    unfold HandsOnAt literal
    rw [current_bind]
    cases hk : c.current.kind with
    | number =>
      cases Double.ofText? c.current.text with
      | some value => exact .done _ c.next
      | none => exact .failed (hP.badNumber c hk)
    | name | string => exact .done _ c.next
    | endOfInput | newLine | symbol | keyword => exact .failed (hP.complaint _ c)

instance (object : Expr) : HandsOn F P (member object) (member object) := by
  unfold member; infer_instance
instance : HandsOn F P namedType namedType := by unfold namedType; infer_instance
instance (element : TypeExpr) : HandsOn F P (arrayType element) (arrayType element) := by
  unfold arrayType; infer_instance

end Refusing
end Parse

/-- Readers that do what other ones do, but that they may also fail in a given way. -/
class Readers.HandsOn (F P : Error → Cursor → Prop) (r r' : Readers) : Prop where
  typeExpr : ∀ power, Parse.HandsOn F P (r.typeExpr power) (r'.typeExpr power)
  expr : ∀ power, Parse.HandsOn F P (r.expr power) (r'.expr power)
  statement : Parse.HandsOn F P r.statement r'.statement

attribute [instance] Readers.HandsOn.typeExpr Readers.HandsOn.expr Readers.HandsOn.statement

namespace Readers

/-- A step through a program over given readers. -/
def programRound (r : Readers) : Parse (ForInStep (List Statement)) := do
  let _ ← Parse.skip .newLine
  if ← Parse.atToken then
    let s ← r.statement
    if ← Parse.atToken then
      if ← Parse.acceptKind .newLine then return .yield [s]
      else Parse.complain .expectedSeparator
    else return .yield [s]
  else return .done []

def program (r : Readers) (file : String) : Parse Block := do
  let statements ← Parse.collect r.programRound
  return ⟨statements, ⟨0, file⟩, ← Parse.lastEnd⟩

theorem program_readers (g : Grammar) (file : String) : g.readers.program file = g.program file :=
  rfl

variable (r r' : Readers) [Refusals P] [r.HandsOn F P r']

instance (symbol : String) : Parse.HandsOn F P (r.typeAfter symbol) (r'.typeAfter symbol) := by
  unfold typeAfter; infer_instance
instance : Parse.HandsOn F P r.blockRound r'.blockRound := by unfold blockRound; infer_instance
instance : Parse.HandsOn F P r.block r'.block := by unfold block; infer_instance
instance : Parse.HandsOn F P r.parameter r'.parameter := by unfold parameter; infer_instance
instance : Parse.HandsOn F P r.parameters r'.parameters := by unfold parameters; infer_instance
instance : Parse.HandsOn F P r.resultType r'.resultType := by unfold resultType; infer_instance
instance : Parse.HandsOn F P r.signature r'.signature := by unfold signature; infer_instance
instance : Parse.HandsOn F P r.prefixed r'.prefixed := by unfold prefixed; infer_instance
instance : Parse.HandsOn F P r.grouping r'.grouping := by unfold grouping; infer_instance
instance : Parse.HandsOn F P r.closure r'.closure := by unfold closure; infer_instance
instance (left : Expr) (power : BindingPower) :
    Parse.HandsOn F P (r.binary left power) (r'.binary left power) := by
  unfold binary; infer_instance
instance (target : Expr) : Parse.HandsOn F P (r.assignment target) (r'.assignment target) := by
  unfold assignment; infer_instance
instance (callee : Expr) : Parse.HandsOn F P (r.call callee) (r'.call callee) := by
  unfold call; infer_instance
instance (name : String) : Parse.HandsOn F P (r.initializer name) (r'.initializer name) := by
  unfold initializer; infer_instance
instance : Parse.HandsOn F P r.declaration r'.declaration := by unfold declaration; infer_instance
instance : Parse.HandsOn F P r.elseBlock r'.elseBlock := by unfold elseBlock; infer_instance
instance : Parse.HandsOn F P r.conditional r'.conditional := by unfold conditional; infer_instance
instance : Parse.HandsOn F P r.result r'.result := by unfold result; infer_instance
instance : Parse.HandsOn F P loopVariables loopVariables := by
  unfold loopVariables; infer_instance
instance : Parse.HandsOn F P r.loopRound r'.loopRound := by unfold loopRound; infer_instance
instance : Parse.HandsOn F P r.loop r'.loop := by unfold loop; infer_instance
instance : Parse.HandsOn F P r.function r'.function := by unfold function; infer_instance
instance : Parse.HandsOn F P superclass superclass := by unfold superclass; infer_instance
instance : Parse.HandsOn F P r.classDefinition r'.classDefinition := by
  unfold classDefinition; infer_instance
instance : Parse.HandsOn F P r.programRound r'.programRound := by
  unfold programRound; infer_instance
instance (file : String) : Parse.HandsOn F P (r.program file) (r'.program file) := by
  unfold program; infer_instance

instance (start : ExprStart) : Parse.HandsOn F P (start.read r) (start.read r') := by
  cases start <;> unfold ExprStart.read <;> infer_instance
instance (tail : ExprTail) (left : Expr) (power : BindingPower) :
    Parse.HandsOn F P (tail.read r left power) (tail.read r' left power) := by
  cases tail <;> unfold ExprTail.read <;> infer_instance
instance (form : StatementForm) : Parse.HandsOn F P (form.read r) (form.read r') := by
  cases form <;> unfold StatementForm.read <;> infer_instance

end Readers

namespace Grammar
variable (g : Grammar) (r r' : Readers) [Refusals P] [r.HandsOn F P r']

instance (start : TypeStart) : Parse.HandsOn F P start.read start.read := by
  cases start; unfold TypeStart.read; infer_instance
instance (tail : TypeTail) (left : TypeExpr) :
    Parse.HandsOn F P (tail.read left) (tail.read left) := by
  cases tail; unfold TypeTail.read; infer_instance

instance (power : BindingPower) (left : TypeExpr) :
    Parse.HandsOn F P (g.typeRound power left) (g.typeRound power left) := by
  unfold typeRound
  refine @HandsOn.bind _ _ _ _ _ _ _ _ inferInstance fun t => ?_
  dsimp only
  cases g.typePowers.get? t.key with
  | none => infer_instance
  | some next => cases g.typeTails.get? t.key <;> infer_instance

instance (power : BindingPower) : Parse.HandsOn F P (g.typeExpr power) (g.typeExpr power) := by
  unfold typeExpr
  refine @HandsOn.bind _ _ _ _ _ _ _ _ inferInstance fun t => ?_
  cases g.typeStarts.get? t.key <;> infer_instance

instance (power : BindingPower) (left : Expr) :
    Parse.HandsOn F P (g.exprRound r power left) (g.exprRound r' power left) := by
  unfold exprRound
  refine @HandsOn.bind _ _ _ _ _ _ _ _ inferInstance fun t => ?_
  dsimp only
  cases g.tails.get? t.key <;> infer_instance

instance (power : BindingPower) :
    Parse.HandsOn F P (g.exprOver r power) (g.exprOver r' power) := by
  unfold exprOver
  refine @HandsOn.bind _ _ _ _ _ _ _ _ inferInstance fun t => ?_
  cases g.starts.get? t.key <;> infer_instance

instance : Parse.HandsOn F P (g.statementOver r) (g.statementOver r') := by
  unfold statementOver
  refine @HandsOn.bind _ _ _ _ _ _ _ _ inferInstance fun t => ?_
  cases g.rules.find? (·.test t) <;> infer_instance

omit [Refusals P] in
/-- Where a check fails nothing is refused. -/
theorem handsOn_checked {p : Parse α} (passed : Cursor → Prop) [DecidablePred passed]
    (h : ∀ c, passed c → HandsOnAt F P c p p) :
    Parse.HandsOn F P (fun c => if passed c then p c else .endless)
      (fun c => if passed c then p c else .endless) where
  at_ c := by
    unfold HandsOnAt
    dsimp only
    split
    · next hc => exact h c hc
    · exact .endless

/-- Each construct calls for others with fewer tokens left, or a statement for an expression. -/
private theorem handsOn_below (n : Nat) : ∀ c : Cursor, c.remaining < n →
    (∀ power, HandsOnAt F P c (g.expr power) (g.expr power)) ∧
      HandsOnAt F P c g.statement g.statement := by
  have htype (power : BindingPower) :
      Parse.HandsOn F P (g.typeExpr power) (g.typeExpr power) := inferInstance
  induction n with
  | zero => exact fun _ hc => absurd hc (Nat.not_lt_zero _)
  | succ n ih =>
    have hexpr : ∀ c : Cursor, c.remaining < n + 1 →
        ∀ power, HandsOnAt F P c (g.expr power) (g.expr power) := by
      intro c hc power
      let r : Readers := ⟨g.typeExpr,
        fun power c' => if c'.remaining < c.remaining then g.expr power c' else .endless,
        fun c' => if c'.remaining < c.remaining then g.statement c' else .endless⟩
      have hr : r.HandsOn F P r := ⟨htype,
        fun power => handsOn_checked _ fun d hd => (ih d (by omega)).1 power,
        handsOn_checked _ fun d hd => (ih d (by omega)).2⟩
      have hover : HandsOnAt F P c (g.exprOver r power) (g.exprOver r power) := HandsOn.at_ c
      rwa [HandsOnAt, ← Grammar.expr.eq_1] at hover
    refine fun c hc => ⟨hexpr c hc, ?_⟩
    let r : Readers := ⟨g.typeExpr,
      fun power c' => if c'.remaining ≤ c.remaining then g.expr power c' else .endless,
      fun c' => if c'.remaining < c.remaining then g.statement c' else .endless⟩
    have hr : r.HandsOn F P r := ⟨htype,
      fun power => handsOn_checked _ fun d hd => hexpr d (by omega) power,
      handsOn_checked _ fun d hd => (ih d (by omega)).2⟩
    have hover : HandsOnAt F P c (g.statementOver r) (g.statementOver r) := HandsOn.at_ c
    rwa [HandsOnAt, ← Grammar.statement.eq_1] at hover

instance : g.readers.HandsOn F P g.readers where
  typeExpr _ := inferInstanceAs (HandsOn F P (g.typeExpr _) (g.typeExpr _))
  expr power := ⟨fun c => (g.handsOn_below (c.remaining + 1) c (Nat.lt_succ_self _)).1 power⟩
  statement := ⟨fun c => (g.handsOn_below (c.remaining + 1) c (Nat.lt_succ_self _)).2⟩

end Grammar

instance (s : Session) [Refusals P] (request : Request) :
    Parse.HandsOn F P (s.parser request) (s.parser request) := by
  cases request with
  | advance acrossLines => cases acrossLines <;> dsimp only [Session.parser] <;> infer_instance
  | _ => dsimp only [Session.parser]; infer_instance

/-- Where no parser fails in other ways, the errors are what refusals are. -/
theorem Parse.HandsOn.names {p : Parse α}
    (hp : HandsOn (fun _ _ => False) (fun e d => e.Names d.current) p p) {c stop : Cursor}
    {e : Error} (h : p c = .failed e stop) : e.Names stop.current := by
  rcases hp.at_ c with ⟨_, _, -, hfalse⟩ | ⟨-, hnames⟩
  · exact hfalse.elim
  · exact hnames e stop h

/-! One error at one place. -/

/-- A parser that fails with a given error at a given place where it does not do what another one
does. -/
def Parse.OrFails (e : Error) (stop : Cursor) (p q : Parse α) : Prop :=
  ∀ c, p c = .failed e stop ∨ p c = q c

structure Readers.OrFails (e : Error) (stop : Cursor) (r r' : Readers) : Prop where
  typeExpr : ∀ power, Parse.OrFails e stop (r.typeExpr power) (r'.typeExpr power)
  expr : ∀ power, Parse.OrFails e stop (r.expr power) (r'.expr power)
  statement : Parse.OrFails e stop r.statement r'.statement

theorem Parse.orFails_iff {e : Error} {stop : Cursor} {p q : Parse α} :
    OrFails e stop p q ↔ HandsOn (fun e' d => e' = e ∧ d = stop) (fun _ _ => True) p q := by
  refine ⟨fun h => ⟨fun c => ?_⟩, fun h c => ?_⟩
  · exact (h c).imp (fun hc => ⟨e, stop, hc, rfl, rfl⟩) fun hc => ⟨hc, fun _ _ _ => trivial⟩
  · refine (h.at_ c).imp ?_ fun hc => hc.1
    rintro ⟨_, _, hc, rfl, rfl⟩
    exact hc

/-- Every construct hands on an error of its parts: where a part fails with it, the construct does
so as well, or it never came to that part. -/
structure Readers.HandOver (e : Error) (stop : Cursor) (r r' : Readers) : Prop where
  block : r.block.OrFails e stop r'.block
  parameters : r.parameters.OrFails e stop r'.parameters
  resultType : r.resultType.OrFails e stop r'.resultType
  start : ∀ start : ExprStart, (start.read r).OrFails e stop (start.read r')
  tail : ∀ (tail : ExprTail) left power,
    (tail.read r left power).OrFails e stop (tail.read r' left power)
  form : ∀ form : StatementForm, (form.read r).OrFails e stop (form.read r')
  expr : ∀ (g : Grammar) power, (g.exprOver r power).OrFails e stop (g.exprOver r' power)
  statement : ∀ g : Grammar, (g.statementOver r).OrFails e stop (g.statementOver r')
  program : ∀ file, (r.program file).OrFails e stop (r'.program file)

theorem Readers.OrFails.handOver {e : Error} {stop : Cursor} {r r' : Readers}
    (h : r.OrFails e stop r') : r.HandOver e stop r' := by
  have hr : r.HandsOn (fun e' d => e' = e ∧ d = stop) (fun _ _ => True) r' :=
    ⟨fun power => orFails_iff.1 (h.typeExpr power), fun power => orFails_iff.1 (h.expr power),
      orFails_iff.1 h.statement⟩
  constructor <;> intros <;> exact orFails_iff.2 inferInstance

/-- Whatever a session asks of a parser and a program as a whole, from whatever place and over
whatever tables: an error is about the token that the cursor is left on, at which it has its
position, and the session goes on from there. No error is lost or changed on its way. What comes
behind a failure is not done, no loop outlives one, and no construct has a use for an error of its
parts. -/
theorem errors_are_about_current (s : Session) :
    (∀ request e stop, s.parser request s.cursor = .failed e stop →
      e.Names stop.current ∧ s.answer request = (.error e, { s with cursor := stop })) ∧
    (∀ file e stop, s.grammar.program file s.cursor = .failed e stop → e.Names stop.current) ∧
    (∀ t : Token, t.mention = if t.kind = .newLine then "newline"
      else if t.kind = .endOfInput then "end of input" else t.text) ∧
    ∀ e stop,
      (∀ (α β : Type) (p q : Parse α) (f g : α → Parse β), p.OrFails e stop q →
        (∀ a, (f a).OrFails e stop (g a)) → (p >>= f).OrFails e stop (q >>= g)) ∧
      (∀ (α : Type) (round round' : α → Parse (ForInStep α)),
        (∀ a, (round a).OrFails e stop (round' a)) →
          ∀ a, (iterate round a).OrFails e stop (iterate round' a)) ∧
      (∀ (α : Type) (round round' : Parse (ForInStep (List α))), round.OrFails e stop round' →
        (collect round).OrFails e stop (collect round')) ∧
      (∀ g file, Readers.program (Grammar.readers g) file = g.program file) ∧
      ∀ r r' : Readers, r.OrFails e stop r' → r.HandOver e stop r' := by
  refine ⟨fun request e stop h => ⟨HandsOn.names inferInstance h, ?_⟩,
    fun file e stop h => ?_, fun t => ?_, fun e stop => ⟨?_, ?_, ?_, fun _ _ => rfl, ?_⟩⟩
  · rw [Session.answer, h]
  · rw [← Readers.program_readers] at h
    exact HandsOn.names inferInstance h
  · rw [Token.mention]
    cases t.kind <;> rfl
  · intro α β p q f g hp hf
    have hp := orFails_iff.1 hp
    have hf := fun a => orFails_iff.1 (hf a)
    exact orFails_iff.2 inferInstance
  · intro α round round' hround a
    have hround := fun a => orFails_iff.1 (hround a)
    exact orFails_iff.2 inferInstance
  · intro α round round' hround
    have hround := orFails_iff.1 hround
    exact orFails_iff.2 inferInstance
  · exact fun r r' h => h.handOver

/-- A declaration without a name stops at the token in the place of the name. Wherever expressions
have no other outcome than this error, it is the error of what they are parts of. -/
theorem errors_are_about_current_let :
    let place : UInt32 → Position := fun offset => ⟨offset, "shell"⟩
    let tokens : List Token :=
      [⟨.keyword .kwLet, "let", place 0, place 3⟩, ⟨.symbol, "=", place 4, place 5⟩,
        ⟨.number, "1", place 6, place 7⟩, ⟨.endOfInput, "EOF", place 7, place 7⟩]
    let s := Session.start .script tokens "shell"
    ∃ e stop, s.parser (.statement .any) s.cursor = .failed e stop ∧ stop.index = 1 ∧
      e.Names stop.current ∧ (s.answer (.statement .any)).1 = .error e ∧
      let broken : Readers := { Grammar.script.readers with expr := fun _ _ => .failed e stop }
      broken.HandOver e stop Grammar.script.readers := by
  intro place tokens s
  let stop : Cursor :=
    { consumed := [⟨.keyword .kwLet, "let", place 0, place 3⟩]
      upcoming := [⟨.symbol, "=", place 4, place 5⟩, ⟨.number, "1", place 6, place 7⟩]
      finish := ⟨"EOF", place 7, place 7⟩ }
  have herror : (s.parser (.statement .any) s.cursor).error? =
      some ⟨.refused (.expectedName .variableName) (some "="), place 4⟩ := by decide +kernel
  have hstop : (s.parser (.statement .any) s.cursor).cursor? = some stop := by decide +kernel
  have hfails := Outcome.eq_failed herror hstop
  obtain ⟨hanswers, -, -, hpasses⟩ := errors_are_about_current s
  obtain ⟨hnames, hanswer⟩ := hanswers _ _ _ hfails
  refine ⟨_, stop, hfails, rfl, hnames, congrArg Prod.fst hanswer, (hpasses _ stop).2.2.2.2 _ _ ?_⟩
  exact ⟨fun _ _ => .inr rfl, fun _ _ => .inl rfl, fun _ => .inr rfl⟩

end ScriptSyntax
