import ScriptSyntax.Number.Numeral
import ScriptSyntax.Proofs.Layouts

/-! The language as a grammar, apart from how it is read: which tokens spell which tree. Trees may
have any spans here. -/
namespace ScriptSyntax
variable {ws vs : List Terminal} {pieces : List (List Terminal)}

/-! Types, parameters and signatures. -/

/-- A name with any number of brackets after it. -/
inductive TypeText : TypeExpr → List Terminal → Prop
  | named (x : String) (p : Position) : TypeText (.named x p) [.name x]
  | array {element : TypeExpr} {ws : List Terminal} : TypeText element ws →
    TypeText (.array element) (ws ++ [.symbol "[", .symbol "]"])

/-- A type after a symbol, if there is one. -/
inductive Annotation (symbol : String) : TypeExpr → List Terminal → Prop
  | absent : Annotation symbol .any []
  | present {type : TypeExpr} {ws : List Terminal} : TypeText type ws →
    Annotation symbol type (.symbol symbol :: ws)

inductive ParameterText : Parameter → List Terminal → Prop
  | intro {type : TypeExpr} {ws : List Terminal} (x : String) : Annotation ":" type ws →
    ParameterText ⟨x, type⟩ (.name x :: ws)

inductive SignatureText : Signature → List Terminal → Prop
  | intro {items : List (Parameter × List Terminal)} {result : TypeExpr} {ws vs : List Terminal} :
    (∀ i ∈ items, ParameterText i.1 i.2) → Parenthesized (items.map (·.2)) ws →
      Annotation "->" result vs → SignatureText ⟨items.map (·.1), result⟩ (ws ++ vs)

/-- The names of a loop's variables after the word `as`, if there are any. -/
def loopNames : List String → List Terminal
  | [] => []
  | x :: xs => .keyword .kwAs :: .name x :: xs.flatMap fun y => [.symbol ",", .name y]

/-- The class that a class extends, after a colon. -/
def superclassText : Option String → List Terminal
  | none => []
  | some x => [.symbol ":", .name x]

/-! Expressions, statements and blocks. -/

/-- The levels of expressions, each tighter than the one before. -/
inductive Tier where
  | expr | logic | rel | add | mul | unary | suffixed | primary
  deriving DecidableEq, Repr

namespace Tier

/-- The next tighter level. -/
def next? : Tier → Option Tier
  | expr => some logic
  | logic => some rel
  | rel => some add
  | add => some mul
  | mul => some unary
  | unary => some suffixed
  | suffixed => some primary
  | primary => none

/-- The operators whose chains group to the left. -/
def operators : Tier → List String
  | logic => ["&&", "||"]
  | rel => ["<", "<=", ">", ">=", "==", "!="]
  | add => ["+", "-"]
  | mul => ["*", "/", "%"]
  | _ => []

end Tier

/-- The number that a text denotes. A text that is no number, or one too large, counts as zero. -/
def numberValue (text : String) : Double := (Double.ofText? text).getD (.zero false)

/-- What is derived: an expression of some level, a block or a statement. -/
inductive Phrase where
  | expr (tier : Tier) (value : Expr)
  | block (body : Block)
  | statement (value : Statement)

/-- The rules of the grammar, with a condition on what may follow a statement in a loop. -/
inductive Derives (fits : Statement → List Terminal → Prop) : Phrase → List Terminal → Prop
  | number (text : String) (span : Span) :
    Derives fits (.expr .primary (.number (numberValue text) span)) [.number text]
  | string (value : String) (span : Span) :
    Derives fits (.expr .primary (.string value span)) [.string value]
  | name (x : String) (span : Span) : Derives fits (.expr .primary (.name x span)) [.name x]
  | grouping {e : Expr} {nl ws nl' : List Terminal} : EmptyLines nl →
    Derives fits (.expr .expr e) ws → EmptyLines nl' →
      Derives fits (.expr .primary e) (.symbol "(" :: (nl ++ (ws ++ (nl' ++ [.symbol ")"]))))
  | closure {signature : Signature} {body : Block} {ws vs : List Terminal} (span : Span) :
    SignatureText signature ws → Derives fits (.block body) vs →
      Derives fits (.expr .primary (.closure none signature body span))
        (.keyword .kwFunction :: (ws ++ vs))
  | call {callee : Expr} {items : List (Expr × List Terminal)} {ws vs : List Terminal}
    (span : Span) : Derives fits (.expr .suffixed callee) ws →
      (∀ i ∈ items, Derives fits (.expr .expr i.1) i.2) → Parenthesized (items.map (·.2)) vs →
        Derives fits (.expr .suffixed (.call callee (items.map (·.1)) span)) (ws ++ vs)
  | member {object : Expr} {ws : List Terminal} (x : String) (span : Span) :
    Derives fits (.expr .suffixed object) ws →
      Derives fits (.expr .suffixed (.member object x span)) (ws ++ [.symbol ".", .name x])
  | prefixed {operator : String} {operand : Expr} {ws : List Terminal} (span : Span) :
    operator ∈ ["-", "!"] → Derives fits (.expr .unary operand) ws →
      Derives fits (.expr .unary (.prefixed operator operand span)) (.symbol operator :: ws)
  | binary {tier tighter : Tier} {operator : String} {left right : Expr}
    {ws nl vs : List Terminal} (span : Span) :
    operator ∈ tier.operators → tier.next? = some tighter → Derives fits (.expr tier left) ws →
      EmptyLines nl → Derives fits (.expr tighter right) vs →
        Derives fits (.expr tier (.binary operator left right span))
          (ws ++ .symbol operator :: (nl ++ vs))
  | assignment {operator : String} {target value : Expr} {ws nl vs : List Terminal}
    (span : Span) : operator ∈ ["=", "+=", "-="] → Derives fits (.expr .logic target) ws →
      EmptyLines nl → Derives fits (.expr .expr value) vs →
        Derives fits (.expr .expr (.assignment operator target value span))
          (ws ++ .symbol operator :: (nl ++ vs))
  | tighter {tier tighter : Tier} {e : Expr} {ws : List Terminal} :
    tier.next? = some tighter → Derives fits (.expr tighter e) ws → Derives fits (.expr tier e) ws
  | block {items : List (Statement × List Terminal)} {ws : List Terminal} (span : Span) :
    (∀ i ∈ items, Derives fits (.statement i.1) i.2) → OnLines (items.map (·.2)) ws →
      Derives fits (.block ⟨items.map (·.1), span⟩)
        (.symbol "\x7b" :: (ws ++ [.symbol "\x7d"]))
  | nested {body : Block} {ws : List Terminal} : Derives fits (.block body) ws →
    Derives fits (.statement (.block body)) ws
  | conditional {condition : Expr} {body : Block} {ws vs : List Terminal} (span : Span) :
    Derives fits (.expr .expr condition) ws → Derives fits (.block body) vs →
      Derives fits (.statement (.conditional condition body none span))
        (.keyword .kwIf :: (ws ++ vs))
  | alternative {condition : Expr} {body elseBody : Block} {ws vs us : List Terminal}
    (span : Span) : Derives fits (.expr .expr condition) ws → Derives fits (.block body) vs →
      Derives fits (.block elseBody) us →
        Derives fits (.statement (.conditional condition body (some elseBody) span))
          (.keyword .kwIf :: (ws ++ (vs ++ .keyword .kwElse :: us)))
  | function {signature : Signature} {body : Block} {ws vs : List Terminal} (x : String)
    (span : Span) : SignatureText signature ws → Derives fits (.block body) vs →
      Derives fits (.statement (.function x signature body span))
        (.keyword .kwFunction :: .name x :: (ws ++ vs))
  | result {value : Expr} {ws : List Terminal} (span : Span) :
    Derives fits (.expr .expr value) ws →
      Derives fits (.statement (.result value span)) (.keyword .kwReturn :: ws)
  | loop {iterable : Expr} {items : List (Statement × List Terminal)} {ws nl vs : List Terminal}
    (names : List String) (bodySpan span : Span) : Derives fits (.expr .expr iterable) ws →
      EmptyLines nl → (∀ i ∈ items, Derives fits (.statement i.1) i.2) → Loosely fits items vs →
        Derives fits (.statement (.loop iterable names ⟨items.map (·.1), bodySpan⟩ span))
          (.keyword .kwFor :: (ws ++ .symbol "\x7b" :: (nl ++ (loopNames names ++
            (vs ++ [.symbol "\x7d"])))))
  | classDefinition {body : Block} {ws : List Terminal} (x : String) (superclass : Option String)
    (span : Span) : Derives fits (.block body) ws →
      Derives fits (.statement (.classDefinition x superclass body span))
        (.keyword .kwClass :: .name x :: (superclassText superclass ++ ws))
  | unassigned {type : TypeExpr} {ws : List Terminal} (changes : Bool) (x : String)
    (valueSpan span : Span) : Annotation ":" type ws →
      Derives fits (.statement (.declaration changes x type (.unassigned valueSpan) span))
        (.keyword (if changes then .kwVar else .kwLet) :: .name x :: ws)
  | declaration {type : TypeExpr} {value : Expr} {ws nl vs : List Terminal} (changes : Bool)
    (x : String) (span : Span) : Annotation ":" type ws → EmptyLines nl →
      Derives fits (.expr .expr value) vs →
        Derives fits (.statement (.declaration changes x type (value.named x) span))
          (.keyword (if changes then .kwVar else .kwLet) :: .name x ::
            (ws ++ .symbol "=" :: (nl ++ vs)))
  | expression {value : Expr} {ws : List Terminal} (span : Span) :
    Derives fits (.expr .expr value) ws → ws.head? ≠ some (.keyword .kwFunction) →
      Derives fits (.statement (.expression value span)) ws

/-- Statements on lines of their own and the end of the input. -/
inductive DerivesProgram (fits : Statement → List Terminal → Prop) :
    List Statement → List Terminal → Prop
  | intro {items : List (Statement × List Terminal)} {ws : List Terminal} :
    (∀ i ∈ items, Derives fits (.statement i.1) i.2) → OnLines (items.map (·.2)) ws →
      DerivesProgram fits (items.map (·.1)) (ws ++ [.endOfInput])

/-- A statement is a program. -/
theorem DerivesProgram.single {fits : Statement → List Terminal → Prop} {s : Statement}
    (h : Derives fits (.statement s) ws) : DerivesProgram fits [s] (ws ++ [.endOfInput]) := by
  have hitems : ∀ i ∈ [(s, ws)], Derives fits (.statement i.1) i.2 :=
    List.forall_mem_singleton.2 h
  exact .intro hitems (.last ws)

/-- No condition: in a loop any statement may follow any other. -/
def anyFit : Statement → List Terminal → Prop := fun _ _ => True

/-- Whether a statement ends in an expression, which more tokens could belong to. -/
def Statement.endsOpen : Statement → Bool
  | .expression _ _ | .result _ _ => true
  | .declaration _ _ _ (.unassigned _) _ => false
  | .declaration _ _ _ _ _ => true
  | _ => false

/-- A statement that ends in an expression takes what can belong to it, and leaves no parenthesis
and no minus behind it. -/
def longestFit (s : Statement) (rest : List Terminal) : Prop :=
  s.endsOpen → rest.head? ≠ some (.symbol "(") ∧ rest.head? ≠ some (.symbol "-")

variable {fits fits' : Statement → List Terminal → Prop} {p : Phrase}

theorem Loosely.mono {items : List (Statement × List Terminal)} (h : Loosely fits items ws)
    (hfits : ∀ s rest, fits s rest → fits' s rest) : Loosely fits' items ws := by
  induction h with
  | nil hnl => exact .nil hnl
  | cons ws hnl hs _ ih => exact .cons ws hnl (hfits _ _ hs) ih

theorem Derives.mono (h : Derives fits p ws) (hfits : ∀ s rest, fits s rest → fits' s rest) :
    Derives fits' p ws := by
  induction h with
  | number text span => exact .number text span
  | string value span => exact .string value span
  | name x span => exact .name x span
  | grouping hnl _ hnl' ih => exact .grouping hnl ih hnl'
  | closure span hsig _ ih => exact .closure span hsig ih
  | call span _ _ hvs ih iha => exact .call span ih iha hvs
  | member x span _ ih => exact .member x span ih
  | prefixed span hop _ ih => exact .prefixed span hop ih
  | binary span hop hn _ hnl _ ihl ihr => exact .binary span hop hn ihl hnl ihr
  | assignment span hop _ hnl _ iht ihv => exact .assignment span hop iht hnl ihv
  | tighter hn _ ih => exact .tighter hn ih
  | block span _ hws ih => exact .block span ih hws
  | nested _ ih => exact .nested ih
  | conditional span _ _ ihc ihb => exact .conditional span ihc ihb
  | alternative span _ _ _ ihc ihb ihe => exact .alternative span ihc ihb ihe
  | function x span hsig _ ih => exact .function x span hsig ih
  | result span _ ih => exact .result span ih
  | loop names bodySpan span _ hnl _ hvs ihe ihs =>
    exact .loop names bodySpan span ihe hnl ihs (hvs.mono hfits)
  | classDefinition x superclass span _ ih => exact .classDefinition x superclass span ih
  | unassigned changes x valueSpan span hws => exact .unassigned changes x valueSpan span hws
  | declaration changes x span hws hnl _ ih => exact .declaration changes x span hws hnl ih
  | expression span _ hne ih => exact .expression span ih hne

theorem DerivesProgram.mono {ss : List Statement} (h : DerivesProgram fits ss ws)
    (hfits : ∀ s rest, fits s rest → fits' s rest) : DerivesProgram fits' ss ws := by
  cases h with
  | intro hitems hws => exact .intro (fun i hi => (hitems i hi).mono hfits) hws

/-! What words begin with. -/

/-- Whether an expression may begin with a terminal. -/
def Terminal.beginsExpr : Terminal → Bool
  | number _ | string _ | name _ => true
  | symbol text => text ∈ ["-", "!", "("]
  | keyword word => word = .kwFunction
  | newLine | endOfInput => false

/-- Whether a statement may begin with a terminal. -/
def Terminal.beginsStatement : Terminal → Bool
  | number _ | string _ | name _ => true
  | symbol text => text ∈ ["-", "!", "(", "\x7b"]
  | keyword word => word ∉ [.kwElse, .kwAs]
  | newLine | endOfInput => false

theorem Terminal.beginsStatement_of_beginsExpr {w : Terminal} (h : w.beginsExpr) :
    w.beginsStatement := by
  cases w with
  | symbol text =>
    have hmem : text ∈ ["-", "!", "("] := of_decide_eq_true h
    rw [beginsStatement, decide_eq_true_eq]
    exact List.mem_append_left ["\x7b"] hmem
  | keyword word =>
    have hword : word = .kwFunction := of_decide_eq_true h
    rw [hword]
    rfl
  | number _ | string _ | name _ => rfl
  | newLine | endOfInput => cases h

def Phrase.MayBegin : Phrase → Terminal → Prop
  | expr _ _, w => w.beginsExpr
  | block _, w => w = .symbol "\x7b"
  | statement _, w => w.beginsStatement

theorem Derives.begins (h : Derives fits p ws) : ∃ w us, ws = w :: us ∧ p.MayBegin w := by
  induction h with
  | number | string | name => exact ⟨_, _, rfl, rfl⟩
  | grouping => exact ⟨_, _, rfl, rfl⟩
  | closure => exact ⟨_, _, rfl, rfl⟩
  | call span _ _ _ ih _ | member x span _ ih =>
    obtain ⟨w, us, rfl, hw⟩ := ih
    exact ⟨w, _, List.cons_append, hw⟩
  | prefixed span hop _ _ =>
    exact ⟨_, _, rfl, decide_eq_true (List.mem_append_left ["("] hop)⟩
  | binary span _ _ _ _ _ ih _ | assignment span _ _ _ _ ih _ =>
    obtain ⟨w, us, rfl, hw⟩ := ih
    exact ⟨w, _, List.cons_append, hw⟩
  | tighter _ _ ih => exact ih
  | block => exact ⟨_, _, rfl, rfl⟩
  | nested _ ih =>
    obtain ⟨w, us, rfl, rfl⟩ := ih
    exact ⟨_, _, rfl, rfl⟩
  | conditional | alternative | function | result | loop | classDefinition =>
    exact ⟨_, _, rfl, rfl⟩
  | unassigned changes | declaration changes =>
    refine ⟨_, _, rfl, ?_⟩
    cases changes <;> rfl
  | expression span _ _ ih =>
    obtain ⟨w, us, rfl, hw⟩ := ih
    exact ⟨w, us, rfl, Terminal.beginsStatement_of_beginsExpr hw⟩

/-- No phrase begins on a later line. -/
theorem Derives.headD_ne (h : Derives fits p ws) (us : List Terminal) (w : Terminal) :
    (ws ++ us).headD w ≠ .newLine := by
  obtain ⟨v, vs, rfl, hv⟩ := h.begins
  rintro rfl
  cases p <;> cases hv

/-- The statements of a loop have no words at all, or begin with a new line or as a statement
does. -/
theorem Loosely.begins {items : List (Statement × List Terminal)} (h : Loosely fits items ws)
    (hitems : ∀ i ∈ items, Derives fits (.statement i.1) i.2) :
    ws = [] ∨ ∃ w us, ws = w :: us ∧ (w = .newLine ∨ w.beginsStatement) := by
  have hlines {nl us : List Terminal} (hnl : EmptyLines nl)
      (hus : us = [] ∨ ∃ w vs, us = w :: vs ∧ (w = .newLine ∨ w.beginsStatement)) :
      nl ++ us = [] ∨ ∃ w vs, nl ++ us = w :: vs ∧ (w = .newLine ∨ w.beginsStatement) := by
    cases nl with
    | nil => exact hus
    | cons w nl => exact .inr ⟨w, _, rfl, .inl (hnl w List.mem_cons_self)⟩
  cases h with
  | nil hnl =>
    have h := hlines hnl (.inl rfl)
    rwa [List.append_nil] at h
  | cons us hnl _ _ =>
    obtain ⟨w, vs, rfl, hw⟩ := (hitems _ List.mem_cons_self).begins
    exact hlines hnl (.inr ⟨w, _, rfl, .inr hw⟩)

/-- The lines at the beginning of a loop's statements can be told apart from the rest. -/
theorem Loosely.split_lines {items : List (Statement × List Terminal)}
    (h : Loosely fits items ws) (hitems : ∀ i ∈ items, Derives fits (.statement i.1) i.2) :
    ∃ nl us, ws = nl ++ us ∧ EmptyLines nl ∧ Loosely fits items us ∧
      (us = [] ∨ ∃ w vs, us = w :: vs ∧ w.beginsStatement) := by
  cases h with
  | nil hnl => exact ⟨_, [], by simp, hnl, .nil emptyLines_nil, .inl rfl⟩
  | cons us hnl hfits hrest =>
    obtain ⟨w, vs, rfl, hw⟩ := (hitems _ List.mem_cons_self).begins
    exact ⟨_, _, rfl, hnl, .cons _ emptyLines_nil hfits hrest, .inr ⟨w, _, rfl, hw⟩⟩

/-- Statements on lines have no words at all, or begin with a new line or as a statement does. -/
theorem statements_begin {ss : List Statement}
    (h : Items (fun us s => Derives fits (.statement s) us) OnLines ws ss) :
    (ws = [] ∧ ss = []) ∨ ∃ w us, ws = w :: us ∧ (w = .newLine ∨ w.beginsStatement) := by
  obtain ⟨items, rfl, hitems, hws⟩ := h
  have hpieces : ∀ piece ∈ items.map (·.2),
      ∃ w us, piece = w :: us ∧ (w.beginsStatement : Prop) := by
    intro piece hpiece
    obtain ⟨i, hi, rfl⟩ := List.mem_map.1 hpiece
    exact (hitems i hi).begins
  rcases hws.begins hpieces with ⟨rfl, hnil⟩ | hbegin
  · exact .inl ⟨rfl, by rw [List.map_eq_nil_iff.1 hnil]; rfl⟩
  · exact .inr hbegin

namespace Tier

def rank : Tier → Nat
  | expr => 0
  | logic => 1
  | rel => 2
  | add => 3
  | mul => 4
  | unary => 5
  | suffixed => 6
  | primary => 7

theorem rank_next {tier tighter : Tier} (h : tier.next? = some tighter) :
    tighter.rank = tier.rank + 1 := by
  cases tier <;> cases h <;> rfl

theorem eq_of_rank {a b : Tier} (h : a.rank = b.rank) : a = b := by
  cases a <;> cases b <;> first | rfl | cases h

theorem exists_next {a b : Tier} (h : a.rank < b.rank) : ∃ tighter, a.next? = some tighter := by
  cases a with
  | primary => cases b <;> exact absurd h (by decide)
  | _ => exact ⟨_, rfl⟩

end Tier

/-- An expression is one of every looser level too. -/
theorem Derives.loosen {tight loose : Tier} {e : Expr} (h : Derives fits (.expr tight e) ws)
    (hr : loose.rank ≤ tight.rank) : Derives fits (.expr loose e) ws := by
  by_cases heq : loose.rank = tight.rank
  · rwa [Tier.eq_of_rank heq]
  · have hlt : loose.rank < tight.rank := Nat.lt_of_le_of_ne hr heq
    obtain ⟨next, hnext⟩ := Tier.exists_next hlt
    have hrank := Tier.rank_next hnext
    exact .tighter hnext (h.loosen (by omega))
termination_by tight.rank - loose.rank

/-- A declared value is an expression that was read, so the declaration ends with it. -/
theorem endsOpen_declaration {tier : Tier} {e : Expr}
    (h : Derives fits (.expr tier e) ws) (changes : Bool) (x : String) (type : TypeExpr)
    (span : Span) : (Statement.declaration changes x type (e.named x) span).endsOpen := by
  generalize hp : Phrase.expr tier e = p at h
  induction h generalizing tier with
  | grouping _ _ _ ih =>
    obtain ⟨rfl, rfl⟩ := Phrase.expr.inj hp
    exact ih rfl
  | tighter _ _ ih =>
    obtain ⟨rfl, rfl⟩ := Phrase.expr.inj hp
    exact ih rfl
  | number | string | name | closure | call | member | prefixed | binary | assignment =>
    obtain ⟨rfl, rfl⟩ := Phrase.expr.inj hp
    rfl
  | _ => cases hp

end ScriptSyntax
