import ScriptSyntax.Token

/-! Grammars as tables. An expression is a start followed by tails, as long as these bind tightly
enough; a token's key decides which start or tail it begins. Statements are told apart by rules that
are tried in order. Tables can be changed entry by entry, and only by whole entries. -/
namespace ScriptSyntax

/-- How tightly something binds what stands before it, the loosest first. -/
inductive BindingPower where
  | default | comma | assignment | logical | relational | additive | multiplicative | unary | call
  | member | primary
  deriving DecidableEq, Repr

namespace BindingPower

def all : List BindingPower :=
  [default, comma, assignment, logical, relational, additive, multiplicative, unary, call, member,
   primary]

def rank : BindingPower → Nat
  | default => 0
  | comma => 1
  | assignment => 2
  | logical => 3
  | relational => 4
  | additive => 5
  | multiplicative => 6
  | unary => 7
  | call => 8
  | member => 9
  | primary => 10

def name : BindingPower → String
  | default => "Default"
  | comma => "Comma"
  | assignment => "Assignment"
  | logical => "Logical"
  | relational => "Relational"
  | additive => "Additive"
  | multiplicative => "Multiplicative"
  | unary => "Unary"
  | call => "Call"
  | member => "Member"
  | primary => "Primary"

instance : LT BindingPower := ⟨fun a b => a.rank < b.rank⟩

instance : LE BindingPower := ⟨fun a b => a.rank ≤ b.rank⟩

instance (a b : BindingPower) : Decidable (a < b) := inferInstanceAs (Decidable (a.rank < b.rank))

instance (a b : BindingPower) : Decidable (a ≤ b) := inferInstanceAs (Decidable (a.rank ≤ b.rank))

end BindingPower

/-- What an expression may start with. -/
inductive ExprStart where
  | literal
  | prefixed
  | grouping
  | closure
  deriving DecidableEq, Repr

/-- What an expression may go on with. -/
inductive ExprTail where
  | assignment
  | binary
  | call
  | member
  deriving DecidableEq, Repr

/-- What a type may start with. -/
inductive TypeStart where
  | name
  deriving DecidableEq, Repr

/-- What a type may go on with. -/
inductive TypeTail where
  | array
  deriving DecidableEq, Repr

/-- The forms of statements that begin with a token of their own, and `any`, which looks at the
rules once more. -/
inductive StatementForm where
  | any
  | block
  | declaration
  | conditional
  | result
  | loop
  | function
  | classDefinition
  deriving DecidableEq, Repr

/-- A test of the token that a statement begins with. Any will do for a rule; those of the language
look for a symbol or a reserved word. -/
abbrev TokenTest := Token → Bool

namespace TokenTest

def always : TokenTest := fun _ => true

def never : TokenTest := fun _ => false

def symbol (text : String) : TokenTest := (·.isSymbol text)

def keyword (word : Keyword) : TokenTest := (·.isKeyword word)

def kind (k : TokenKind) : TokenTest := (·.kind = k)

end TokenTest

structure StatementRule where
  name : String
  test : TokenTest
  form : StatementForm

/-- Values under keys. No key is there twice: a new value takes the place of the old one. -/
structure Table (α : Type) where
  entries : List (String × α) := []
  deriving DecidableEq, Repr

namespace Table
variable {α : Type}

def get? (t : Table α) (key : String) : Option α := t.entries.lookup key

def insert (t : Table α) (key : String) (a : α) : Table α :=
  ⟨(key, a) :: t.entries.filter (·.1 ≠ key)⟩

def keys (t : Table α) : List String := t.entries.map (·.1)

theorem get?_insert (t : Table α) (key other : String) (a : α) :
    (t.insert key a).get? other = if other = key then some a else t.get? other := by
  simp only [get?, insert, List.lookup_cons]
  by_cases h : other = key
  · simp [h]
  · simp only [h, if_false, beq_eq_false_iff_ne.2 h]
    induction t.entries with
    | nil => rfl
    | cons entry entries ih =>
      obtain ⟨k, b⟩ := entry
      by_cases hk : k = key
      · have ho : (other == k) = false := beq_eq_false_iff_ne.2 (hk ▸ h)
        rw [List.filter_cons_of_neg (by simp [hk]), List.lookup_cons, ho]
        exact ih
      · rw [List.filter_cons_of_pos (by simp [hk]), List.lookup_cons, List.lookup_cons]
        cases other == k
        · exact ih
        · rfl

end Table

/-- The tables of a language. A tail's power and what it means are in two tables, which the ways to
change a grammar keep in step. -/
structure Grammar where
  rules : List StatementRule := []
  starts : Table ExprStart := {}
  tails : Table ExprTail := {}
  powers : Table BindingPower := {}
  typeStarts : Table TypeStart := {}
  typeTails : Table TypeTail := {}
  typePowers : Table BindingPower := {}

namespace Grammar

/-- Adds a rule after the ones that are there. -/
def addRule (g : Grammar) (rule : StatementRule) : Grammar := { g with rules := g.rules ++ [rule] }

/-- A start has no power: a token that only starts expressions ends the one before it. -/
def addStart (g : Grammar) (key : String) (start : ExprStart) : Grammar :=
  { g with starts := g.starts.insert key start }

def addTail (g : Grammar) (key : String) (power : BindingPower) (tail : ExprTail) : Grammar :=
  { g with powers := g.powers.insert key power, tails := g.tails.insert key tail }

def addTypeStart (g : Grammar) (key : String) (start : TypeStart) : Grammar :=
  { g with typeStarts := g.typeStarts.insert key start }

def addTypeTail (g : Grammar) (key : String) (power : BindingPower) (tail : TypeTail) :
    Grammar :=
  { g with
    typePowers := g.typePowers.insert key power
    typeTails := g.typeTails.insert key tail }

/-- The binary operators of the language. -/
def binaryOperators : List (String × BindingPower) :=
  [("&&", .logical), ("||", .logical), ("<", .relational), ("<=", .relational), (">", .relational),
   (">=", .relational), ("==", .relational), ("!=", .relational), ("+", .additive),
   ("-", .additive), ("*", .multiplicative), ("/", .multiplicative), ("%", .multiplicative)]

def assignmentOperators : List String := ["=", "+=", "-="]

def prefixOperators : List String := ["-", "!"]

/-- The kinds of tokens that are expressions by themselves, as keys. -/
def literalKeys : List String := ["<number>", "<identifier>", "<string>"]

/-- The rules of the language. What none of them applies to is an expression. -/
def scriptRules : List StatementRule :=
  [⟨"block", .symbol "\x7b", .block⟩, ⟨"if", .keyword .kwIf, .conditional⟩,
   ⟨"function", .keyword .kwFunction, .function⟩, ⟨"return", .keyword .kwReturn, .result⟩,
   ⟨"for", .keyword .kwFor, .loop⟩, ⟨"class", .keyword .kwClass, .classDefinition⟩,
   ⟨"let", .keyword .kwLet, .declaration⟩, ⟨"var", .keyword .kwVar, .declaration⟩]

/-- Adds the expressions and statements of the language. -/
def addScript (g : Grammar) : Grammar :=
  let g := assignmentOperators.foldl (fun g key => g.addTail key .assignment .assignment) g
  let g := binaryOperators.foldl (fun g (key, power) => g.addTail key power .binary) g
  let g := (g.addTail "(" .call .call).addTail "." .member .member
  let g := literalKeys.foldl (fun g key => g.addStart key .literal) g
  let g := prefixOperators.foldl (fun g key => g.addStart key .prefixed) g
  let g := (g.addStart "(" .grouping).addStart "function" .closure
  scriptRules.foldl addRule g

/-- Adds the types of the language: names, and arrays of a type. -/
def addTypes (g : Grammar) : Grammar :=
  (g.addTypeStart "<identifier>" .name).addTypeTail "[" .call .array

/-- The grammar of the language. -/
def script : Grammar := ({} : Grammar).addScript.addTypes

end Grammar
end ScriptSyntax
