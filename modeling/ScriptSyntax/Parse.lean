import ScriptSyntax.Cursor
import ScriptSyntax.Error

/-! Parsers: actions on a cursor. An error leaves the cursor where it was met. A parser that would
go round without ever consuming a token has an outcome of its own, which no grammar of the language
reaches but a grammar with odd rules may. -/
namespace ScriptSyntax

/-- What becomes of a parser, and where the cursor is then. -/
inductive Outcome (α : Type) where
  | done (value : α) (cursor : Cursor)
  | failed (error : Error) (cursor : Cursor)
  | endless
  deriving DecidableEq, Repr

def Parse (α : Type) : Type := Cursor → Outcome α

namespace Parse
variable {α β : Type}

protected def pure (a : α) : Parse α := fun c => .done a c

/-- The second parser goes on where the first one ends. -/
protected def bind (p : Parse α) (f : α → Parse β) : Parse β := fun c =>
  match p c with
  | .done a rest => f a rest
  | .failed e stop => .failed e stop
  | .endless => .endless

instance : Monad Parse where
  pure := Parse.pure
  bind := Parse.bind

theorem pure_apply (a : α) (c : Cursor) : (pure a : Parse α) c = .done a c := rfl

theorem bind_apply (p : Parse α) (f : α → Parse β) (c : Cursor) :
    (p >>= f) c = match p c with
      | .done a rest => f a rest
      | .failed e stop => .failed e stop
      | .endless => .endless := rfl

instance : LawfulMonad Parse := LawfulMonad.mk' Parse
  (fun p => by
    funext c
    change (p >>= fun a => pure a) c = p c
    rw [bind_apply]
    cases p c <;> rfl)
  (fun _ _ => rfl)
  (fun p f g => by
    funext c
    simp only [bind_apply]
    cases p c <;> rfl)

/-! Looking and moving. -/

def current : Parse Token := fun c => .done c.current c

def lastEnd : Parse Position := fun c => .done c.lastEnd c

/-- Refuses the current token. Every error of a parser arises here, at the cursor. -/
def refuse (cause : Token → Cause) : Parse α := fun c =>
  .failed ⟨cause c.current, c.current.span.start⟩ c

/-- Refuses the current token on the part of the grammar. -/
def complain (complaint : Complaint) : Parse α :=
  refuse fun t => .refused complaint (some t.mention)

/-- Consumes the current token, which an end of input survives, and gives it. -/
def advance : Parse Token := fun c => .done c.current c.next

/-- Consumes a run of tokens of a kind and counts them. -/
def skip (kind : TokenKind) : Parse Nat := fun c => .done (c.run kind).length (c.skip kind)

/-- Consumes the current token and the ends of lines after it. -/
def advanceLine : Parse Token := do
  let t ← advance
  let _ ← skip .newLine
  return t

/-! Tests of the current token. -/

def atSymbol (text : String) : Parse Bool := do return (← current).isSymbol text

def atKeyword (word : Keyword) : Parse Bool := do return (← current).isKeyword word

/-- Whether a token is left before the end of input. -/
def atToken : Parse Bool := do return (← current).kind ≠ .endOfInput

/-- Consumes the current token if it passes a test. -/
def accept (test : Token → Bool) : Parse Bool := do
  if test (← current) then
    let _ ← advance
    return true
  else
    return false

def acceptSymbol (text : String) : Parse Bool := accept (·.isSymbol text)

def acceptKeyword (word : Keyword) : Parse Bool := accept (·.isKeyword word)

def acceptKind (kind : TokenKind) : Parse Bool := accept (·.kind = kind)

/-- Consumes the current token, which has to pass a test. -/
def expect (test : Token → Bool) (complaint : Complaint) : Parse Token := do
  if test (← current) then advance else complain complaint

def expectSymbol (text : String) : Parse Token := expect (·.isSymbol text) (.expectedSymbol text)

def expectKind (kind : TokenKind) (complaint : Complaint) : Parse Token :=
  expect (·.kind = kind) complaint

/-- Consumes a name and gives its text. Reserved words are no names. -/
def expectName (role : NameRole) : Parse String := do
  return (← expectKind .name (.expectedName role)).text

/-! Repetition. -/

/-- Rounds that each make a value from the value before, until one says that it is the last. A round
that is not the last has to consume a token. -/
def iterate (round : α → Parse (ForInStep α)) (a : α) : Parse α := fun c =>
  match round a c with
  | .done (.done b) rest => .done b rest
  | .done (.yield b) rest =>
    if rest.remaining < c.remaining then iterate round b rest else .endless
  | .failed e stop => .failed e stop
  | .endless => .endless
termination_by c => c.remaining

/-- The items that rounds give one after the other, until one says that it is the last. A round that
is not the last has to consume a token. -/
def collect (round : Parse (ForInStep (List α))) : Parse (List α) := fun c =>
  match round c with
  | .done (.done items) rest => .done items rest
  | .done (.yield items) rest =>
    if rest.remaining < c.remaining then
      match collect round rest with
      | .done more rest => .done (items ++ more) rest
      | other => other
    else .endless
  | .failed e stop => .failed e stop
  | .endless => .endless
termination_by c => c.remaining

/-- Items with commas between them, up to a closing parenthesis. Lines may end after an item and
after a comma, and a comma may stand after the last item. -/
def commaSeparated (item : Parse α) : Parse (List α) :=
  collect do
    if ← atSymbol ")" then return .done []
    else
      let a ← item
      let _ ← skip .newLine
      if ← acceptSymbol "," then
        let _ ← skip .newLine
        return .yield [a]
      else return .done [a]

end Parse
end ScriptSyntax
