import ScriptSyntax.Token

/-! A cursor in a list of tokens. The list has an end of input as its last token, so there always is
a current token; another one in the middle stops the cursor all the same. -/
namespace ScriptSyntax

/-- The end of input that closes a list. It is no ordinary token: its kind is fixed. -/
structure EndMark where
  text : String
  span : Span
  deriving DecidableEq, Repr

def EndMark.token (m : EndMark) : Token := ⟨.endOfInput, m.text, m.span⟩

/-- The tokens before the current one, the latest first, and those from it on up to the end. Their
number is kept with them, for it is asked at every step. -/
structure Cursor where
  consumed : List Token
  upcoming : List Token
  finish : EndMark
  /-- How often the cursor can still move. -/
  remaining : Nat := upcoming.length
  remaining_eq : remaining = upcoming.length := by rfl
  deriving DecidableEq, Repr

namespace Cursor

/-- A cursor on the first of some tokens. An end of input is added if the last token is none; the
file is needed only where there is no token to take a position from. -/
def start (tokens : List Token) (file : String) : Cursor :=
  match tokens.getLast? with
  | some t =>
    if t.kind = .endOfInput then
      { consumed := [], upcoming := tokens.dropLast, finish := ⟨t.text, t.span⟩ }
    else { consumed := [], upcoming := tokens, finish := ⟨"EOF", t.span.stop.empty⟩ }
  | none => { consumed := [], upcoming := [], finish := ⟨"EOF", Position.empty ⟨0, file⟩⟩ }

/-- All tokens, wherever the cursor is. -/
def tokens (c : Cursor) : List Token := c.consumed.reverse ++ c.upcoming ++ [c.finish.token]

def current (c : Cursor) : Token := c.upcoming.headD c.finish.token

/-- The number of tokens before the current one. -/
def index (c : Cursor) : Nat := c.consumed.length

/-- Where the latest consumed token ends, or where the first one begins. -/
def lastEnd (c : Cursor) : Position :=
  match c.consumed with
  | [] => c.current.span.start
  | t :: _ => t.span.stop

/-- Moves past the current token, but not past an end of input. -/
def next (c : Cursor) : Cursor :=
  match h : c.upcoming with
  | [] => c
  | t :: rest =>
    if t.kind = .endOfInput then c
    else
      { consumed := t :: c.consumed
        upcoming := rest
        finish := c.finish
        remaining := c.remaining - 1
        remaining_eq := by simp [c.remaining_eq, h] }

/-- The run of tokens of a kind from the current one on. The end of input makes no run. -/
def run (kind : TokenKind) (c : Cursor) : List Token :=
  if kind = .endOfInput then [] else c.upcoming.takeWhile (·.kind = kind)

/-- Moves past a run. -/
def skip (kind : TokenKind) (c : Cursor) : Cursor :=
  let run := c.run kind
  { consumed := run.reverse ++ c.consumed
    upcoming := c.upcoming.drop run.length
    finish := c.finish
    remaining := c.remaining - run.length
    remaining_eq := by simp [c.remaining_eq] }

theorem tokens_next (c : Cursor) : c.next.tokens = c.tokens := by
  obtain ⟨consumed, upcoming, finish, _, rfl⟩ := c
  cases upcoming with
  | nil => rfl
  | cons t rest =>
    simp only [next]
    split <;> simp [tokens]

theorem run_isPrefix (kind : TokenKind) (c : Cursor) : c.run kind <+: c.upcoming := by
  rw [run]
  split
  · exact List.nil_prefix
  · exact List.takeWhile_prefix _

theorem tokens_skip (kind : TokenKind) (c : Cursor) : (c.skip kind).tokens = c.tokens := by
  obtain ⟨rest, hrest⟩ := c.run_isPrefix kind
  simp only [tokens, skip]
  rw [← hrest]
  simp

end Cursor
end ScriptSyntax
