/-! Places in a source: byte offsets, the spans between them, and a place that reading moves. -/
namespace ScriptSyntax

/-- A byte offset in a named source. Offsets have 32 bits, which bounds the size of a source. -/
structure Position where
  offset : UInt32
  file : String
  deriving DecidableEq, Repr, Inhabited

/-- The text from `start` up to, but not including, `stop`. -/
structure Span where
  start : Position
  stop : Position
  deriving DecidableEq, Repr, Inhabited

/-- The span of no text at a position. -/
def Position.empty (p : Position) : Span := ⟨p, p⟩

/-- Where reading stands in a named source. The offset has 64 bits, so it can pass the last
position; a position keeps its low 32 bits. -/
structure Place where
  offset : UInt64
  file : String
  deriving DecidableEq, Repr, Inhabited

namespace Place

def start (file : String) : Place := ⟨0, file⟩

def advance (p : Place) (bytes : Nat) : Place := ⟨p.offset + bytes.toUInt64, p.file⟩

def position (p : Place) : Position := ⟨p.offset.toUInt32, p.file⟩

/-- The span of the next `bytes` bytes. -/
def span (p : Place) (bytes : Nat) : Span := ⟨p.position, (p.advance bytes).position⟩

theorem advance_advance (p : Place) (m n : Nat) : (p.advance m).advance n = p.advance (m + n) := by
  simp [advance, UInt64.add_assoc]

end Place
end ScriptSyntax
