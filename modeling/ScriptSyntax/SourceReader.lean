import ScriptSyntax.Position
import ScriptSyntax.Text.Bytes

/-! A source with a place in it, which moves by bytes. -/
namespace ScriptSyntax

structure SourceReader where
  source : String
  place : Place
  deriving DecidableEq, Repr

namespace SourceReader

def start (source file : String) : SourceReader := ⟨source, .start file⟩

/-- Moves on without regard to characters or to the end of the source. -/
def advance (r : SourceReader) (bytes : Nat) : SourceReader := ⟨r.source, r.place.advance bytes⟩

def atEnd (r : SourceReader) : Bool := r.source.utf8ByteSize ≤ r.place.offset.toNat

/-- What is still to be read, if the place is between two characters and not past the end. -/
def rest? (r : SourceReader) : Option String :=
  (Text.cutAt? r.place.offset.toNat r.source.toList).map fun (_, after) => String.ofList after

end SourceReader
end ScriptSyntax
