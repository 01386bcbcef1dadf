import ScriptSyntax.Diagnostic
import ScriptSyntax.Layout
import ScriptSyntax.Parse.Program
import ScriptSyntax.Render
import ScriptSyntax.Tokenize

/-! The command line, apart from the reading of the file: a path and what stands there in, an exit
code and two texts out. -/
namespace ScriptSyntax.CommandLine

/-- The pieces between the slashes of a path. -/
def splitPath : List Char → List (List Char)
  | [] => [[]]
  | c :: path =>
    if c = '/' then [] :: splitPath path
    else match splitPath path with
      | piece :: pieces => (c :: piece) :: pieces
      | [] => [[c]]

/-- The name by which diagnostics call the file at a path: its last component, or the whole path if
that is no name. Empty components and single points do not count. -/
def fileName (path : String) : String :=
  let components := (splitPath path.toList).filter fun piece => piece ≠ [] && piece ≠ ['.']
  match components.getLast? with
  | none => path
  | some name => if name = ['.', '.'] then path else String.ofList name

/-- Why a file cannot be read. -/
inductive ReadFailure where
  | system (description : String) (code : Nat)
  | notText
  deriving DecidableEq, Repr

namespace ReadFailure

def missing : ReadFailure := .system "No such file or directory" 2

def directory : ReadFailure := .system "Is a directory" 21

def reason : ReadFailure → String
  | system description code => description ++ " (os error " ++ toString code ++ ")"
  | notText => "stream did not contain valid UTF-8"

end ReadFailure

/-- What a run leaves behind. -/
structure Report where
  code : Nat
  out : String
  err : String
  deriving DecidableEq, Repr

def Report.success (out : String) : Report := ⟨0, out, ""⟩

def Report.failure (err : String) : Report := ⟨1, "", err⟩

/-- A run that ends within the formatting of a report. What the runtime says of it is left out. -/
def Report.crash : Report := ⟨101, "", ""⟩

/-- Texts, each with the end of a line. -/
def lines (texts : List String) : String := String.join (texts.map (· ++ "\n"))

/-- Ends a run on a source that is refused. -/
def refuse (e : Error) (source name : String) : Report :=
  (Diagnostic.render? e source name).elim .crash .failure

theorem refuse_of_fits {e : Error} {source name : String} (h : Diagnostic.Fits e source) :
    refuse e source name = ⟨1, "", Diagnostic.render e source name⟩ := by
  rw [refuse, Diagnostic.render?, if_pos h]
  rfl

theorem refuse_of_not_fits {e : Error} {source name : String} (h : ¬ Diagnostic.Fits e source) :
    refuse e source name = .crash := by
  rw [refuse, Diagnostic.render?, if_neg h]
  rfl

theorem refuse_code_ne_zero (e : Error) (source name : String) :
    (refuse e source name).code ≠ 0 := by
  by_cases h : Diagnostic.Fits e source
  · simp [refuse_of_fits h]
  · simp [refuse_of_not_fits h, Report.crash]

/-- Runs on the text of a file: prints its tokens, or its statements laid out. -/
def runOn (name source : String) (tokensOnly : Bool) : Report :=
  match tokenize source (some name) with
  | .error e => refuse e source name
  | .ok tokens =>
    if tokensOnly then .success (lines (tokens.map Token.display))
    else match parse tokens name with
      | .done program _ => .success (lines (program.statements.map fun s => layout s.render))
      | .failed e _ => refuse e source name
      | .endless => .failure ""

/-- The text that the bytes of a file are. -/
def decode (bytes : ByteArray) : Except ReadFailure String :=
  if h : bytes.IsValidUTF8 then .ok (String.ofByteArray bytes h) else .error .notText

/-- Runs on a path and the bytes that stand there. The level of the log is the one that it has of
itself, at which nothing is logged: the option for another level is left out, and so are the lines
that it brings to standard error. -/
def run (path : String) (contents : Except ReadFailure ByteArray) (tokensOnly : Bool) : Report :=
  match contents.bind decode with
  | .ok source => runOn (fileName path) source tokensOnly
  | .error failure => .failure ("Error: failed to read " ++ path ++ ": " ++ failure.reason ++ "\n")

end ScriptSyntax.CommandLine
