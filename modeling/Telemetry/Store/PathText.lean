/-
Paths as they are written.

A text names steps from the root, or from where one stands: names between
slashes, `.` to stay and `..` to go back.  The parent of a text is what remains
without its last step; repeated slashes, and steps that stay, count for nothing
there except at the very beginning.
-/
import Telemetry.Text.Pieces

namespace Telemetry.PathText

/-- The steps that a text names. -/
def steps (s : String) : List String := (Text.split '/' s).filter (· ≠ "")

def isAbsolute (s : String) : Bool := s.startsWith "/"

/-- Whether a text can only mean a directory. -/
def endsInSlash (s : String) : Bool := s.endsWith "/"

/-- The slash or the point at the beginning of a text, and what follows. -/
def splitLead : List Char → List Char × List Char
  | '/' :: cs => (['/'], cs)
  | ['.'] => (['.'], [])
  | '.' :: '/' :: cs => (['.'], '/' :: cs)
  | cs => ([], cs)

/-- Characters, the last one first, without the steps at their end that count for
nothing. -/
def trimmed : List Char → List Char
  | '/' :: cs => trimmed cs
  | ['.'] => []
  | '.' :: '/' :: cs => trimmed cs
  | cs => cs

/-- The text of the parent, and the last step; a text that only says where to begin
has neither. -/
def cut (s : String) : String × Option String :=
  let (lead, body) := splitLead s.toList
  match trimmed body.reverse with
  | [] => ("", none)
  | cs =>
    let above := trimmed ((cs.dropWhile (· ≠ '/')).drop 1)
    (String.ofList (lead ++ above.reverse), some (String.ofList (cs.takeWhile (· ≠ '/')).reverse))

def parent (s : String) : String := (cut s).1

/-- The name that a text ends with. -/
def name? (s : String) : Option String := (cut s).2.filter (· ≠ "..")

/-- A text with one more step. -/
def push (s step : String) : String :=
  if s = "" ∨ endsInSlash s then s ++ step else s ++ "/" ++ step

/-- The text of the place beside a path, whose name ends in `.tmp`. -/
def beside (s : String) : String :=
  match name? s with
  | some name => push (parent s) (name ++ ".tmp")
  | none => push s ".tmp"

end Telemetry.PathText
