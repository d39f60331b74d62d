/-
How a program ends.
-/
import Telemetry.Fault
import Telemetry.Options.Arguments

namespace Telemetry.Exit

def success : UInt8 := 0

def failure : UInt8 := 1

/-- The code of a program whose command line is refused; help is not refused. -/
def ofArguments (f : ArgumentFault) : UInt8 := if f = .displayHelp then success else 2

/-- The code of a program by the way it ended. -/
def ofResult {α : Type} : Result α → UInt8
  | .ok _ => success
  | .error _ => failure

end Telemetry.Exit
