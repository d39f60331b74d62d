/-
Keys in files.

A key file holds text; a file that is missing or holds anything else cannot be
read, whatever key it was meant to be.
-/
import Telemetry.Seal.Sealing
import Telemetry.Store.Disk

namespace Telemetry

def KeyFile.read (path : String) (d : Disk) : Result Bytes :=
  match (d.read? path).filter fun b => (Bytes.text? b).isSome with
  | some text => .ok text
  | none => .error (.internal ("read key " ++ path ++ ": unreadable file"))

def Sealer.ofFile (path : String) (d : Disk) : Result Sealer := (KeyFile.read path d).bind ofText

def Unsealer.ofFile (path : String) (d : Disk) : Result Unsealer :=
  (KeyFile.read path d).bind ofText

end Telemetry
