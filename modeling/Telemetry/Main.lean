/-
The command line.

The first argument picks the program.  The server answers the frames that come in
on standard input, until that ends; the agent starts and stops.  What a program
reads is brought from the files it names to a disk, and the snapshot it leaves is
brought back.
-/
import Telemetry.Program

namespace Telemetry.Outside

def environment (flags : List Flag) : IO (List (String × String)) :=
  flags.filterMapM fun f => do return (← IO.getEnv f.envName).map (f.envName, ·)

/-- A disk with a file that is brought in, if it is there. -/
def bringIn (d : Disk) (path : String) : IO Disk := do
  try
    let content ← IO.FS.readBinFile path
    let (_, d) := d.makeDirs (PathText.parent path)
    return (d.write? path content.data.toList).getD d
  catch _ => return d

/-- Brings a file out, by way of the name beside it. -/
def bringOut (d : Disk) (path : String) : IO Unit := do
  match d.read? path with
  | some content =>
    let above := PathText.parent path
    if above ≠ "" then IO.FS.createDirAll above
    IO.FS.writeBinFile (PathText.beside path) ⟨content.toArray⟩
    IO.FS.rename (PathText.beside path) path
  | none => return ()

/-- The disk with the files of options. -/
def diskOf (given : Given) : IO Disk :=
  (given.filterMap fun (_, v) => match v with
    | .text path => some path
    | _ => none).foldlM bringIn .empty

/-- Says why a program ends, and with which code. -/
def refuse (why : String) (code : UInt8) : IO UInt32 := do
  IO.eprintln why
  return code.toUInt32

def ports : Ports := ⟨fun _ => true, []⟩

/-- The peer at the other end of standard input. -/
def peer : IpAddr := .v4 0x7f000001

/-- Answers the frames of a stream until it ends. -/
partial def answerStream (input output : IO.FS.Stream) (r : Server.Running)
    (c : Server.Connection) : IO Server.Running := do
  let received ← input.read 65536
  if received.isEmpty ∨ c.closed then return r
  let (replies, c, server) := r.server.receive peer c received.data.toList
  for reply in replies do
    output.write ⟨(Stream.written reply.encode).toArray⟩
  output.flush
  answerStream input output { r with server } c

/-- The server, from its start to the end of standard input. -/
def server (arguments : List String) : IO UInt32 := do
  match Arguments.parse Server.Settings.flags arguments (← environment Server.Settings.flags) with
  | .error f => refuse f.name (Exit.ofArguments f)
  | .ok given =>
    let d ← diskOf given
    match Server.Settings.resolve Yaml.parse? given d with
    | .error f => refuse f.message Exit.failure
    | .ok s =>
      let d ← ([s.storeFile] ++ s.cryptoKey.toList).foldlM bringIn d
      match Server.Running.start s ports d with
      | .error f => refuse f.message Exit.failure
      | .ok r =>
        let r ← answerStream (← IO.getStdin) (← IO.getStdout) r .opened
        bringOut (r.run Server.Running.shutdown).1.disk s.storeFile
        return Exit.success.toUInt32

/-- The agent. -/
def agent (arguments : List String) : IO UInt32 := do
  let environment ← environment Agent.Settings.flags
  match Arguments.parse Agent.Settings.flags arguments environment with
  | .error f => refuse f.name (Exit.ofArguments f)
  | .ok given =>
    let d ← diskOf given
    match Agent.Settings.resolve Yaml.parse? given d with
    | .error f => refuse f.message Exit.failure
    | .ok s =>
      match Program.runAgent s (← s.cryptoKey.toList.foldlM bringIn d) with
      | .error f => refuse f.message Exit.failure
      | .ok () => return Exit.success.toUInt32

end Telemetry.Outside

def main : List String → IO UInt32
  | "server" :: arguments => Telemetry.Outside.server arguments
  | "agent" :: arguments => Telemetry.Outside.agent arguments
  | _ => Telemetry.Outside.refuse "either server or agent" 2
