/-
Reading settings documents.

This reads what settings are commonly written in, and is what the programs here are run with; the
settings themselves are read with any reader of documents.  Mappings are written with one entry a
line, deeper ones further to the right, or between braces.  A document may begin with a line of
three dashes and end with one of three dots; comments run from a hash mark to the end of the line.
Sequences, directives, names for nodes, tags and blocks of text are refused, and so is more than one
document.
-/
import Telemetry.Yaml.Basic
import Telemetry.Yaml.Token

namespace Telemetry.Yaml

/-- Whether a token can only follow a part of an entry, which is then left out. -/
def endsPart : Token → Bool
  | .name | .value | .blockClose | .comma | .braceClose => true
  | _ => false

mutual
/-- The node that tokens begin with, and the tokens that follow it. -/
def node? : Nat → List Token → Option (Yaml × List Token)
  | 0, _ => none
  | _ + 1, .scalar quoted text :: ts =>
    some (scalar (if quoted then .other else .plain) none text, ts)
  | fuel + 1, .blockOpen :: ts => blockEntries? fuel [] ts
  | _ + 1, .braceOpen :: .braceClose :: ts => some (mapping [], ts)
  | fuel + 1, .braceOpen :: ts => braceEntries? fuel [] ts
  | _ + 1, _ => none

/-- A part of an entry, which may be left out. -/
def part? : Nat → List Token → Option (Yaml × List Token)
  | 0, _ => none
  | fuel + 1, t :: ts => if endsPart t then some (blank, t :: ts) else node? fuel (t :: ts)
  | _ + 1, [] => none

/-- The rest of an entry after the mark of its name: the name, which has to be a
scalar, and the value. -/
def entry? : Nat → List Token → Option ((String × Yaml) × List Token)
  | 0, _ => none
  | fuel + 1, ts => do
    let (name, ts) ← part? fuel ts
    let name ← name.text?
    match ts with
    | .value :: ts => do
      let (value, ts) ← part? fuel ts
      some ((name, value), ts)
    | ts => some ((name, blank), ts)

/-- The entries of a mapping without braces; `done` holds those read, the latest
first. -/
def blockEntries? : Nat → List (String × Yaml) → List Token → Option (Yaml × List Token)
  | 0, _, _ => none
  | _ + 1, done, .blockClose :: ts => some (mapping done.reverse, ts)
  | fuel + 1, done, .name :: ts => do
    let (e, ts) ← entry? fuel ts
    blockEntries? fuel (e :: done) ts
  | _ + 1, _, _ => none

/-- The entries between braces, of which one has to follow; `done` holds those
read, the latest first.  A name without a colon has no value. -/
def braceEntries? : Nat → List (String × Yaml) → List Token → Option (Yaml × List Token)
  | 0, _, _ => none
  | fuel + 1, done, ts => do
    let (e, ts) ← match ts with
      | .name :: ts => entry? fuel ts
      | ts => do
        let (name, ts) ← node? fuel ts
        some ((← name.text?, blank), ts)
    match ts with
    | .comma :: .braceClose :: ts | .braceClose :: ts => some (mapping (e :: done).reverse, ts)
    | .comma :: ts => braceEntries? fuel (e :: done) ts
    | _ => none
end

/-- The node of a document that has begun, and what follows it; a document may
have none. -/
def content? : List Token → Option (Yaml × List Token)
  | [] => some (blank, [])
  | .documentEnd :: ts => some (blank, .documentEnd :: ts)
  | ts => node? (2 * ts.length + 2) ts

/-- The one document that tokens write. -/
def ofTokens? (ts : List Token) : Option Yaml := do
  let (y, ts) ← match ts with
    | .documentStart :: ts => content? ts
    | [] => some (blank, [])
    | ts => node? (2 * ts.length + 2) ts
  if ts.all (· = .documentEnd) then some y else none

/-- The document that a text is. -/
def parse? (text : String) : Option Yaml :=
  let cs := text.toList
  if cs.all isPrintable then (tokens? (unixLines cs)).bind ofTokens? else none

end Telemetry.Yaml
