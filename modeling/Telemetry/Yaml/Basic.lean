/-
Settings documents.

A document is a tree with scalars at its leaves, in which every alias has been replaced by the node
it stands for.  What a scalar means is decided by who asks for it.  Every scalar is a text.  A plain
one may also be a number, a truth value or nothing at all, and so may a block of lines that are kept
as they are, if its tag says that it is a number or a truth value; the tag of null makes nothing of
a plain scalar and forbids it to be a text.

A record is asked for by the names of its entries.  A mapping gives them by name and a sequence in
order, from the first one on; entries may be left out, and where nothing is written there is a
record without any.
-/
import Telemetry.Text.Hex
import Telemetry.Text.Integer

namespace Telemetry

/-- How a scalar is written. -/
inductive ScalarStyle where
  | plain
  /-- Lines that are kept as they are. -/
  | literal
  /-- In quotes, or lines that are folded. -/
  | other
deriving DecidableEq

inductive Yaml where
  | scalar (style : ScalarStyle) (tag : Option String) (text : String)
  | sequence (items : List Yaml)
  /-- Entries in the order of the document. -/
  | mapping (entries : List (String × Yaml))
deriving Inhabited

namespace Yaml

/-- A plain scalar without characters, which stands where nothing is written. -/
def blank : Yaml := scalar .plain none ""

/-- The tag of a kind of scalars. -/
def tagOf (kind : String) : String := "tag:yaml.org,2002:" ++ kind

def text? : Yaml → Option String
  | scalar _ _ text => some text
  | _ => none

/-- The plain scalars for null. -/
def nulls : List String := ["~", "null", "Null", "NULL"]

/-- A text that may be absent. -/
def optionalText? : Yaml → Option (Option String)
  | scalar .plain none text => some (if text = "" ∨ text ∈ nulls then none else some text)
  | scalar .plain (some tag) text =>
    if tag = tagOf "null" then (if text ∈ nulls then some none else none) else some (some text)
  | scalar _ _ text => some (some text)
  | _ => none

/-- The text of a scalar that may be a value of a kind. -/
def ofKind? (kind : String) : Yaml → Option String
  | scalar .plain _ text => some text
  | scalar .literal tag text => if tag = some (tagOf kind) then some text else none
  | _ => none

def bool? (y : Yaml) : Option Bool :=
  (y.ofKind? "bool").bind fun text =>
    if text ∈ ["true", "True", "TRUE"] then some true
    else if text ∈ ["false", "False", "FALSE"] then some false
    else none

/-- The number that digits of a base write. -/
def inBase? (base : Nat) (cs : List Char) : Option Nat :=
  if cs = [] then none
  else
    cs.foldlM (fun n c => ((Hex.value? c).filter (· < base)).map fun d => n * base + d) 0

/-- The number that a numeral writes: decimal without a leading zero, or of
another base behind a mark. -/
def numeral? (cs : List Char) : Option Nat :=
  let cs := match cs with
    | '+' :: rest => rest
    | _ => cs
  match cs with
  | '0' :: 'x' :: rest => inBase? 16 rest
  | '0' :: 'o' :: rest => inBase? 8 rest
  | '0' :: 'b' :: rest => inBase? 2 rest
  | ['0'] => some 0
  | '0' :: _ => none
  | _ => inBase? 10 cs

def nat? (bound : Nat) (y : Yaml) : Option Nat :=
  ((y.ofKind? "int").bind fun text => numeral? text.toList).filter (· < bound)

/-- The entries of a record that has only the named ones, each at most once. -/
def record? (names : List String) : Yaml → Option (List (String × Yaml))
  | scalar .plain _ "" => some []
  | scalar .. => none
  | sequence items => if items.length ≤ names.length then some (names.zip items) else none
  | mapping entries =>
    if (∀ e ∈ entries, e.1 ∈ names) ∧ (entries.map (·.1)).Nodup then some entries else none

/-- The entry of a name. -/
def entry (name : String) (entries : List (String × Yaml)) : Option Yaml :=
  (entries.find? (·.1 = name)).map (·.2)

/-- The value of an entry, or a default where there is none. -/
def getD {α : Type} (read : Yaml → Option α) (default : α) (name : String)
    (entries : List (String × Yaml)) : Option α :=
  match entry name entries with
  | some y => read y
  | none => some default

end Yaml

end Telemetry
