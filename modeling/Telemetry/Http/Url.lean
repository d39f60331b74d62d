/-
Addresses of resources.

An address has a scheme, a host, perhaps a port, a path, and perhaps a query and
a fragment.  Reading one is lenient: tabs and line ends count for nothing, a
backslash is a slash, any number of slashes may precede the host, and a user
named before it is passed over.  What is read has one form only: the segments
`.` and `..` are resolved, and characters that may not stand in a part are
written as their octets.
-/
import Telemetry.Http.Host

namespace Telemetry.Http

/-- The address of a resource, its parts in their usual form. -/
structure Url where
  /-- Whether the scheme asks for a secure connection. -/
  secure : Bool
  host : String
  /-- The port, unless it is the usual one of the scheme. -/
  port : Option Nat
  path : String
  query : Option String
  fragment : Option String
deriving DecidableEq, Repr

namespace Url

/-! ## Characters -/

/-- Whether a character is no printable ASCII. -/
def isUnprintable (c : Char) : Bool := c.toNat ≤ 0x20 || 0x7F ≤ c.toNat

/-- Characters with some of them, and all that are unprintable, written as octets. -/
def encoded (special : List Char) (cs : List Char) : List Char :=
  Percent.encode (fun c => !isUnprintable c && !special.contains c) cs

def notInPath : List Char := ['"', '#', '<', '>', '?', '\x60', '\x7b', '\x7d']

def notInQuery : List Char := ['"', '#', '<', '>', '\'']

def notInFragment : List Char := ['"', '<', '>', '\x60']

def isSlash (c : Char) : Bool := c = '/' || c = '\\'

/-- Whether a path ends here. -/
def endsPath (c : Char) : Bool := c = '?' || c = '#'

/-- Whether a host and its port end here. -/
def endsAuthority (c : Char) : Bool := isSlash c || endsPath c

/-! ## Paths -/

/-- A segment with its octets for points written as points. -/
def withPoints : List Char → List Char
  | '%' :: '2' :: 'e' :: cs | '%' :: '2' :: 'E' :: cs => '.' :: withPoints cs
  | c :: cs => c :: withPoints cs
  | [] => []

/-- Whether a segment stands for where it is. -/
def isHere (segment : List Char) : Bool := withPoints segment = ['.']

/-- Whether a segment stands for one level up. -/
def isUp (segment : List Char) : Bool := withPoints segment = ['.', '.']

/-- Whether a segment names a drive, which no segment leads out of. -/
def isDrive : List Char → Bool
  | [c, mark] => c.isAlpha && (mark = ':' || mark = '|')
  | _ => false

/-- Segments one level up, the last one first. -/
def up : List (List Char) → List (List Char)
  | [] => []
  | segment :: rest => if isDrive segment then segment :: rest else rest

/-- The segments that others resolve to; `done` holds those before, the last one
first. -/
def resolved (done : List (List Char)) : List (List Char) → List (List Char)
  | [] => done.reverse
  | segment :: rest =>
    if isHere segment || isUp segment then
      let done := if isUp segment then up done else done
      if rest = [] then ([] :: done).reverse else resolved done rest
    else resolved (segment :: done) rest

/-- The path that characters write; its first slash may be left out. -/
def pathOf (cs : List Char) : String :=
  let cs := cs.map fun c => if isSlash c then '/' else c
  let cs := match cs with
    | '/' :: rest => rest
    | _ => cs
  let segments := (Text.splitChars '/' cs).map (encoded notInPath)
  String.ofList ((resolved [] segments).flatMap ('/' :: ·))

/-! ## Reading -/

/-- What follows the last user sign. -/
def afterUser (cs : List Char) : List Char := (cs.reverse.takeWhile (· ≠ '@')).reverse

/-- The characters of a host, and the colon and the port behind it. -/
def splitPort (inBrackets : Bool) : List Char → List Char × List Char
  | [] => ([], [])
  | c :: cs =>
    if c = ':' && !inBrackets then ([], c :: cs)
    else
      let (host, port) := splitPort (c = '[' || (inBrackets && c ≠ ']')) cs
      (c :: host, port)

def portOf (usual : Nat) : List Char → Except UrlFlaw (Option Nat)
  | ':' :: digits =>
    match digits.foldlM (fun n c => (IpAddr.digit? 10 c).map fun d => n * 10 + d) 0 with
    | some n =>
      if 65535 < n then .error .badPort
      else .ok (if digits = [] ∨ n = usual then none else some n)
    | none => .error .badPort
  | _ => .ok none

/-- What follows a mark at the front, up to where some character ends it. -/
def marked (mark : Char) (ends : Char → Bool) : List Char → Option (List Char)
  | [] => none
  | c :: cs => if c = mark then some (cs.takeWhile fun c => !ends c) else none

/-- Whether the scheme of a text asks for a secure connection, and what follows
it. -/
def schemeOf (cs : List Char) : Except UrlFlaw (Bool × List Char) :=
  match Text.cut? ':' cs with
  | some (scheme, rest) =>
    match String.ofList (scheme.map Char.toLower) with
    | "http" => .ok (false, rest)
    | "https" => .ok (true, rest)
    | _ => .error .noScheme
  | none => .error .noScheme

/-- The address that a text is. -/
def parse (text : String) : Except UrlFlaw Url := do
  let cs := text.toList.filter fun c => c ≠ '\t' ∧ c ≠ '\n' ∧ c ≠ '\r'
  let (secure, rest) ← schemeOf cs
  let rest := rest.dropWhile isSlash
  let (host, port) := splitPort false (afterUser (rest.takeWhile fun c => !endsAuthority c))
  let rest := rest.dropWhile fun c => !endsAuthority c
  let host ← Host.parse host
  let port ← portOf (if secure then 443 else 80) port
  let path := rest.takeWhile fun c => !endsPath c
  let rest := rest.drop path.length
  let query := marked '?' (· = '#') rest
  let fragment := marked '#' (fun _ => false) (rest.dropWhile (· ≠ '#'))
  let shown (special : List Char) (cs : List Char) := String.ofList (encoded special cs)
  .ok ⟨secure, host, port, pathOf path, query.map (shown notInQuery),
    fragment.map (shown notInFragment)⟩

/-! ## Writing -/

def authority (u : Url) : String :=
  u.host ++ (u.port.map fun n => ":" ++ Integer.ofNat n).getD ""

def target (u : Url) : String := u.path ++ (u.query.map ("?" ++ ·)).getD ""

def text (u : Url) : String :=
  (if u.secure then "https://" else "http://") ++ u.authority ++ u.target
    ++ (u.fragment.map ("#" ++ ·)).getD ""

/-- The longest address that a request may have. -/
def maxLength : Nat := 65534

end Url

end Telemetry.Http
