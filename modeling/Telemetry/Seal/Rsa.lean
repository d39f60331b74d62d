/-
RSA keys.

A public key is a modulus and an exponent, a private key has another exponent
that undoes the first.  Keys are taken in the forms that tools write them:
alone, or wrapped together with the name of the algorithm.  A key that cannot
work is refused: a private key has to show its two factors and an exponent that
fits them.
-/
import Telemetry.Seal.Der
import Telemetry.Seal.Pem

namespace Telemetry.Rsa

/-- A modulus and the exponent to seal with. -/
structure PublicKey where
  modulus : Nat
  exponent : Nat
deriving DecidableEq, Repr

/-- A public key and the exponent to open with. -/
structure PrivateKey where
  publicKey : PublicKey
  secret : Nat
deriving DecidableEq, Repr

/-- How many octets a number takes. -/
def octetLength (n : Nat) : Nat := if n = 0 then 0 else n.log2 / 8 + 1

def PublicKey.size (k : PublicKey) : Nat := octetLength k.modulus

/-- The power of a base modulo `n`, by squaring. -/
def power (n base e : Nat) : Nat :=
  if _h : e = 0 then 1 % n
  else
    let root := power n (base * base % n) (e / 2)
    if e % 2 = 1 then base * root % n else root
termination_by e
decreasing_by omega

/-- The most bits that a modulus may have. -/
def maxBits : Nat := 4096

/-- Whether a public key can work. -/
def PublicKey.isSound (k : PublicKey) : Bool :=
  k.modulus < 1 <<< maxBits ∧ k.modulus % 2 = 1 ∧ k.exponent < k.modulus ∧ k.exponent % 2 = 1
    ∧ 2 ≤ k.exponent ∧ k.exponent < 1 <<< 33

/-- Whether a private key can work, given the factors of its modulus. -/
def PrivateKey.isSound (k : PrivateKey) (p q : Nat) : Bool :=
  k.publicKey.isSound ∧ p * q = k.publicKey.modulus
    ∧ k.secret * k.publicKey.exponent % (p - 1) = 1
    ∧ k.secret * k.publicKey.exponent % (q - 1) = 1

/-- The public key that two numbers in a sequence make. -/
def publicOfDer? (b : Bytes) : Option PublicKey := do
  let items ← Der.sequence? b
  match ← items.mapM Der.Element.number? with
  | [n, e] => if (⟨n, e⟩ : PublicKey).isSound then some ⟨n, e⟩ else none
  | _ => none

/-- The private key that nine numbers in a sequence make; the first is the
version, the last three follow from the others and are not used. -/
def privateOfDer? (b : Bytes) : Option PrivateKey := do
  let items ← Der.sequence? b
  match ← items.mapM Der.Element.number? with
  | [0, n, e, d, p, q, _, _, _] =>
    if (⟨⟨n, e⟩, d⟩ : PrivateKey).isSound p q then some ⟨⟨n, e⟩, d⟩ else none
  | _ => none

/-- Names the algorithm, which has no parameters. -/
def isAlgorithm (e : Der.Element) : Bool :=
  e.items? = some
    [⟨Der.nameTag, [0x2a, 0x86, 0x48, 0x86, 0xf7, 0x0d, 0x01, 0x01, 0x01]⟩, ⟨0x05, []⟩]

/-- The public key in a wrapping that names the algorithm. -/
def publicOfWrapped? (b : Bytes) : Option PublicKey := do
  match ← Der.sequence? b with
  | [algorithm, ⟨tag, 0 :: key⟩] =>
    if isAlgorithm algorithm ∧ tag = Der.bitsTag then publicOfDer? key else none
  | _ => none

/-- Whether what follows the key in a wrapping fits its version.  Parts with the
number zero come first, whatever they are.  A public key with the number one is
there from version one on, and only then.  What else follows wraps something. -/
def areExtras (version : Nat) (extras : List Der.Element) : Bool :=
  let extras := extras.dropWhile fun e => e.isPart && Der.tagNumber e.tag = 0
  match extras with
  | [] => version = 0
  | e :: more =>
    if e.isPart && Der.tagNumber e.tag = 1 then
      version = 1 && e.tag = 0x81 && e.content.head? = some 0 && more.all (·.isWrapping)
    else version = 0 && extras.all (·.isWrapping)

/-- The private key in a wrapping that names the algorithm. -/
def privateOfWrapped? (b : Bytes) : Option PrivateKey := do
  match ← Der.sequence? b with
  | version :: algorithm :: key :: extras =>
    let version ← version.number?
    if isAlgorithm algorithm ∧ key.tag = Der.octetsTag ∧ areExtras version extras then
      privateOfDer? key.content
    else none
  | _ => none

def publicOfText? (text : Bytes) : Option PublicKey := do
  let block ← Pem.block? text
  if block.label = Bytes.ofText "RSA PUBLIC KEY" then publicOfDer? block.content
  else if block.label = Bytes.ofText "PUBLIC KEY" then publicOfWrapped? block.content
  else none

def privateOfText? (text : Bytes) : Option PrivateKey := do
  let block ← Pem.block? text
  if block.label = Bytes.ofText "RSA PRIVATE KEY" then privateOfDer? block.content
  else if block.label = Bytes.ofText "PRIVATE KEY" then privateOfWrapped? block.content
  else none

end Telemetry.Rsa
