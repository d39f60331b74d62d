/-
Byte strings.

Everything that crosses a wire or a disk is a list of octets.  A text is the
octets of its UTF-8 form; `text?` reads it back and refuses octets that are no
UTF-8.  The two statements at the end say that nothing is lost on the way.
-/
namespace Telemetry

/-- A finite sequence of octets. -/
abbrev Bytes := List UInt8

namespace Bytes

def ofText (s : String) : Bytes := s.toByteArray.data.toList

/-- The text whose UTF-8 form the octets are, if there is one. -/
def text? (b : Bytes) : Option String := String.fromUTF8? ⟨b.toArray⟩

@[simp] theorem text?_ofText (s : String) : text? (ofText s) = some s := by
  have h : (⟨s.toByteArray.data.toList.toArray⟩ : ByteArray) = s.toByteArray := rfl
  simp only [text?, ofText, String.fromUTF8?, h, dif_pos s.isValidUTF8]
  rfl

theorem ofText_injective {s t : String} (h : ofText s = ofText t) : s = t := by
  have := congrArg text? h
  simpa using this

@[simp] theorem ofText_append (s t : String) : ofText (s ++ t) = ofText s ++ ofText t := by
  simp [ofText, String.toByteArray_append]

/-- A big-endian number written with exactly `width` octets; higher digits are dropped. -/
def ofNatBE (width n : Nat) : Bytes :=
  (List.range width).reverse.map fun i => UInt8.ofNat (n >>> (8 * i) % 256)

/-- A little-endian number written with exactly `width` octets. -/
def ofNatLE (width n : Nat) : Bytes :=
  (List.range width).map fun i => UInt8.ofNat (n >>> (8 * i) % 256)

/-- The number that the octets write, most significant first. -/
def toNatBE (b : Bytes) : Nat := b.foldl (fun n x => n * 256 + x.toNat) 0

/-- The number that the octets write, least significant first. -/
def toNatLE (b : Bytes) : Nat := b.foldr (fun x n => n * 256 + x.toNat) 0

/-- Cuts the octets into pieces of `size`, the last one possibly shorter. -/
def chunks (size : Nat) (b : Bytes) : List Bytes :=
  if _h : size = 0 ∨ b = [] then []
  else b.take size :: chunks size (b.drop size)
termination_by b.length
decreasing_by
  have : b.length ≠ 0 := by simp only [ne_eq, List.length_eq_zero_iff]; exact fun e => _h (Or.inr e)
  simp only [List.length_drop]; omega

end Bytes

end Telemetry
