/-
Quoted text is read as it was.

An octet is escaped in one of three ways: by a letter, by its number, or not at all.
Undoing the escapes gives the octets back (`unquote?_escape`), and the reader goes
through an escaped text without leaving its quotes, keeping it as it is
(`Reader.run_quoted`).
-/
import Telemetry.Json.Reader
import Telemetry.Json.Writer

namespace Telemetry.Json

def ByLetter (x : UInt8) : Prop :=
  ∃ y, escape x = [92, y] ∧ y ≠ 117 ∧ simpleEscape? y = some x

def ByNumber (x : UInt8) : Prop :=
  ∃ a b, escape x = [92, 117, 48, 48, a, b] ∧ unit? 48 48 a b = some x.toNat ∧ x.toNat < 32 ∧
    utf8 x.toNat = [x] ∧ Reader.isHexDigit a = true ∧ Reader.isHexDigit b = true

/-- An octet that stands for itself. -/
def Plain (x : UInt8) : Prop := escape x = [x] ∧ x ≠ 34 ∧ x ≠ 92 ∧ ¬ x < 32

theorem unit?_pair {x : UInt8} (hx : x < 32) :
    ∃ a b, (Hex.pair x).map (fun c => UInt8.ofNat c.toNat) = [a, b] ∧
      unit? 48 48 a b = some x.toNat ∧ utf8 x.toNat = [x] ∧
      Reader.isHexDigit a = true ∧ Reader.isHexDigit b = true := by
  have hall : ∀ n : Fin 32,
      let a := UInt8.ofNat (Hex.digit (n.val / 16)).toNat
      let b := UInt8.ofNat (Hex.digit (n.val % 16)).toNat
      unit? 48 48 a b = some n.val ∧ utf8 n.val = [UInt8.ofNat n.val] ∧
        Reader.isHexDigit a = true ∧ Reader.isHexDigit b = true := by
    decide
  have hlt : x.toNat < 32 := UInt8.lt_iff_toNat_lt.mp hx
  obtain ⟨hunit, hutf8, ha, hb⟩ := hall ⟨x.toNat, hlt⟩
  rw [UInt8.ofNat_toNat] at hutf8
  exact ⟨_, _, rfl, hunit, hutf8, ha, hb⟩

theorem escape_cases (x : UInt8) : ByLetter x ∨ ByNumber x ∨ Plain x := by
  rw [ByLetter, ByNumber, Plain, escape]
  split
  · rename_i h; subst h; exact Or.inl ⟨34, rfl, by decide, rfl⟩
  split
  · rename_i h; subst h; exact Or.inl ⟨92, rfl, by decide, rfl⟩
  split
  · rename_i h; subst h; exact Or.inl ⟨98, rfl, by decide, rfl⟩
  split
  · rename_i h; subst h; exact Or.inl ⟨102, rfl, by decide, rfl⟩
  split
  · rename_i h; subst h; exact Or.inl ⟨110, rfl, by decide, rfl⟩
  split
  · rename_i h; subst h; exact Or.inl ⟨114, rfl, by decide, rfl⟩
  split
  · rename_i h; subst h; exact Or.inl ⟨116, rfl, by decide, rfl⟩
  split
  · rename_i hlow
    obtain ⟨a, b, hpair, hunit, hutf8, ha, hb⟩ := unit?_pair hlow
    refine Or.inr (Or.inl ⟨a, b, ?_, hunit, UInt8.lt_iff_toNat_lt.mp hlow, hutf8, ha, hb⟩)
    rw [hpair]
    rfl
  · rename_i h34 h92 _ _ _ _ _ hlow
    exact Or.inr (Or.inr ⟨rfl, h34, h92, hlow⟩)

/-! ## Undoing escapes -/

theorem unescapeAfter_letter {x y : UInt8} (hy : y ≠ 117) (hx : simpleEscape? y = some x)
    (rest done : Bytes) : unescapeAfter (92 :: y :: rest) done = unescapeAfter rest (x :: done) := by
  rw [unescapeAfter.eq_def]
  split
  · rename_i h
    exact nomatch h
  · rename_i h
    exact absurd (List.cons.inj (List.cons.inj h).2).1 hy
  · rename_i h
    obtain ⟨rfl, rfl⟩ := List.cons.inj (List.cons.inj h).2
    rw [hx]
  · rename_i hno h
    obtain ⟨rfl, rfl⟩ := List.cons.inj h
    exact absurd rfl (hno y rest rfl)

theorem unescapeAfter_plain {x : UInt8} (hx : x ≠ 92) (rest done : Bytes) :
    unescapeAfter (x :: rest) done = unescapeAfter rest (x :: done) := by
  rw [unescapeAfter.eq_def]
  split
  · rename_i h
    exact nomatch h
  · rename_i h
    exact absurd (List.cons.inj h).1 hx
  · rename_i h
    exact absurd (List.cons.inj h).1 hx
  · rename_i h
    obtain ⟨rfl, rfl⟩ := List.cons.inj h
    rw [if_neg hx]

theorem unescapeAfter_number {a b : UInt8} {n : Nat} (hunit : unit? 48 48 a b = some n)
    (hn : n < 32) (rest done : Bytes) :
    unescapeAfter (92 :: 117 :: 48 :: 48 :: a :: b :: rest) done =
      unescapeAfter rest ((utf8 n).reverse ++ done) := by
  rw [unescapeAfter, hunit]
  simp only
  rw [if_neg (by omega), if_neg (by omega)]

theorem unescapeAfter_escape (x : UInt8) (rest done : Bytes) :
    unescapeAfter (escape x ++ rest) done = unescapeAfter rest (x :: done) := by
  rcases escape_cases x with ⟨y, hx, hy, hsimple⟩ | ⟨a, b, hx, hunit, hlow, hutf8, _, _⟩ |
    ⟨hx, _, h92, _⟩
  · rw [hx]
    exact unescapeAfter_letter hy hsimple rest done
  · rw [hx]
    have hread := unescapeAfter_number hunit hlow rest done
    rw [hutf8] at hread
    exact hread
  · rw [hx]
    exact unescapeAfter_plain h92 rest done

theorem unescapeAfter_flatMap (b done : Bytes) :
    unescapeAfter (b.flatMap escape) done = some (done.reverse ++ b) := by
  induction b generalizing done with
  | nil => rw [List.flatMap_nil, unescapeAfter, List.append_nil]
  | cons x b ih =>
      rw [List.flatMap_cons, unescapeAfter_escape, ih, List.reverse_cons, List.append_assoc]
      rfl

/-- An escaped text stands for the text. -/
@[simp] theorem unquote?_escape (s : String) :
    unquote? ((Bytes.ofText s).flatMap escape) = some s := by
  rw [unquote?, unescapeAfter_flatMap, List.reverse_nil, List.nil_append, Option.bind_some,
    Bytes.text?_ofText]

/-! ## Between quotes -/

namespace Reader

variable (limit : Option Nat) (place : Place) (frames : List Frame)

theorem run_cons {limit : Option Nat} {s t : State} {x : UInt8} (h : step limit s x = some t)
    (rest : Bytes) : run limit s (x :: rest) = run limit t rest := by
  rw [run, h]

theorem run_escape (x : UInt8) (raw rest : Bytes) :
    run limit ⟨place, frames, .string raw⟩ (escape x ++ rest) =
      run limit ⟨place, frames, .string ((escape x).reverse ++ raw)⟩ rest := by
  rcases escape_cases x with ⟨y, hx, hy, hsimple⟩ | ⟨a, b, hx, _, _, _, ha, hb⟩ |
    ⟨hx, h34, h92, hlow⟩
  · rw [hx]
    simp [run, step, hy, hsimple]
  · rw [hx]
    have h48 : isHexDigit 48 = true := by decide
    simp [run, step, ha, hb, h48]
  · rw [hx]
    simp [run, step, h34, h92, hlow]

theorem run_flatMap_escape (b raw rest : Bytes) :
    run limit ⟨place, frames, .string raw⟩ (b.flatMap escape ++ rest) =
      run limit ⟨place, frames, .string ((b.flatMap escape).reverse ++ raw)⟩ rest := by
  induction b generalizing raw with
  | nil => rfl
  | cons x b ih =>
      rw [List.flatMap_cons, List.append_assoc, run_escape, ih, List.reverse_append,
        List.append_assoc]

theorem run_quoted (b rest : Bytes) :
    run limit ⟨place, frames, .blank⟩ (quoted (b.flatMap escape) ++ rest) =
      (acceptString (b.flatMap escape) place frames).bind fun s => run limit s rest := by
  have hopen : step limit ⟨place, frames, .blank⟩ 34 = some ⟨place, frames, .string []⟩ := rfl
  have hclose (raw : Bytes) : step limit ⟨place, frames, .string raw⟩ 34 =
      acceptString raw.reverse place frames := rfl
  rw [quoted, List.append_assoc, List.cons_append, run_cons hopen, run_flatMap_escape,
    List.append_nil, List.singleton_append, run, hclose, List.reverse_reverse]
  cases acceptString (b.flatMap escape) place frames with
  | none => rfl
  | some s => rfl

end Reader

end Telemetry.Json
