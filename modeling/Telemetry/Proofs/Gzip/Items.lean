/-
Items are read as they were written.

A length or a distance is written as a symbol and what it is more than the least value of this
symbol.  The values of a symbol end where those of the next one begin, so the symbol that is chosen
is the right one (`Gzip.exists_symbolFor`), and the bits that are added to it have room for the rest.

An item is then read of its words and numbers (`Gzip.readCoded_item`), given that its symbols have
words (`Gzip.Named`).  Items that are written one behind the other, and the end of their block, are
read one by one (`Gzip.inflates_items`).
-/
import Telemetry.Proofs.Gzip.CodeTree
import Telemetry.Proofs.Gzip.Member

namespace Telemetry.Gzip

open CodeLengths (words)

/-! ## Symbols of lengths and distances -/

/-- Of the symbols whose least value is not above a value the last one is chosen. -/
theorem exists_symbolFor {base : Nat → Nat × Nat} {first count value : Nat} (hcount : count ≠ 0)
    (hfirst : (base first).1 ≤ value) :
    ∃ i < count, symbolFor base first count value = first + i ∧ (base (first + i)).1 ≤ value ∧
      ∀ j < count, i < j → value < (base (first + j)).1 := by
  obtain ⟨count, rfl⟩ := Nat.exists_eq_succ_of_ne_zero hcount
  clear hcount
  induction count with
  | zero =>
      refine ⟨0, Nat.one_pos, ?_, hfirst, fun j hj hlt => by omega⟩
      simp [symbolFor, hfirst]
  | succ count ih =>
      have hsymbol : symbolFor base first (count + 2) value =
          if (base (first + (count + 1))).1 ≤ value then first + (count + 1)
          else symbolFor base first (count + 1) value := by
        rw [symbolFor, symbolFor, List.range_succ, List.reverse_append, List.reverse_singleton,
          List.singleton_append, List.find?_cons]
        by_cases h : (base (first + (count + 1))).1 ≤ value
        · simp only [h, decide_true, if_true, Option.getD_some]
        · simp only [h, decide_false, if_false]
      rw [hsymbol]
      by_cases h : (base (first + (count + 1))).1 ≤ value
      · rw [if_pos h]
        exact ⟨count + 1, Nat.lt_succ_self _, rfl, h, fun j hj hlt => by omega⟩
      · rw [if_neg h]
        obtain ⟨i, hi, heq, hle, hnext⟩ := ih
        refine ⟨i, Nat.lt_succ_of_lt hi, heq, hle, fun j hj hlt => ?_⟩
        rcases Nat.lt_succ_iff_lt_or_eq.mp hj with hj | rfl
        · exact hnext j hj hlt
        · exact Nat.lt_of_not_le h

/-- A symbol of a value: its least value is not above it, and its bits have room for the rest. -/
structure Symbolises (base : Nat → Nat × Nat) (symbol value : Nat) : Prop where
  least : (base symbol).1 ≤ value
  room : value - (base symbol).1 < 2 ^ (base symbol).2

/-- Symbols whose values leave no gap, up to the last value of the last of them. -/
theorem symbolises_symbolFor {base : Nat → Nat × Nat} {first count value : Nat}
    (hcount : count ≠ 0) (hfirst : (base first).1 ≤ value)
    (hgapless : ∀ i < count - 1,
      (base (first + (i + 1))).1 ≤ (base (first + i)).1 + 2 ^ (base (first + i)).2)
    (hlast : value < (base (first + (count - 1))).1 + 2 ^ (base (first + (count - 1))).2) :
    ∃ i < count, symbolFor base first count value = first + i ∧
      Symbolises base (first + i) value := by
  obtain ⟨i, hi, heq, hle, hnext⟩ := exists_symbolFor hcount hfirst
  refine ⟨i, hi, heq, hle, ?_⟩
  by_cases hmore : i + 1 < count
  · have hless := hnext (i + 1) hmore (Nat.lt_succ_self i)
    have hgap := hgapless i (by omega)
    omega
  · obtain rfl : i = count - 1 := by omega
    omega

theorem lengthSymbol_spec {length : Nat} (hleast : 3 ≤ length) (hmost : length ≤ 258) :
    257 ≤ lengthSymbol length ∧ lengthSymbol length ≤ 285 ∧
      Symbolises Cursor.lengthBase (lengthSymbol length) length := by
  have hlast : (Cursor.lengthBase (257 + (29 - 1))).1 +
      2 ^ (Cursor.lengthBase (257 + (29 - 1))).2 = 259 := by decide
  obtain ⟨i, hi, heq, hsymbol⟩ := symbolises_symbolFor (by decide) hleast (by decide)
    (Nat.lt_of_lt_of_eq (Nat.lt_succ_of_le hmost) hlast.symm)
  have heq : lengthSymbol length = 257 + i := heq
  rw [heq]
  exact ⟨by omega, by omega, hsymbol⟩

theorem distanceSymbol_spec {distance : Nat} (hleast : 1 ≤ distance) (hmost : distance ≤ 32768) :
    distanceSymbol distance ≤ 29 ∧
      Symbolises Cursor.distanceBase (distanceSymbol distance) distance := by
  have hlast : (Cursor.distanceBase (0 + (30 - 1))).1 +
      2 ^ (Cursor.distanceBase (0 + (30 - 1))).2 = 32769 := by decide
  obtain ⟨i, hi, heq, hsymbol⟩ := symbolises_symbolFor (by decide) hleast (by decide)
    (Nat.lt_of_lt_of_eq (Nat.lt_succ_of_le hmost) hlast.symm)
  have heq : distanceSymbol distance = 0 + i := heq
  rw [heq]
  exact ⟨by omega, hsymbol⟩

/-! ## Words of items -/

/-- A symbol that has a word in a code. -/
def Named (lengths : List Nat) (symbol : Nat) : Prop :=
  ∃ length, lengths[symbol]? = some length ∧ length ≠ 0 ∧ length ≤ CodeTree.maxLength

theorem Named.read {lengths : List Nat} {tree : CodeTree} {symbol : Nat}
    (h : Named lengths symbol) (htree : CodeTree.ofLengths lengths = .ok tree) {s t : Bits}
    (hgives : Bits.Gives (wordOf (words lengths) symbol) s t) :
    tree.read s = .ok (symbol, t) := by
  obtain ⟨length, hlength, hne, hle⟩ := h
  exact CodeTree.read_word htree hlength hne hle hgives

/-- Items that can be written under codes: their symbols have words, and copies are in range. -/
def Item.Writable (literals distances : List Nat) : Item → Prop
  | .nothing => False
  | .literal x => Named literals x.toNat
  | .copy length distance => 3 ≤ length ∧ length ≤ 258 ∧ 1 ≤ distance ∧ distance ≤ 32768 ∧
      Named literals (lengthSymbol length) ∧ Named distances (distanceSymbol distance)

section

variable {literals distances : List Nat} {literalTree distanceTree : CodeTree}

/-- The bits of a value are the word of its symbol and a number. -/
theorem exists_of_gives_valueBits {names : Array (List Bool)} {base : Nat → Nat × Nat}
    {symbol value : Nat} (h : Symbolises base symbol value) {s t : Bits}
    (hgives : Bits.Gives (valueBits names base symbol value) s t) :
    ∃ u, Bits.Gives (wordOf names symbol) s u ∧
      Bits.number (base symbol).2 u = .ok (value - (base symbol).1, t) := by
  obtain ⟨u, hword, hmore⟩ := Bits.gives_append.mp hgives
  exact ⟨u, hword, Bits.number_of_gives_lt hmore h.room⟩

theorem readCopy_of_reads {tree : CodeTree} {symbol more far further : Nat} {s t u v : Bits}
    (hmore : Bits.number (Cursor.lengthBase symbol).2 s = .ok (more, t))
    (hfar : tree.read t = .ok (far, u)) (hle : far ≤ 29)
    (hfurther : Bits.number (Cursor.distanceBase far).2 u = .ok (further, v)) :
    Cursor.readCopy tree symbol s =
      .ok ((Cursor.lengthBase symbol).1 + more, (Cursor.distanceBase far).1 + further, v) := by
  rw [Cursor.readCopy]
  generalize Cursor.lengthBase symbol = base at hmore ⊢
  obtain ⟨least, bits⟩ := base
  dsimp only at hmore ⊢
  rw [hmore]
  dsimp only [bind, Except.bind]
  rw [hfar]
  dsimp only
  rw [if_neg (Nat.not_lt_of_le hle)]
  generalize Cursor.distanceBase far = base' at hfurther ⊢
  obtain ⟨nearest, bits'⟩ := base'
  dsimp only at hfurther ⊢
  rw [hfurther]

theorem readCoded_item (hliterals : CodeTree.ofLengths literals = .ok literalTree)
    (hdistances : CodeTree.ofLengths distances = .ok distanceTree) {item : Item}
    (h : item.Writable literals distances) (final : Bool) {s t : Bits}
    (hgives : Bits.Gives (itemBits (words literals) (words distances) item) s t) :
    Cursor.readCoded literalTree distanceTree final s =
      .ok (item, ⟨t, final, .coded literalTree distanceTree⟩) := by
  cases item with
  | nothing => exact h.elim
  | literal x =>
      have hlt : x.toNat < 256 := x.toNat_lt
      rw [Cursor.readCoded_eq, h.read hliterals hgives]
      simp only [bind, Except.bind, if_pos hlt, UInt8.ofNat_toNat]
  | copy length distance =>
      obtain ⟨hleast, hmost, hnear, hfar, hlength, hdistance⟩ := h
      obtain ⟨hfirst, hlast, hvalue⟩ := lengthSymbol_spec hleast hmost
      obtain ⟨hfew, hvalue'⟩ := distanceSymbol_spec hnear hfar
      obtain ⟨u, hlengthBits, hdistanceBits⟩ := Bits.gives_append.mp hgives
      obtain ⟨v, hword, hlonger⟩ := exists_of_gives_valueBits hvalue hlengthBits
      obtain ⟨w, hword', hfurther⟩ := exists_of_gives_valueBits hvalue' hdistanceBits
      generalize lengthSymbol length = symbol at *
      generalize distanceSymbol distance = symbol' at *
      have hplus : (Cursor.lengthBase symbol).1 + (length - (Cursor.lengthBase symbol).1) =
          length := Nat.add_sub_of_le hvalue.least
      have hplus' : (Cursor.distanceBase symbol').1 +
          (distance - (Cursor.distanceBase symbol').1) = distance :=
        Nat.add_sub_of_le hvalue'.least
      have hcopy : Cursor.readCopy distanceTree symbol v = .ok (length, distance, t) := by
        rw [readCopy_of_reads hlonger (hdistance.read hdistances hword') hfew hfurther, hplus,
          hplus']
      have hliteral : ¬symbol < 256 := by omega
      have hend : ¬symbol = 256 := by omega
      rw [Cursor.readCoded_eq, hlength.read hliterals hword]
      simp only [bind, Except.bind, if_neg hliteral, if_neg hend,
        if_neg (Nat.not_lt_of_le hlast), hcopy]

theorem readCoded_end (hliterals : CodeTree.ofLengths literals = .ok literalTree)
    (h : Named literals endSymbol) (final : Bool) {s t : Bits}
    (hgives : Bits.Gives (wordOf (words literals) endSymbol) s t) :
    Cursor.readCoded literalTree distanceTree final s =
      .ok (.nothing, ⟨t, final, Cursor.blockEnd final⟩) := by
  rw [Cursor.readCoded_eq, h.read hliterals hgives]
  rfl

/-- Items and the end of their block are read one by one. -/
theorem inflates_items (hliterals : CodeTree.ofLengths literals = .ok literalTree)
    (hdistances : CodeTree.ofLengths distances = .ok distanceTree) (hend : Named literals endSymbol)
    {items : List Item} (hitems : ∀ item ∈ items, item.Writable literals distances) {final : Bool}
    {s t : Bits} (hgives : Bits.Gives (contentBits literals distances items) s t)
    {out content : ByteArray} {behind : Bytes}
    (h : Inflates ⟨t, final, Cursor.blockEnd final⟩
      (items.foldl (fun out item => item.write out) out) content behind) :
    Inflates ⟨s, final, .coded literalTree distanceTree⟩ out content behind := by
  induction items generalizing s out with
  | nil => exact .item rfl (readCoded_end hliterals hend final hgives) h
  | cons item items ih =>
      rw [contentBits, List.flatMap_cons, List.append_assoc] at hgives
      obtain ⟨u, hfirst, hrest⟩ := Bits.gives_append.mp hgives
      have hread := readCoded_item hliterals hdistances (hitems item List.mem_cons_self) final hfirst
      exact .item rfl hread (ih (fun i hi => hitems i (List.mem_cons_of_mem item hi)) hrest h)

end

end Telemetry.Gzip
