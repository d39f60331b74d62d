/-
Documents are read as they are written.

`Reader.Reads depth j b` says that the reader, wherever a value may stand, goes through
`b` and delivers `j`, provided that `depth` more arrays and objects may be open.  A
number ends only where something else begins, so what follows is part of the statement.
Leaves read in this way, and so do arrays and objects whose parts do, with blanks and
commas between them; both layouts of a document are of that kind.

A number begins with a minus or a digit and is collected from there on, and any octet that is no
character of a number ends it; so a blank ends it, and so does what may follow a value.  Fields are
delivered one after the other to the object that is open, items to the array.
-/
import Telemetry.Proofs.Json.Number
import Telemetry.Proofs.Json.Quoted

namespace Telemetry.Json

namespace Reader

/-- An octet that no number and no word goes on with. -/
def endsLexeme (x : UInt8) : Bool := !inNumber x && !inWord x

/-- How many arrays and objects may be open inside. -/
def Fits (limit : Option Nat) (frames : List Frame) (depth : Nat) : Prop :=
  ∀ n, limit = some n → frames.length + depth < n

/-- Octets that are read as a value where one may stand. -/
def Reads (depth : Nat) (j : Json) (b : Bytes) : Prop :=
  ∀ (limit : Option Nat) (place : Place) (frames : List Frame) (x : UInt8) (rest : Bytes),
    place.takesValue = true → Fits limit frames depth → endsLexeme x = true →
      run limit ⟨place, frames, .blank⟩ (b ++ x :: rest) = run limit (deliver j frames) (x :: rest)

theorem Fits.mono {limit : Option Nat} {frames : List Frame} {d e : Nat} (h : Fits limit frames e)
    (hd : d ≤ e) : Fits limit frames d := fun n hn => by
  have := h n hn
  omega

theorem Reads.mono {d e : Nat} {j : Json} {b : Bytes} (h : Reads d j b) (hd : d ≤ e) :
    Reads e j b :=
  fun limit place frames x rest hplace hfits hx =>
    h limit place frames x rest hplace (hfits.mono hd) hx

/-! ## Blanks -/

/-- Octets that only separate. -/
def Blank (b : Bytes) : Prop := ∀ x ∈ b, isBlank x = true

theorem run_blank {b : Bytes} (hb : Blank b) (limit : Option Nat) (place : Place)
    (frames : List Frame) (rest : Bytes) :
    run limit ⟨place, frames, .blank⟩ (b ++ rest) = run limit ⟨place, frames, .blank⟩ rest := by
  induction b with
  | nil => rfl
  | cons x b ih =>
      have hx := hb x List.mem_cons_self
      have hstep : step limit ⟨place, frames, .blank⟩ x = some ⟨place, frames, .blank⟩ := by
        simp only [step, punctuate, hx, if_true]
      rw [List.cons_append, run_cons hstep]
      exact ih fun y hy => hb y (List.mem_cons_of_mem x hy)

theorem blank_newline (depth : Nat) : Blank (newline depth) := by
  intro x hx
  rcases List.mem_cons.mp hx with rfl | hx
  · rfl
  · rw [List.eq_of_mem_replicate hx]
    rfl

/-! ## Numbers -/

def firstChars : List Char := ['0', '1', '2', '3', '4', '5', '6', '7', '8', '9', '-']

def numberChars : List Char := firstChars ++ ['+', '.', 'e']

theorem mem_firstChars_of_isDigit {c : Char} (hc : c.isDigit = true) : c ∈ firstChars := by
  have hrange : 48 ≤ c.toNat ∧ c.toNat ≤ 57 := by
    simp only [Char.isDigit, Bool.and_eq_true, decide_eq_true_eq] at hc
    exact ⟨UInt32.le_iff_toNat_le.mp hc.1, UInt32.le_iff_toNat_le.mp hc.2⟩
  have hall : ∀ k : Fin 10, Char.ofNat (48 + k.val) ∈ firstChars := by decide
  have hback : Char.ofNat (48 + (c.toNat - 48)) = c := by
    rw [Nat.add_sub_cancel' hrange.1, Char.ofNat_toNat]
  rw [← hback]
  exact hall ⟨c.toNat - 48, by omega⟩

theorem mem_numberChars_of_isDigit {c : Char} (hc : c.isDigit = true) : c ∈ numberChars :=
  List.mem_append_left _ (mem_firstChars_of_isDigit hc)

theorem inNumber_of_mem {c : Char} (hc : c ∈ numberChars) :
    inNumber (UInt8.ofNat c.toNat) = true ∧
      Char.ofNat (UInt8.ofNat c.toNat).toNat = c := by
  have hall : numberChars.all (fun c => inNumber (UInt8.ofNat c.toNat) &&
      Char.ofNat (UInt8.ofNat c.toNat).toNat == c) = true := by
    decide
  obtain ⟨hgoes, hback⟩ := Bool.and_eq_true_iff.mp (List.all_eq_true.mp hall c hc)
  exact ⟨hgoes, eq_of_beq hback⟩

theorem step_firstChars {c : Char} (hc : c ∈ firstChars) (limit : Option Nat) (place : Place)
    (frames : List Frame) :
    step limit ⟨place, frames, .blank⟩ (UInt8.ofNat c.toNat) =
      some ⟨place, frames, .number [UInt8.ofNat c.toNat]⟩ := by
  have hall : firstChars.all (fun c => !isBlank (UInt8.ofNat c.toNat) &&
      UInt8.ofNat c.toNat != 34 && (UInt8.ofNat c.toNat = 45 ||
        (48 ≤ UInt8.ofNat c.toNat && UInt8.ofNat c.toNat ≤ 57))) = true := by
    decide
  obtain ⟨hplain, hstart⟩ := Bool.and_eq_true_iff.mp (List.all_eq_true.mp hall c hc)
  obtain ⟨hblank, hquote⟩ := Bool.and_eq_true_iff.mp hplain
  rw [Bool.not_eq_true'] at hblank
  have hnotQuote : UInt8.ofNat c.toNat ≠ 34 := bne_iff_ne.mp hquote
  simp only [step, punctuate, hblank, Bool.false_eq_true, if_false, if_neg hnotQuote, hstart,
    if_true]

theorem mem_numberChars {n : Number} (h : n.WellFormed) : ∀ c ∈ n.chars, c ∈ numberChars := by
  intro c hc
  have hdigits : ∀ k, ∀ c ∈ Integer.digits k, c ∈ numberChars := fun k c hc =>
    mem_numberChars_of_isDigit (Integer.isDigit_of_mem_digits hc)
  simp only [Number.chars, List.mem_append] at hc
  rcases hc with ((hc | hc) | hc) | hc
  · split at hc
    · obtain rfl := List.mem_singleton.mp hc
      decide
    · exact absurd hc List.not_mem_nil
  · exact mem_numberChars_of_isDigit ((Number.isDigit_of_isWhole h.whole).2 c hc)
  · split at hc
    · exact absurd hc List.not_mem_nil
    · rcases List.mem_cons.mp hc with rfl | hc
      · decide
      · exact mem_numberChars_of_isDigit (h.places c hc)
  · rw [Number.exponentChars.eq_def] at hc
    split at hc
    · exact absurd hc List.not_mem_nil
    · rcases List.mem_cons.mp hc with rfl | hc
      · decide
      · rcases List.mem_cons.mp hc with rfl | hc
        · split
          · decide
          · decide
        · exact hdigits _ c hc

theorem run_numberChars {cs : List Char} (hcs : ∀ c ∈ cs, c ∈ numberChars) (limit : Option Nat)
    (place : Place) (frames : List Frame) (raw rest : Bytes) :
    run limit ⟨place, frames, .number raw⟩ (ascii cs ++ rest) =
      run limit ⟨place, frames, .number ((ascii cs).reverse ++ raw)⟩ rest := by
  induction cs generalizing raw with
  | nil => rfl
  | cons c cs ih =>
      have hc := (inNumber_of_mem (hcs c List.mem_cons_self)).1
      have hstep : step limit ⟨place, frames, .number raw⟩ (UInt8.ofNat c.toNat) =
          some ⟨place, frames, .number (UInt8.ofNat c.toNat :: raw)⟩ := by
        simp only [step, hc, if_true]
      have hcons : ascii (c :: cs) = UInt8.ofNat c.toNat :: ascii cs := rfl
      rw [hcons, List.cons_append, run_cons hstep, ih fun d hd => hcs d (List.mem_cons_of_mem c hd),
        List.reverse_cons, List.append_assoc]
      rfl

theorem step_number {n : Number} (h : n.WellFormed) (limit : Option Nat) (place : Place)
    (frames : List Frame) :
    ∃ c cs, n.chars = c :: cs ∧ step limit ⟨place, frames, .blank⟩ (UInt8.ofNat c.toNat) =
      some ⟨place, frames, .number [UInt8.ofNat c.toNat]⟩ := by
  obtain ⟨hne, hdigits⟩ := Number.isDigit_of_isWhole h.whole
  obtain ⟨c, rest, hwhole⟩ := List.exists_cons_of_ne_nil hne
  rw [Number.chars, hwhole]
  cases n.negative with
  | true =>
      have hminus : '-' ∈ firstChars := by decide
      exact ⟨'-', _, rfl, step_firstChars hminus limit place frames⟩
  | false =>
      have hc : c.isDigit = true := hdigits c (hwhole ▸ List.mem_cons_self)
      exact ⟨c, _, rfl, step_firstChars (mem_firstChars_of_isDigit hc) limit place frames⟩

/-- A number in good form is read as it is written. -/
theorem reads_number {n : Number} (h : n.WellFormed) : Reads 0 (.number n) (leaf (.number n)) := by
  intro limit place frames x rest hplace _ hx
  obtain ⟨c, cs, hchars, hbegin⟩ := step_number h limit place frames
  have hcs : ∀ d ∈ cs, d ∈ numberChars := fun d hd =>
    mem_numberChars h d (hchars ▸ List.mem_cons_of_mem c hd)
  have hback : ((ascii cs).reverse ++ [UInt8.ofNat c.toNat]).reverse.map
      (fun x => Char.ofNat x.toNat) = n.chars := by
    rw [List.reverse_append, List.reverse_reverse, List.reverse_singleton, List.singleton_append,
      List.map_cons, (inNumber_of_mem (mem_numberChars h c (hchars ▸ List.mem_cons_self))).2, ascii,
      List.map_map, hchars]
    congr 1
    calc cs.map ((fun x => Char.ofNat x.toNat) ∘ fun c => UInt8.ofNat c.toNat)
        = cs.map id := List.map_congr_left fun d hd => (inNumber_of_mem (hcs d hd)).2
      _ = cs := List.map_id cs
  have hfinish : finish ⟨place, frames,
      .number ((ascii cs).reverse ++ [UInt8.ofNat c.toNat])⟩ =
        some (deliver (.number n) frames) := by
    simp only [finish, acceptNumber]
    rw [hback, Number.ofChars?_chars h, Option.bind_some, accept, if_pos hplace]
  have hend : step limit ⟨place, frames, .number ((ascii cs).reverse ++ [UInt8.ofNat c.toNat])⟩ x =
      step limit (deliver (.number n) frames) x := by
    have hnumber : inNumber x = false := by
      rw [endsLexeme, Bool.and_eq_true, Bool.not_eq_true'] at hx
      exact hx.1
    have hblank : (deliver (.number n) frames).lexeme = .blank := by
      cases frames with
      | nil => rfl
      | cons f frames => cases f <;> rfl
    simp only [step, hnumber, Bool.false_eq_true, if_false, hfinish, Option.bind_some, hblank]
  have hascii : ascii n.chars = UInt8.ofNat c.toNat :: ascii cs := by
    rw [hchars]
    rfl
  rw [leaf, hascii, List.cons_append, run_cons hbegin, run_numberChars hcs, run, hend, run]

theorem reads_ofText (s : String) : Reads 0 (ofText s) (leaf (ofText s)) := by
  intro limit place frames x rest hplace _ _
  have hkey : place.takesKey = false := by
    cases place with
    | value => rfl
    | item => rfl
    | field | key | colon | next | complete => exact absurd hplace Bool.false_ne_true
  rw [ofText, leaf, run_quoted, acceptString.eq_def, if_neg (by rw [hkey]; decide), accept,
    if_pos hplace, Option.bind_some]

/-! ## Items and fields -/

def joined (sep : Bytes) : List Bytes → Bytes
  | [] => []
  | [b] => b
  | b :: c :: rest => b ++ sep ++ joined sep (c :: rest)

/-- A blank ends a lexeme, and so does what follows blanks. -/
theorem exists_head_of_blank {gap : Bytes} (hgap : Blank gap) {y : UInt8}
    (hy : endsLexeme y = true) (rest : Bytes) :
    ∃ x t, gap ++ y :: rest = x :: t ∧ endsLexeme x = true := by
  cases gap with
  | nil => exact ⟨y, rest, rfl, hy⟩
  | cons x gap =>
      have hx := hgap x List.mem_cons_self
      refine ⟨x, gap ++ y :: rest, rfl, ?_⟩
      simp only [isBlank, Bool.or_eq_true, decide_eq_true_eq] at hx
      rcases hx with ((rfl | rfl) | rfl) | rfl <;> decide

/-- Items are delivered one after the other to the array that is open, whatever each of them is
written as. -/
theorem run_items {depth : Nat} {gap : Bytes} (hgap : Blank gap) {limit : Option Nat}
    {frames : List Frame} (hfits : Fits limit frames (depth + 1)) {parts : List (Json × Bytes)}
    (hne : parts ≠ []) (h : ∀ p ∈ parts, Reads depth p.1 p.2)
    {place : Place} (hplace : place.takesValue = true) (done : List Json) {x : UInt8}
    (hx : endsLexeme x = true) (rest : Bytes) :
    run limit ⟨place, .array done :: frames, .blank⟩
        (joined (44 :: gap) (parts.map (·.2)) ++ x :: rest) =
      run limit ⟨.next, .array ((parts.map (·.1)).reverse ++ done) :: frames, .blank⟩
        (x :: rest) := by
  have hinner (done : List Json) : Fits limit (.array done :: frames) depth := fun n hn => by
    have := hfits n hn
    rw [List.length_cons]
    omega
  induction parts generalizing place done with
  | nil => exact absurd rfl hne
  | cons p parts ih =>
      have hp := h p List.mem_cons_self
      cases parts with
      | nil =>
          rw [List.map_singleton, joined]
          exact hp limit place _ x rest hplace (hinner done) hx
      | cons q parts =>
          -- The comma ends the item before it is read itself.
          have hcomma : step limit ⟨.next, .array (p.1 :: done) :: frames, .blank⟩ 44 =
              some ⟨.value, .array (p.1 :: done) :: frames, .blank⟩ := rfl
          have hstep := hp limit place (.array done :: frames) 44
            (gap ++ (joined (44 :: gap) ((q :: parts).map (·.2)) ++ x :: rest)) hplace
            (hinner done) (by decide)
          have hrest := ih (List.cons_ne_nil q parts) (fun i hi => h i (List.mem_cons_of_mem p hi))
            (show Place.value.takesValue = true from rfl) (p.1 :: done)
          rw [List.map_cons, List.map_cons, joined, ← List.map_cons, List.append_assoc,
            List.append_assoc, List.cons_append, hstep, deliver, run_cons hcomma, run_blank hgap,
            hrest, List.map_cons (l := q :: parts), List.reverse_cons (a := p.1), List.append_assoc]
          rfl

/-- A field with its name, and blanks behind the colon. -/
def fieldOctets (gap : Bytes) (write : Json → Bytes) (f : Bytes × Json) : Bytes :=
  quoted f.1 ++ 58 :: (gap ++ write f.2)

/-- A field whose name is an escaped text and whose value is read. -/
def ReadsField (depth : Nat) (write : Json → Bytes) (f : Bytes × Json) : Prop :=
  (∃ s, f.1 = (Bytes.ofText s).flatMap escape) ∧ Reads depth f.2 (write f.2)

/-- A field is delivered to the object that is open. -/
theorem run_field {depth : Nat} {gap : Bytes} (hgap : Blank gap) {write : Json → Bytes}
    {limit : Option Nat} {frames : List Frame} (hfits : Fits limit frames (depth + 1))
    {f : Bytes × Json} (h : ReadsField depth write f) {place : Place}
    (hplace : place.takesKey = true) (done : List (Bytes × Json)) (key : Bytes) {x : UInt8}
    (hx : endsLexeme x = true) (rest : Bytes) :
    run limit ⟨place, .object done key :: frames, .blank⟩ (fieldOctets gap write f ++ x :: rest) =
      run limit ⟨.next, .object (f :: done) f.1 :: frames, .blank⟩ (x :: rest) := by
  obtain ⟨name, value⟩ := f
  obtain ⟨⟨s, hs⟩, hvalue⟩ := h
  have hinner : Fits limit (.object done name :: frames) depth := fun n hn => by
    have := hfits n hn
    rw [List.length_cons]
    omega
  have hname : acceptString name place (.object done key :: frames) =
      some ⟨.colon, .object done name :: frames, .blank⟩ := by
    rw [acceptString.eq_def, if_pos hplace]
  have hcolon : step limit ⟨.colon, .object done name :: frames, .blank⟩ 58 =
      some ⟨.value, .object done name :: frames, .blank⟩ := rfl
  simp only at hs
  rw [fieldOctets, List.append_assoc, List.cons_append, List.append_assoc, hs, run_quoted, ← hs,
    hname, Option.bind_some, run_cons hcolon, run_blank hgap]
  exact hvalue limit .value _ x rest rfl hinner hx

theorem run_fields {depth : Nat} {gap colonGap : Bytes} (hgap : Blank gap)
    (hcolon : Blank colonGap) {write : Json → Bytes} {limit : Option Nat} {frames : List Frame}
    (hfits : Fits limit frames (depth + 1)) {fields : List (Bytes × Json)} (hne : fields ≠ [])
    (h : ∀ f ∈ fields, ReadsField depth write f) {place : Place} (hplace : place.takesKey = true)
    (done : List (Bytes × Json)) (key : Bytes) {x : UInt8} (hx : endsLexeme x = true)
    (rest : Bytes) :
    ∃ last, run limit ⟨place, .object done key :: frames, .blank⟩
        (joined (44 :: gap) (fields.map (fieldOctets colonGap write)) ++ x :: rest) =
      run limit ⟨.next, .object (fields.reverse ++ done) last :: frames, .blank⟩ (x :: rest) := by
  induction fields generalizing place done key with
  | nil => exact absurd rfl hne
  | cons f fields ih =>
      have hf := h f List.mem_cons_self
      cases fields with
      | nil =>
          refine ⟨f.1, ?_⟩
          rw [List.map_singleton, joined]
          exact run_field hcolon hfits hf hplace done key hx rest
      | cons g fields =>
          have hcomma : step limit ⟨.next, .object (f :: done) f.1 :: frames, .blank⟩ 44 =
              some ⟨.key, .object (f :: done) f.1 :: frames, .blank⟩ := rfl
          have hstep := run_field hcolon hfits hf hplace done key (x := 44) (by decide)
            (gap ++ (joined (44 :: gap) ((g :: fields).map (fieldOctets colonGap write)) ++
              x :: rest))
          obtain ⟨last, hrest⟩ := ih (List.cons_ne_nil g fields)
            (fun i hi => h i (List.mem_cons_of_mem f hi)) (show Place.key.takesKey = true from rfl)
            (f :: done) f.1
          refine ⟨last, ?_⟩
          rw [List.map_cons, List.map_cons, joined, ← List.map_cons, List.append_assoc,
            List.append_assoc, List.cons_append, hstep, run_cons hcomma, run_blank hgap,
            hrest, List.reverse_cons (a := f), List.append_assoc]
          rfl

/-! ## Arrays and objects -/

theorem mayOpen_of_fits {limit : Option Nat} {frames : List Frame} {depth : Nat}
    (h : Fits limit frames (depth + 1)) : mayOpen limit frames = true := by
  cases limit with
  | none => rfl
  | some n =>
      have := h n rfl
      exact decide_eq_true (by omega)

theorem step_open_array {limit : Option Nat} {place : Place} {frames : List Frame}
    (hplace : place.takesValue = true) (hopen : mayOpen limit frames = true) :
    step limit ⟨place, frames, .blank⟩ 91 = some ⟨.item, .array [] :: frames, .blank⟩ := by
  have hinner : step limit ⟨place, frames, .blank⟩ 91 =
      if place.takesValue && mayOpen limit frames then some ⟨.item, .array [] :: frames, .blank⟩
      else none := rfl
  rw [hinner, hplace, hopen]
  rfl

theorem step_open_object {limit : Option Nat} {place : Place} {frames : List Frame}
    (hplace : place.takesValue = true) (hopen : mayOpen limit frames = true) :
    step limit ⟨place, frames, .blank⟩ 123 = some ⟨.field, .object [] [] :: frames, .blank⟩ := by
  have hinner : step limit ⟨place, frames, .blank⟩ 123 =
      if place.takesValue && mayOpen limit frames then
        some ⟨.field, .object [] [] :: frames, .blank⟩
      else none := rfl
  rw [hinner, hplace, hopen]
  rfl

variable {depth : Nat} {opening gap colonGap closing : Bytes} {write : Json → Bytes}
  {limit : Option Nat} {place : Place} {frames : List Frame}

theorem run_array (hopening : Blank opening) (hgap : Blank gap) (hclosing : Blank closing)
    {parts : List (Json × Bytes)} (hne : parts ≠ []) (h : ∀ p ∈ parts, Reads depth p.1 p.2)
    (hplace : place.takesValue = true) (hfits : Fits limit frames (depth + 1)) (rest : Bytes) :
    run limit ⟨place, frames, .blank⟩
        (91 :: (opening ++ (joined (44 :: gap) (parts.map (·.2)) ++ (closing ++ 93 :: rest)))) =
      run limit (deliver (.array (parts.map (·.1))) frames) rest := by
  obtain ⟨x, t, hhead, hx⟩ := exists_head_of_blank hclosing (y := 93) (by decide) rest
  have hclose : step limit ⟨.next, .array (parts.map (·.1)).reverse :: frames, .blank⟩ 93 =
      some (deliver (.array (parts.map (·.1))) frames) := by
    have hinner : step limit ⟨.next, .array (parts.map (·.1)).reverse :: frames, .blank⟩ 93 =
        some (deliver (.array (parts.map (·.1)).reverse.reverse) frames) := rfl
    rw [hinner, List.reverse_reverse]
  rw [run_cons (step_open_array hplace (mayOpen_of_fits hfits)), run_blank hopening, hhead,
    run_items hgap hfits hne h rfl [] hx, ← hhead, List.append_nil, run_blank hclosing,
    run_cons hclose]

/-- Items that are all written in one way, with what they are written as. -/
theorem reads_written {items : List Json} (h : ∀ j ∈ items, Reads depth j (write j)) :
    ∀ p ∈ items.map (fun j => (j, write j)), Reads depth p.1 p.2 := by
  intro p hp
  obtain ⟨j, hj, rfl⟩ := List.mem_map.mp hp
  exact h j hj

theorem run_object (hopening : Blank opening) (hgap : Blank gap) (hcolon : Blank colonGap)
    (hclosing : Blank closing) {fields : List (Bytes × Json)} (hne : fields ≠ [])
    (h : ∀ f ∈ fields, ReadsField depth write f) (hplace : place.takesValue = true)
    (hfits : Fits limit frames (depth + 1)) (rest : Bytes) :
    run limit ⟨place, frames, .blank⟩
        (123 :: (opening ++ (joined (44 :: gap) (fields.map (fieldOctets colonGap write)) ++
          (closing ++ 125 :: rest)))) =
      run limit (deliver (.object fields) frames) rest := by
  obtain ⟨x, t, hhead, hx⟩ := exists_head_of_blank hclosing (y := 125) (by decide) rest
  obtain ⟨last, hfields⟩ := run_fields hgap hcolon hfits hne h
    (show Place.field.takesKey = true from rfl) [] [] hx t
  have hclose : step limit ⟨.next, .object fields.reverse last :: frames, .blank⟩ 125 =
      some (deliver (.object fields) frames) := by
    have hinner : step limit ⟨.next, .object fields.reverse last :: frames, .blank⟩ 125 =
        some (deliver (.object fields.reverse.reverse) frames) := rfl
    rw [hinner, List.reverse_reverse]
  rw [run_cons (step_open_object hplace (mayOpen_of_fits hfits)), run_blank hopening, hhead,
    hfields, ← hhead, List.append_nil, run_blank hclosing, run_cons hclose]

/-! ## Layouts -/

/-- A way to write documents in which texts and numbers stand as they are. -/
structure Layout (write : Json → Bytes) : Prop where
  number : ∀ n, write (.number n) = leaf (.number n)
  string : ∀ raw, write (.string raw) = leaf (.string raw)

theorem layout_compact : Layout compact := ⟨fun _ => by rw [compact], fun _ => by rw [compact]⟩

theorem layout_indented (d : Nat) : Layout (indented d) :=
  ⟨fun _ => by rw [indented], fun _ => by rw [indented]⟩

theorem Layout.reads_ofText (hwrite : Layout write) (s : String) :
    Reads 0 (ofText s) (write (ofText s)) := by
  have hread := Reader.reads_ofText s
  rw [ofText] at hread ⊢
  rwa [hwrite.string]

theorem Layout.reads_number (hwrite : Layout write) {n : Number} (h : n.WellFormed) :
    Reads 0 (.number n) (write (.number n)) := by
  rw [hwrite.number]
  exact Reader.reads_number h

/-! ## Documents without blanks -/

theorem blank_nil : Blank [] := fun _ hx => absurd hx List.not_mem_nil

theorem compactItems_eq (items : List Json) :
    compactItems items = joined [44] (items.map compact) := by
  induction items with
  | nil => rfl
  | cons j items ih =>
      cases items with
      | nil => rfl
      | cons k items =>
          rw [compactItems, ih]
          simp only [List.map_cons, joined, List.append_assoc, List.cons_append, List.nil_append]

theorem compactFields_eq (fields : List (Bytes × Json)) :
    compactFields fields = joined [44] (fields.map (fieldOctets [] compact)) := by
  induction fields with
  | nil => rfl
  | cons f fields ih =>
      obtain ⟨key, j⟩ := f
      cases fields with
      | nil => rfl
      | cons g fields =>
          rw [compactFields, ih]
          simp only [List.map_cons, joined, fieldOctets, List.nil_append, List.append_assoc,
            List.cons_append]

theorem run_compact_object {fields : List (Bytes × Json)}
    (h : ∀ f ∈ fields, ReadsField depth compact f) (hplace : place.takesValue = true)
    (hfits : Fits limit frames (depth + 1)) (rest : Bytes) :
    run limit ⟨place, frames, .blank⟩ (compact (.object fields) ++ rest) =
      run limit (deliver (.object fields) frames) rest := by
  cases fields with
  | nil =>
      have hclose : step limit ⟨.field, .object [] [] :: frames, .blank⟩ 125 =
          some (deliver (.object []) frames) := rfl
      have hwrite : compact (.object []) = [123, 125] := rfl
      rw [hwrite, List.cons_append, List.singleton_append,
        run_cons (step_open_object hplace (mayOpen_of_fits hfits)), run_cons hclose]
  | cons f fields =>
      have hread := run_object blank_nil blank_nil blank_nil blank_nil (List.cons_ne_nil f fields) h
        hplace hfits rest
      rw [compact, compactFields_eq]
      simpa only [List.append_assoc, List.cons_append, List.nil_append] using hread

/-! ## Documents in lines -/

theorem indentedItems_eq (d : Nat) (items : List Json) :
    indentedItems d items = joined (44 :: newline d) (items.map (indented d)) := by
  induction items with
  | nil => rfl
  | cons j items ih =>
      cases items with
      | nil => rfl
      | cons k items =>
          rw [indentedItems, ih]
          rfl

theorem indentedFields_eq (d : Nat) (fields : List (Bytes × Json)) :
    indentedFields d fields =
      joined (44 :: newline d) (fields.map (fieldOctets [32] (indented d))) := by
  induction fields with
  | nil => rfl
  | cons f fields ih =>
      obtain ⟨key, j⟩ := f
      cases fields with
      | nil => rfl
      | cons g fields =>
          rw [indentedFields, ih]
          rfl

theorem run_indented_array {items : List Json} (d : Nat)
    (h : ∀ j ∈ items, Reads depth j (indented (d + 1) j)) (hplace : place.takesValue = true)
    (hfits : Fits limit frames (depth + 1)) (rest : Bytes) :
    run limit ⟨place, frames, .blank⟩ (indented d (.array items) ++ rest) =
      run limit (deliver (.array items) frames) rest := by
  cases items with
  | nil =>
      have hclose : step limit ⟨.item, .array [] :: frames, .blank⟩ 93 =
          some (deliver (.array []) frames) := rfl
      rw [indented, List.cons_append, List.singleton_append,
        run_cons (step_open_array hplace (mayOpen_of_fits hfits)), run_cons hclose]
  | cons j items =>
      have hread := run_array (blank_newline (d + 1)) (blank_newline (d + 1)) (blank_newline d)
        (List.cons_ne_nil _ _) (reads_written h) hplace hfits rest
      rw [indented, indentedItems_eq]
      simpa [Function.comp_def] using hread

theorem reads_indented_object {fields : List (Bytes × Json)} (d : Nat) (hne : fields ≠ [])
    (h : ∀ f ∈ fields, ReadsField depth (indented (d + 1)) f) :
    Reads (depth + 1) (.object fields) (indented d (.object fields)) := by
  intro limit place frames x rest hplace hfits _
  obtain ⟨f, fields, rfl⟩ := List.exists_cons_of_ne_nil hne
  have hspace : Blank [32] := by
    intro y hy
    obtain rfl := List.mem_singleton.mp hy
    rfl
  have hread := run_object (blank_newline (d + 1)) (blank_newline (d + 1)) hspace
    (blank_newline d) hne h hplace hfits (x :: rest)
  rw [indented, indentedFields_eq]
  simpa only [List.append_assoc, List.cons_append, List.nil_append] using hread

end Reader

/-- An object without blanks is read as this object. -/
theorem parse?_compact_object {fields : List (Bytes × Json)} {depth : Nat}
    (h : ∀ f ∈ fields, Reader.ReadsField depth compact f) :
    parse? (compact (.object fields)) = some (.object fields) := by
  have hfits : Reader.Fits none [] (depth + 1) := nofun
  have hrun := Reader.run_compact_object h (show Reader.Place.value.takesValue = true from rfl)
    hfits []
  rw [List.append_nil] at hrun
  rw [parse?, Reader.start, hrun]
  rfl

theorem parseWithin?_indented_array {items : List Json} {depth limit : Nat}
    (h : ∀ j ∈ items, Reader.Reads depth j (indented 1 j)) (hdepth : depth + 1 < limit) :
    parseWithin? limit (indented 0 (.array items)) = some (.array items) := by
  have hfits : Reader.Fits (some limit) [] (depth + 1) := fun n hn => by
    cases hn
    rw [List.length_nil]
    omega
  have hrun := Reader.run_indented_array 0 h (show Reader.Place.value.takesValue = true from rfl)
    hfits []
  rw [List.append_nil] at hrun
  rw [parseWithin?, Reader.start, hrun]
  rfl

end Telemetry.Json
