/-
A document reads the same wherever it stands.

A reader that goes through the octets of a document inside something larger has what it would
have open by itself, and beneath it what is open around the document (`Reader.Inside`).  It never
looks beneath, and it opens no more than the document is deep, so where this fits it goes as far
as it would by itself and delivers the document to what is open (`Reader.reads_of_parse?`).

So what an array is read as is told by its items alone, whatever they are written as
(`parse?_arrayText`).
-/
import Telemetry.Proofs.Json.Document
import Telemetry.Proofs.Json.Nesting

namespace Telemetry.Json

namespace Reader

/-- Where a reader stands inside a document, and where it stands that reads the document alone:
before it, within what is open of it, or behind it. -/
inductive Beneath (place : Place) (base : List Frame) :
    Place → List Frame → Place → List Frame → Prop
  | before : Beneath place base .value [] place base
  | within {p : Place} {f : Frame} {frames : List Frame} : (∀ j, p ≠ .complete j) →
      Beneath place base p (f :: frames) p (f :: (frames ++ base))
  | behind (j : Json) :
      Beneath place base (.complete j) [] (deliver j base).place (deliver j base).frames

/-- The state of a reader that reads a document alone, and the one inside something larger. -/
structure Inside (place : Place) (base : List Frame) (s t : State) : Prop where
  beneath : Beneath place base s.place s.frames t.place t.frames
  lexeme : t.lexeme = s.lexeme

/-- If the one goes on, so does the other, and they go on side by side. -/
def Follows (place : Place) (base : List Frame) (a b : Option State) : Prop :=
  ∀ s, a = some s → ∃ t, b = some t ∧ Inside place base s t

variable {place p q : Place} {base fs gs : List Frame} {limit : Option Nat} {depth : Nat}

namespace Follows

theorem none {b : Option State} : Follows place base none b := nofun

theorem some {s t : State} (h : Inside place base s t) : Follows place base (some s) (some t) := by
  rintro _ ⟨⟩
  exact ⟨t, rfl, h⟩

theorem ite {c : Prop} [Decidable c] {a b a' b' : Option State}
    (ha : c → Follows place base a a') (hb : ¬c → Follows place base b b') :
    Follows place base (if c then a else b) (if c then a' else b') := by
  split
  · exact ha ‹c›
  · exact hb ‹¬c›

theorem bind {a a' : Option State} {f f' : State → Option State} (ha : Follows place base a a')
    (hf : ∀ s t, Inside place base s t → Follows place base (f s) (f' t)) :
    Follows place base (a.bind f) (a'.bind f') := by
  intro s hs
  obtain ⟨u, hu, hrest⟩ := Option.bind_eq_some_iff.mp hs
  obtain ⟨v, hv, huv⟩ := ha u hu
  obtain ⟨t, ht, hst⟩ := hf u v huv s hrest
  exact ⟨t, Option.bind_eq_some_iff.mpr ⟨v, hv, ht⟩, hst⟩

end Follows

theorem lexeme_deliver (v : Json) (frames : List Frame) : (deliver v frames).lexeme = .blank := by
  cases frames with
  | nil => rfl
  | cons f frames => cases f <;> rfl

theorem inside_deliver (v : Json) (frames : List Frame) :
    Inside place base (deliver v frames) (deliver v (frames ++ base)) := by
  cases frames with
  | nil => exact ⟨.behind v, lexeme_deliver v base⟩
  | cons f frames => cases f <;> exact ⟨.within nofun, rfl⟩

theorem takesKey_of_takesValue (h : p.takesValue = true) : p.takesKey = false := by
  cases p with
  | value | item => rfl
  | field | key | colon | next | complete => exact absurd h Bool.false_ne_true

section Steps

variable (hplace : place.takesValue = true) (h : Beneath place base p fs q gs)

include h

theorem follows_closeArray : Follows place base (closeArray p fs) (closeArray q gs) := by
  cases h with
  | before => exact .none
  | behind j => exact .none
  | @within p f frames hp =>
      cases f with
      | object fields key => cases p <;> exact .none
      | array items =>
          cases p with
          | item | next => exact .some (inside_deliver _ frames)
          | value | field | key | colon | complete => exact .none

theorem follows_closeObject : Follows place base (closeObject p fs) (closeObject q gs) := by
  cases h with
  | before => exact .none
  | behind j => exact .none
  | @within p f frames hp =>
      cases f with
      | array items => cases p <;> exact .none
      | object fields key =>
          cases p with
          | field | next => exact .some (inside_deliver _ frames)
          | value | item | key | colon | complete => exact .none

theorem follows_comma : Follows place base (comma p fs) (comma q gs) := by
  cases h with
  | before => exact .none
  | behind j => exact .none
  | @within p f frames hp =>
      cases p with
      | next => cases f <;> exact .some ⟨.within nofun, rfl⟩
      | value | item | field | key | colon | complete => cases f <;> exact .none

theorem follows_colon : Follows place base (colon p fs) (colon q gs) := by
  cases h with
  | before => exact .none
  | behind j => exact .none
  | @within p f frames hp =>
      cases p with
      | colon => exact .some ⟨.within nofun, rfl⟩
      | value | item | field | key | next | complete => exact .none

include hplace

theorem follows_accept (v : Json) : Follows place base (accept v p fs) (accept v q gs) := by
  cases h with
  | before =>
      rw [accept, accept, if_pos (show Place.value.takesValue = true from rfl), if_pos hplace]
      exact .some (inside_deliver v [])
  | @within p f frames hp =>
      exact .ite (fun _ => .some (inside_deliver v (f :: frames))) fun _ => .none
  | behind j => exact .none

theorem follows_acceptString (raw : Bytes) :
    Follows place base (acceptString raw p fs) (acceptString raw q gs) := by
  have haccept := follows_accept hplace h (.string raw)
  cases h with
  | before =>
      have hvalue : acceptString raw .value [] = accept (.string raw) .value [] := rfl
      rw [hvalue, acceptString.eq_def, if_neg (by rw [takesKey_of_takesValue hplace]; decide)]
      exact haccept
  | @within p f frames hp =>
      refine .ite (fun _ => ?_) fun _ => haccept
      cases f with
      | array items => exact .none
      | object fields key =>
          refine .some ⟨.within ?_, rfl⟩
          intro j hj
          cases hj
  | behind j => exact .none

theorem follows_acceptWord (raw : Bytes) :
    Follows place base (acceptWord raw p fs) (acceptWord raw q gs) :=
  .ite (fun _ => follows_accept hplace h _) fun _ => .ite (fun _ => follows_accept hplace h _)
    fun _ => .ite (fun _ => follows_accept hplace h _) fun _ => .none

theorem follows_acceptNumber (raw : Bytes) :
    Follows place base (acceptNumber raw p fs) (acceptNumber raw q gs) := by
  rw [acceptNumber, acceptNumber]
  cases Number.ofChars? (raw.map fun x => Char.ofNat x.toNat) with
  | none => exact .none
  | some n => exact follows_accept hplace h (.number n)

/-- What may be opened of the document alone may be opened inside, if the document fits. -/
theorem follows_open (hfits : Fits limit base depth) {f : Frame} {inner : Place}
    (hinner : ∀ j, inner ≠ .complete j) :
    Follows place base
      (if p.takesValue && mayOpen (some (depth + 1)) fs then some ⟨inner, f :: fs, .blank⟩ else none)
      (if q.takesValue && mayOpen limit gs then some ⟨inner, f :: gs, .blank⟩ else none) := by
  have hopen : ∀ frames : List Frame, mayOpen (some (depth + 1)) frames = true →
      mayOpen limit (frames ++ base) = true := by
    intro frames hframes
    have hroom : frames.length + 1 < depth + 1 := of_decide_eq_true hframes
    cases limit with
    | none => rfl
    | some n =>
        have hn := hfits n rfl
        rw [mayOpen, decide_eq_true_iff, List.length_append]
        omega
  intro s hs
  rw [Option.ite_none_right_eq_some, Bool.and_eq_true] at hs
  obtain ⟨⟨hvalue, hmay⟩, heq⟩ := hs
  cases heq
  cases h with
  | before =>
      have hroom : mayOpen limit base = true := hopen [] hmay
      rw [hplace, hroom]
      exact ⟨_, rfl, .within hinner, rfl⟩
  | @within p g frames hp =>
      rw [hvalue, ← List.cons_append, hopen _ hmay]
      exact ⟨_, rfl, .within hinner, rfl⟩
  | behind j => exact absurd hvalue Bool.false_ne_true

theorem follows_punctuate (hfits : Fits limit base depth) (x : UInt8) :
    Follows place base (punctuate (some (depth + 1)) p fs x) (punctuate limit q gs x) :=
  .ite (fun _ => .some ⟨h, rfl⟩) fun _ => .ite (fun _ => .some ⟨h, rfl⟩) fun _ =>
    .ite (fun _ => .some ⟨h, rfl⟩) fun _ => .ite (fun _ => .some ⟨h, rfl⟩) fun _ =>
    .ite (fun _ => follows_open hplace h hfits nofun) fun _ =>
    .ite (fun _ => follows_open hplace h hfits nofun) fun _ =>
    .ite (fun _ => follows_closeArray h) fun _ =>
    .ite (fun _ => follows_closeObject h) fun _ =>
    .ite (fun _ => follows_comma h) fun _ =>
    .ite (fun _ => follows_colon h) fun _ => .none

end Steps

section Runs

variable (hplace : place.takesValue = true) {s t : State} (h : Inside place base s t)

include hplace h

theorem follows_finish : Follows place base (finish s) (finish t) := by
  obtain ⟨q, gs, lexeme⟩ := t
  obtain ⟨p, fs, _⟩ := s
  obtain ⟨hbeneath, rfl⟩ := h
  cases lexeme with
  | blank => exact .some ⟨hbeneath, rfl⟩
  | number raw => exact follows_acceptNumber hplace hbeneath _
  | word raw => exact follows_acceptWord hplace hbeneath _
  | string raw | escape raw | unit owed raw => exact .none

theorem follows_step (hfits : Fits limit base depth) (x : UInt8) :
    Follows place base (step (some (depth + 1)) s x) (step limit t x) := by
  have hend : Follows place base
      ((finish s).bind fun s => punctuate (some (depth + 1)) s.place s.frames x)
      ((finish t).bind fun t => punctuate limit t.place t.frames x) :=
    (follows_finish hplace h).bind fun _ _ hst => follows_punctuate hplace hst.beneath hfits x
  obtain ⟨q, gs, lexeme⟩ := t
  obtain ⟨p, fs, _⟩ := s
  obtain ⟨hbeneath, rfl⟩ := h
  cases lexeme with
  | blank => exact follows_punctuate hplace hbeneath hfits x
  | string raw =>
      exact .ite (fun _ => follows_acceptString hplace hbeneath _) fun _ =>
        .ite (fun _ => .some ⟨hbeneath, rfl⟩) fun _ => .ite (fun _ => .none) fun _ =>
          .some ⟨hbeneath, rfl⟩
  | escape raw =>
      exact .ite (fun _ => .some ⟨hbeneath, rfl⟩) fun _ =>
        .ite (fun _ => .some ⟨hbeneath, rfl⟩) fun _ => .none
  | unit owed raw =>
      exact .ite (fun _ => .ite (fun _ => .some ⟨hbeneath, rfl⟩) fun _ => .some ⟨hbeneath, rfl⟩)
        fun _ => .none
  | number raw => exact .ite (fun _ => .some ⟨hbeneath, rfl⟩) fun _ => hend
  | word raw => exact .ite (fun _ => .some ⟨hbeneath, rfl⟩) fun _ => hend

theorem follows_run (hfits : Fits limit base depth) (b : Bytes) :
    Follows place base (run (some (depth + 1)) s b) (run limit t b) := by
  induction b generalizing s t with
  | nil => exact .some h
  | cons x rest ih =>
      intro u hu
      obtain ⟨s', hs', hrest⟩ := run_cons_eq_some_iff.mp hu
      obtain ⟨t', ht', hinside⟩ := follows_step hplace h hfits x s' hs'
      obtain ⟨v, hv, huv⟩ := ih hinside u hrest
      exact ⟨v, run_cons_eq_some_iff.mpr ⟨t', ht', hv⟩, huv⟩

end Runs

/-! ## Documents -/

theorem lexeme_of_finish {s t : State} (h : finish s = some t) : t.lexeme = .blank := by
  have haccept : ∀ v, accept v s.place s.frames = some t → t.lexeme = .blank := by
    intro v hv
    obtain ⟨-, heq⟩ := Option.ite_none_right_eq_some.mp hv
    rw [← Option.some.inj heq, lexeme_deliver]
  obtain ⟨place, frames, lexeme⟩ := s
  cases lexeme with
  | blank =>
      obtain rfl := Option.some.inj h
      rfl
  | number raw =>
      obtain ⟨n, -, hn⟩ := Option.bind_eq_some_iff.mp h
      exact haccept _ hn
  | word raw =>
      simp only [finish, acceptWord] at h
      split at h
      · exact haccept _ h
      · split at h
        · exact haccept _ h
        · obtain ⟨-, hnull⟩ := Option.ite_none_right_eq_some.mp h
          exact haccept _ hnull
  | string raw | escape raw | unit owed raw => cases h

theorem run_of_finish {s t : State} (h : finish s = some t) {x : UInt8}
    (hx : endsLexeme x = true) (limit : Option Nat) (rest : Bytes) :
    run limit s (x :: rest) = run limit t (x :: rest) := by
  obtain ⟨hnumber, hword⟩ := Bool.and_eq_true_iff.mp hx
  rw [Bool.not_eq_true'] at hnumber hword
  have hblank := lexeme_of_finish h
  have hstep : step limit s x = step limit t x := by
    obtain ⟨place, frames, lexeme⟩ := s
    cases lexeme with
    | blank =>
        obtain rfl := Option.some.inj h
        rfl
    | number raw =>
        simp only [step, hnumber, Bool.false_eq_true, if_false, h, Option.bind_some, hblank]
    | word raw =>
        simp only [step, hword, Bool.false_eq_true, if_false, h, Option.bind_some, hblank]
    | string raw | escape raw | unit owed raw => cases h
  rw [run, run, hstep]

/-- What is a document by itself is read as this document wherever a value may stand. -/
theorem reads_of_parse? {b : Bytes} {j : Json} (h : parse? b = some j) : Reads j.depth j b := by
  have hwithin : parseWithin? (j.depth + 1) b = some j :=
    (parseWithin?_eq_some_iff (Nat.succ_pos _)).mpr ⟨h, Nat.lt_succ_self _⟩
  obtain ⟨s, hrun, hresult⟩ := Option.bind_eq_some_iff.mp hwithin
  intro limit place frames x rest hplace hfits hx
  have hstart : Inside place frames start ⟨place, frames, .blank⟩ := ⟨.before, rfl⟩
  obtain ⟨t, ht, hst⟩ := follows_run hplace hstart hfits b s hrun
  rw [run_append, ht, Option.bind_some]
  unfold result? at hresult
  split at hresult
  · rename_i document fs lexeme hfinish
    cases hresult
    obtain ⟨u, hu, hbeneath, hlexeme⟩ := follows_finish hplace hst _ hfinish
    have hdelivered : u = deliver j frames := by
      have hblank : u.lexeme = (deliver j frames).lexeme := by
        rw [lexeme_of_finish hu, lexeme_deliver]
      obtain ⟨q, gs, l⟩ := u
      cases hbeneath with
      | within hp => exact absurd rfl (hp j)
      | behind => exact congrArg (State.mk _ _) hblank
    rw [run_of_finish hu hx, hdelivered]
  · cases hresult

end Reader

theorem depth_le_deepest {j : Json} {items : List Json} (h : j ∈ items) :
    j.depth ≤ deepest items := by
  induction items with
  | nil => exact absurd h List.not_mem_nil
  | cons i items ih =>
      rw [deepest]
      rcases List.mem_cons.mp h with rfl | hmem
      · exact Nat.le_max_left _ _
      · exact Nat.le_trans (ih hmem) (Nat.le_max_right _ _)

/-- The text of an array, made of the texts of its items. -/
def arrayText (texts : List Bytes) : Bytes := 91 :: (Reader.joined [44] texts ++ [93])

/-- An array is read as its items are, whatever each of them is written as. -/
theorem parse?_arrayText {parts : List (Json × Bytes)} (h : ∀ p ∈ parts, parse? p.2 = some p.1) :
    parse? (arrayText (parts.map (·.2))) = some (.array (parts.map (·.1))) := by
  cases parts with
  | nil => rfl
  | cons p parts =>
      have hreads : ∀ r ∈ p :: parts,
          Reader.Reads (deepest ((p :: parts).map (·.1))) r.1 r.2 := fun r hr =>
        (Reader.reads_of_parse? (h r hr)).mono (depth_le_deepest (List.mem_map_of_mem hr))
      have hfits : Reader.Fits none [] (deepest ((p :: parts).map (·.1)) + 1) := nofun
      have hrun : Reader.run none Reader.start (arrayText ((p :: parts).map (·.2))) =
          Reader.run none (Reader.deliver (.array ((p :: parts).map (·.1))) []) [] :=
        Reader.run_array Reader.blank_nil Reader.blank_nil Reader.blank_nil
          (List.cons_ne_nil p parts) hreads rfl hfits []
      rw [parse?, hrun]
      rfl

end Telemetry.Json
