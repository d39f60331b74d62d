/-
How deep a document goes.

A reader with a limit refuses an array or object that would be one too many open at once, and
does nothing else differently.  Whether it has to refuse one can be told from the document: it
reads just what the reader without a limit reads, where this is not as deep as the limit
(`parseWithin?_eq_some_iff`).

The number of open frames does not tell the depth, since what was deep may be closed again.  The
height of a state counts that too: it is the depth that the document has whatever is still to
come.  An octet leaves the height as it is, or it opens an array or object and may raise it
(`acts_step`); so the height only grows, and a run that ends below the limit was below it all the
way.
-/
import Telemetry.Json.Reader

namespace Telemetry.Json

mutual
/-- How many arrays and objects of a document hold one another. -/
def depth : Json → Nat
  | null | bool _ | number _ | string _ => 0
  | array items => deepest items + 1
  | object fields => deepestField fields + 1

/-- The greatest depth of documents. -/
def deepest : List Json → Nat
  | [] => 0
  | j :: rest => max (depth j) (deepest rest)

def deepestField : List (Bytes × Json) → Nat
  | [] => 0
  | (_, j) :: rest => max (depth j) (deepestField rest)
end

theorem deepest_append (xs ys : List Json) :
    deepest (xs ++ ys) = max (deepest xs) (deepest ys) := by
  induction xs with
  | nil => exact (Nat.zero_max _).symm
  | cons j xs ih => rw [List.cons_append, deepest, deepest, ih, Nat.max_assoc]

@[simp] theorem deepest_reverse (items : List Json) : deepest items.reverse = deepest items := by
  induction items with
  | nil => rfl
  | cons j items ih =>
      rw [List.reverse_cons, deepest_append, ih, deepest, deepest, deepest, Nat.max_zero,
        Nat.max_comm]

theorem deepestField_eq (fields : List (Bytes × Json)) :
    deepestField fields = deepest (fields.map (·.2)) := by
  induction fields with
  | nil => rfl
  | cons f fields ih => rw [List.map_cons, deepestField, deepest, ih]

@[simp] theorem deepestField_reverse (fields : List (Bytes × Json)) :
    deepestField fields.reverse = deepestField fields := by
  rw [deepestField_eq, List.map_reverse, deepest_reverse, deepestField_eq]

namespace Reader

/-! ## The height of a state -/

def Frame.deepest : Frame → Nat
  | .array items => Json.deepest items
  | .object fields _ => deepestField fields

/-- The depth that a document has for what its open arrays and objects hold. -/
def heightOf : List Frame → Nat
  | [] => 0
  | f :: rest => max (f.deepest + (rest.length + 1)) (heightOf rest)

/-- The depth that a document has for what is read of it. -/
def heightAt : Place → List Frame → Nat
  | .complete document, _ => document.depth
  | _, frames => heightOf frames

/-- The depth that a document has, whatever is still to come. -/
def State.height (s : State) : Nat := heightAt s.place s.frames

theorem length_le_heightOf (frames : List Frame) : frames.length ≤ heightOf frames := by
  cases frames with
  | nil => exact Nat.le_refl 0
  | cons f rest =>
      rw [heightOf, List.length_cons]
      omega

theorem heightAt_of_takesValue {place : Place} (h : place.takesValue = true)
    (frames : List Frame) : heightAt place frames = heightOf frames := by
  cases place with
  | value | item => rfl
  | field | key | colon | next | complete => exact absurd h Bool.false_ne_true

theorem height_deliver (v : Json) (frames : List Frame) :
    (deliver v frames).height = max (heightOf frames) (v.depth + frames.length) := by
  cases frames with
  | nil =>
      change v.depth = max 0 (v.depth + 0)
      omega
  | cons f rest =>
      cases f with
      | array items =>
          change max (max v.depth (deepest items) + (rest.length + 1)) (heightOf rest) =
            max (max (deepest items + (rest.length + 1)) (heightOf rest))
              (v.depth + (rest.length + 1))
          omega
      | object fields key =>
          change max (max v.depth (deepestField fields) + (rest.length + 1)) (heightOf rest) =
            max (max (deepestField fields + (rest.length + 1)) (heightOf rest))
              (v.depth + (rest.length + 1))
          omega

/-! ## What keeps the height -/

/-- A state of this height, if there is one. -/
def Keeps (height : Nat) (after : Option State) : Prop := ∀ t, after = some t → t.height = height

namespace Keeps

variable {height : Nat} {place : Place} {frames : List Frame}

theorem none : Keeps height none := nofun

theorem some {t : State} (h : t.height = height) : Keeps height (some t) :=
  fun _ ht => Option.some.inj ht ▸ h

theorem ite {c : Prop} [Decidable c] {a b : Option State} (ha : c → Keeps height a)
    (hb : ¬c → Keeps height b) : Keeps height (if c then a else b) := by
  split
  · exact ha ‹c›
  · exact hb ‹¬c›

theorem accept {v : Json} (hv : v.depth = 0) :
    Keeps (heightAt place frames) (accept v place frames) := by
  refine .ite (fun hplace => .some ?_) fun _ => .none
  have hlength := length_le_heightOf frames
  rw [height_deliver, heightAt_of_takesValue hplace, hv]
  omega

theorem acceptString (raw : Bytes) :
    Keeps (heightAt place frames) (acceptString raw place frames) := by
  refine .ite (fun hkey => ?_) fun _ => .accept rfl
  split
  · cases place with
    | value | item | colon | next | complete => exact absurd hkey Bool.false_ne_true
    | field | key => exact .some rfl
  · exact .none

theorem acceptWord (raw : Bytes) : Keeps (heightAt place frames) (acceptWord raw place frames) :=
  .ite (fun _ => .accept rfl) fun _ => .ite (fun _ => .accept rfl) fun _ =>
    .ite (fun _ => .accept rfl) fun _ => .none

theorem acceptNumber (raw : Bytes) :
    Keeps (heightAt place frames) (acceptNumber raw place frames) := by
  intro t ht
  obtain ⟨n, -, haccept⟩ := Option.bind_eq_some_iff.mp ht
  exact accept rfl t haccept

theorem closeArray : Keeps (heightAt place frames) (closeArray place frames) := by
  have hclosed : ∀ (items : List Json) (rest : List Frame),
      (deliver (.array items.reverse) rest).height = heightOf (.array items :: rest) := by
    intro items rest
    rw [height_deliver, depth, deepest_reverse, heightOf, Frame.deepest]
    omega
  unfold Reader.closeArray
  split
  · exact .some (hclosed _ _)
  · exact .some (hclosed _ _)
  · exact .none

theorem closeObject : Keeps (heightAt place frames) (closeObject place frames) := by
  have hclosed : ∀ (fields : List (Bytes × Json)) (key : Bytes) (rest : List Frame),
      (deliver (.object fields.reverse) rest).height = heightOf (.object fields key :: rest) := by
    intro fields key rest
    rw [height_deliver, depth, deepestField_reverse, heightOf, Frame.deepest]
    omega
  unfold Reader.closeObject
  split
  · exact .some (hclosed _ _ _)
  · exact .some (hclosed _ _ _)
  · exact .none

theorem comma : Keeps (heightAt place frames) (comma place frames) := by
  unfold Reader.comma
  split
  · exact .some rfl
  · exact .some rfl
  · exact .none

theorem colon : Keeps (heightAt place frames) (colon place frames) := by
  unfold Reader.colon
  split
  · exact .some rfl
  · exact .none

theorem finish (s : State) : Keeps s.height (finish s) := by
  unfold Reader.finish
  split
  · exact .some rfl
  · exact acceptNumber _
  · exact acceptWord _
  · exact .none

end Keeps

/-! ## What the limit is for -/

/-- What an octet does at a height, under each limit: either the limit does not matter and the
height stays, or something is opened as far as the limit lets it. -/
inductive Acts (height : Nat) (act : Option Nat → Option State) : Prop
  | kept {after : Option State} :
      (∀ limit, act limit = after) → Keeps height after → Acts height act
  | opened {frames : List Frame} {after : State} :
      (∀ limit, act limit = if mayOpen limit frames = true then some after else none) →
      after.height = max height (frames.length + 1) → Acts height act

namespace Acts

variable {height : Nat} {act : Option Nat → Option State} {t : State}

theorem le_height (h : Acts height act) {limit : Option Nat} (ht : act limit = some t) :
    height ≤ t.height := by
  cases h with
  | kept hact hkept =>
      rw [hact] at ht
      exact Nat.le_of_eq (hkept t ht).symm
  | opened hact hopened =>
      rw [hact, Option.ite_none_right_eq_some, Option.some.injEq] at ht
      rw [← ht.2, hopened]
      exact Nat.le_max_left _ _

/-- The limit lets through what does not reach it. -/
theorem within_iff (h : Acts height act) {n : Nat} (hn : height < n) :
    act (some n) = some t ↔ act none = some t ∧ t.height < n := by
  cases h with
  | kept hact hkept =>
      rw [hact, hact]
      exact (and_iff_left_of_imp fun ht => (hkept t ht).symm ▸ hn).symm
  | @opened frames after hact hopened =>
      have hfits : mayOpen (some n) frames = true ↔ after.height < n := by
        rw [mayOpen, decide_eq_true_iff, hopened]
        omega
      have hfree : mayOpen none frames = true := rfl
      rw [hact, hact, if_pos hfree, Option.ite_none_right_eq_some, hfits, Option.some.injEq,
        and_comm]
      exact and_congr_right fun ht => by rw [ht]

end Acts

theorem acts_open {act : Option Nat → Option State} {place inner : Place} {f : Frame}
    {frames : List Frame} (hplace : place.takesValue = true) (hf : f.deepest = 0)
    (hinner : heightAt inner (f :: frames) = heightOf (f :: frames))
    (hact : ∀ limit, act limit =
      if (place.takesValue && mayOpen limit frames) = true then some ⟨inner, f :: frames, .blank⟩
      else none) : Acts (heightAt place frames) act := by
  simp only [hplace, Bool.true_and] at hact
  refine .opened hact ?_
  rw [State.height, hinner, heightOf, hf, heightAt_of_takesValue hplace]
  omega

theorem acts_punctuate (place : Place) (frames : List Frame) (x : UInt8) :
    Acts (heightAt place frames) fun limit => punctuate limit place frames x := by
  by_cases hopens : (x = 91 ∨ x = 123) ∧ place.takesValue = true
  · obtain ⟨rfl | rfl, hplace⟩ := hopens
    · exact acts_open (f := .array []) hplace rfl rfl fun _ => rfl
    · exact acts_open (f := .object [] []) hplace rfl rfl fun _ => rfl
  · have hact : ∀ limit, punctuate limit place frames x = punctuate none place frames x := by
      intro limit
      rw [Classical.not_and_iff_not_or_not, not_or] at hopens
      rcases hopens with ⟨harray, hobject⟩ | hplace
      · simp only [punctuate, harray, hobject, if_false]
      · simp only [punctuate, hplace, Bool.false_and]
    refine .kept hact ?_
    -- blanks, quotes, numbers and words leave the frames alone
    refine .ite (fun _ => .some rfl) fun _ => .ite (fun _ => .some rfl) fun _ =>
      .ite (fun _ => .some rfl) fun _ => .ite (fun _ => .some rfl) fun _ => ?_
    refine .ite (fun hx => .ite (fun hplace => ?_) fun _ => .none) fun _ => ?_
    · exact absurd ⟨.inl hx, (Bool.and_eq_true_iff.mp hplace).1⟩ hopens
    refine .ite (fun hx => .ite (fun hplace => ?_) fun _ => .none) fun _ => ?_
    · exact absurd ⟨.inr hx, (Bool.and_eq_true_iff.mp hplace).1⟩ hopens
    exact .ite (fun _ => .closeArray) fun _ => .ite (fun _ => .closeObject) fun _ =>
      .ite (fun _ => .comma) fun _ => .ite (fun _ => .colon) fun _ => .none

theorem acts_finish (s : State) (x : UInt8) :
    Acts s.height fun limit => (finish s).bind fun s => punctuate limit s.place s.frames x := by
  cases hfinish : finish s with
  | none => exact .kept (fun _ => rfl) .none
  | some t =>
      rw [← Keeps.finish s t hfinish]
      exact acts_punctuate t.place t.frames x

theorem acts_step (s : State) (x : UInt8) : Acts s.height fun limit => step limit s x := by
  obtain ⟨place, frames, lexeme⟩ := s
  cases lexeme with
  | blank => exact acts_punctuate place frames x
  | string raw =>
      exact .kept (fun _ => rfl) <| .ite (fun _ => .acceptString _) fun _ =>
        .ite (fun _ => .some rfl) fun _ => .ite (fun _ => .none) fun _ => .some rfl
  | escape raw =>
      exact .kept (fun _ => rfl) <| .ite (fun _ => .some rfl) fun _ =>
        .ite (fun _ => .some rfl) fun _ => .none
  | unit owed raw =>
      exact .kept (fun _ => rfl) <| .ite
        (fun _ => .ite (fun _ => .some rfl) fun _ => .some rfl) fun _ => .none
  | number raw =>
      cases hx : inNumber x with
      | true =>
          have hact : ∀ limit, step limit ⟨place, frames, .number raw⟩ x =
              some ⟨place, frames, .number (x :: raw)⟩ := fun _ => by simp only [step, hx, if_true]
          exact .kept hact (.some rfl)
      | false =>
          simp only [step, hx, Bool.false_eq_true, if_false]
          exact acts_finish _ x
  | word raw =>
      cases hx : inWord x with
      | true =>
          have hact : ∀ limit, step limit ⟨place, frames, .word raw⟩ x =
              some ⟨place, frames, .word (x :: raw)⟩ := fun _ => by simp only [step, hx, if_true]
          exact .kept hact (.some rfl)
      | false =>
          simp only [step, hx, Bool.false_eq_true, if_false]
          exact acts_finish _ x

/-! ## All octets -/

theorem run_cons_eq_some_iff {limit : Option Nat} {s t : State} {x : UInt8} {rest : Bytes} :
    run limit s (x :: rest) = some t ↔
      ∃ u, step limit s x = some u ∧ run limit u rest = some t := by
  rw [run]
  cases step limit s x with
  | none => simp
  | some u => simp

theorem height_le_run {limit : Option Nat} {s t : State} {b : Bytes}
    (h : run limit s b = some t) : s.height ≤ t.height := by
  induction b generalizing s with
  | nil =>
      cases h
      exact Nat.le_refl _
  | cons x rest ih =>
      obtain ⟨u, hu, hrest⟩ := run_cons_eq_some_iff.mp h
      exact Nat.le_trans ((acts_step s x).le_height hu) (ih hrest)

/-- The reader with a limit goes where the reader without one goes and stays below the limit. -/
theorem run_within_iff {n : Nat} {s t : State} {b : Bytes} (hs : s.height < n) :
    run (some n) s b = some t ↔ run none s b = some t ∧ t.height < n := by
  induction b generalizing s with
  | nil =>
      rw [run, run, Option.some.injEq]
      exact (and_iff_left_of_imp fun hst => hst ▸ hs).symm
  | cons x rest ih =>
      rw [run_cons_eq_some_iff, run_cons_eq_some_iff]
      constructor
      · rintro ⟨u, hu, hrest⟩
        obtain ⟨hstep, hu⟩ := ((acts_step s x).within_iff hs).mp hu
        obtain ⟨hrun, ht⟩ := (ih hu).mp hrest
        exact ⟨⟨u, hstep, hrun⟩, ht⟩
      · rintro ⟨⟨u, hstep, hrun⟩, ht⟩
        -- the height only grows, so what ends below the limit was below it all the way
        have hu : u.height < n := Nat.lt_of_le_of_lt (height_le_run hrun) ht
        exact ⟨u, ((acts_step s x).within_iff hs).mpr ⟨hstep, hu⟩, (ih hu).mpr ⟨hrun, ht⟩⟩

/-- The height of a state from which a document results is its depth. -/
theorem height_of_result? {s : State} {j : Json} (h : result? s = some j) : s.height = j.depth := by
  unfold result? at h
  split at h
  · rename_i document frames lexeme hfinish
    cases h
    exact (Keeps.finish s _ hfinish).symm
  · cases h

end Reader

/-- With a limit just those documents are read that are not as deep as the limit. -/
theorem parseWithin?_eq_some_iff {n : Nat} (hn : 0 < n) {b : Bytes} {j : Json} :
    parseWithin? n b = some j ↔ parse? b = some j ∧ j.depth < n := by
  have hstart : Reader.start.height < n := hn
  simp only [parseWithin?, parse?, Option.bind_eq_some_iff, Reader.run_within_iff hstart]
  constructor
  · rintro ⟨s, ⟨hrun, hs⟩, hresult⟩
    exact ⟨⟨s, hrun, hresult⟩, Reader.height_of_result? hresult ▸ hs⟩
  · rintro ⟨⟨s, hrun, hresult⟩, hj⟩
    exact ⟨s, ⟨hrun, (Reader.height_of_result? hresult).symm ▸ hj⟩, hresult⟩

end Telemetry.Json
