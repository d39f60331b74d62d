/-
Operations in sequence.

An operation that is refused refuses all that follows it, so a sequence yields
a value only when each of its operations does.  The two equivalences are how
such sequences are taken apart.

Sequences over a list are taken apart in the same way: what they yield is yielded by one of their
operations, they yield it when each of these does, and the first that is refused decides the
refusal (`Result.mapM_eq_error_iff`, `Result.foldlM_eq_error_iff`).
-/
import Telemetry.Fault

namespace Telemetry.Result

@[simp] theorem bind_ok {α β : Type} (a : α) (f : α → Result β) :
    (Except.ok a : Result α).bind f = f a := rfl

@[simp] theorem map_ok {α β : Type} (a : α) (f : α → β) :
    (Except.ok a : Result α).map f = .ok (f a) := rfl

theorem ite_eq_ok_iff {α : Type} {p : Prop} [Decidable p] {a : α} {e : Fault} :
    (if p then .ok a else .error e : Result α) = .ok a ↔ p := by
  by_cases hp : p
  · rw [if_pos hp]
    exact iff_of_true rfl hp
  · rw [if_neg hp]
    refine iff_of_false ?_ hp
    intro h
    cases h

theorem bind_eq_ok_iff {α β : Type} {x : Result α} {f : α → Result β} {b : β} :
    x.bind f = .ok b ↔ ∃ a, x = .ok a ∧ f a = .ok b := by
  cases x with
  | error e => exact ⟨nofun, fun ⟨_, h, _⟩ => nomatch h⟩
  | ok a => exact ⟨fun h => ⟨a, rfl, h⟩, fun ⟨_, h, hf⟩ => by cases h; exact hf⟩

theorem seq_eq_ok_iff {x y : Result Unit} :
    (x >>= fun _ => y) = .ok () ↔ x = .ok () ∧ y = .ok () := by
  cases x with
  | error f => exact ⟨nofun, nofun⟩
  | ok u => exact ⟨fun h => ⟨rfl, h⟩, fun h => h.2⟩

theorem map_eq_ok_iff {α β : Type} {x : Result α} {f : α → β} {b : β} :
    x.map f = .ok b ↔ ∃ a, x = .ok a ∧ f a = b := by
  cases x with
  | error e => exact ⟨nofun, fun ⟨_, h, _⟩ => nomatch h⟩
  | ok a =>
      constructor
      · intro h
        exact ⟨a, rfl, Except.ok.inj h⟩
      · rintro ⟨_, h, rfl⟩
        cases h
        rfl

theorem bind_eq_error_iff {α β : Type} {x : Result α} {f : α → Result β} {e : Fault} :
    x.bind f = .error e ↔ x = .error e ∨ ∃ a, x = .ok a ∧ f a = .error e := by
  cases x with
  | error d =>
      constructor
      · intro h
        exact .inl (congrArg _ (Except.error.inj h))
      · rintro (h | ⟨_, h, _⟩)
        · exact congrArg _ (Except.error.inj h)
        · cases h
  | ok a =>
      constructor
      · exact fun h => .inr ⟨a, rfl, h⟩
      · rintro (h | ⟨_, h, hf⟩)
        · cases h
        · cases h
          exact hf

theorem map_eq_error_iff {α β : Type} {x : Result α} {f : α → β} {e : Fault} :
    x.map f = .error e ↔ x = .error e := by
  cases x with
  | error d =>
      exact ⟨fun h => congrArg _ (Except.error.inj h), fun h => congrArg _ (Except.error.inj h)⟩
  | ok a => exact ⟨nofun, nofun⟩

theorem toOption_eq_some_iff {α : Type} {x : Result α} {a : α} :
    x.toOption = some a ↔ x = .ok a := by
  cases x with
  | error e => exact ⟨nofun, nofun⟩
  | ok b => exact ⟨fun h => congrArg _ (Option.some.inj h), fun h => congrArg _ (Except.ok.inj h)⟩

theorem of_toOption_all {α : Type} {x : Result α} {P : α → Prop} [DecidablePred P]
    (h : x.toOption.all (fun a => decide (P a)) = true) : ∀ a, x = .ok a → P a := by
  rintro a rfl
  exact of_decide_eq_true h

theorem forM_eq_ok_iff {α : Type} {check : α → Result Unit} {l : List α} :
    l.forM check = .ok () ↔ ∀ x ∈ l, check x = .ok () := by
  induction l with
  | nil => exact ⟨fun _ _ hx => absurd hx List.not_mem_nil, fun _ => rfl⟩
  | cons x l ih =>
      have hcons : (x :: l).forM check = (check x).bind fun _ => l.forM check := rfl
      rw [hcons, bind_eq_ok_iff, List.forall_mem_cons]
      constructor
      · rintro ⟨_, hx, hl⟩
        exact ⟨hx, ih.mp hl⟩
      · rintro ⟨hx, hl⟩
        exact ⟨(), hx, ih.mpr hl⟩

theorem exists_of_forM_error {α : Type} {check : α → Result Unit} {l : List α} {e : Fault}
    (h : l.forM check = .error e) : ∃ x ∈ l, check x = .error e := by
  induction l with
  | nil => cases h
  | cons x l ih =>
      have hcons : (x :: l).forM check = (check x).bind fun _ => l.forM check := rfl
      rw [hcons] at h
      rcases bind_eq_error_iff.mp h with hx | ⟨-, -, hrest⟩
      · exact ⟨x, List.mem_cons_self, hx⟩
      · obtain ⟨y, hy, hcheck⟩ := ih hrest
        exact ⟨y, List.mem_cons_of_mem x hy, hcheck⟩

theorem mapM_cons_eq_ok_iff {α β : Type} {f : α → Result β} {a : α} {l : List α} {bs : List β} :
    (a :: l).mapM f = .ok bs ↔ ∃ b rest, f a = .ok b ∧ l.mapM f = .ok rest ∧ b :: rest = bs := by
  rw [List.mapM_cons]
  constructor
  · intro h
    obtain ⟨b, hb, hrest⟩ := bind_eq_ok_iff.mp h
    obtain ⟨rest, hl, hbs⟩ := bind_eq_ok_iff.mp hrest
    exact ⟨b, rest, hb, hl, Except.ok.inj hbs⟩
  · rintro ⟨b, rest, hb, hl, rfl⟩
    exact bind_eq_ok_iff.mpr ⟨b, hb, bind_eq_ok_iff.mpr ⟨rest, hl, rfl⟩⟩

theorem mapM_eq_ok_iff {α β : Type} {f : α → Result β} {l : List α} {bs : List β} :
    l.mapM f = .ok bs ↔ l.map f = bs.map .ok := by
  induction l generalizing bs with
  | nil =>
      rw [List.map_nil, List.nil_eq, List.map_eq_nil_iff]
      exact ⟨fun h => (Except.ok.inj h).symm, fun h => congrArg Except.ok h.symm⟩
  | cons a l ih =>
      rw [mapM_cons_eq_ok_iff, List.map_cons]
      constructor
      · rintro ⟨b, rest, hb, hrest, rfl⟩
        rw [hb, ih.mp hrest, List.map_cons]
      · intro h
        obtain ⟨b, rest, rfl, hb, hrest⟩ := List.map_eq_cons_iff.mp h.symm
        exact ⟨b, rest, hb.symm, ih.mpr hrest.symm, rfl⟩

theorem exists_mapM_eq_ok {α β : Type} {f : α → Result β} {l : List α}
    (h : ∀ a ∈ l, ∃ b, f a = .ok b) : ∃ bs, l.mapM f = .ok bs := by
  induction l with
  | nil => exact ⟨[], rfl⟩
  | cons a l ih =>
      obtain ⟨b, hb⟩ := h a List.mem_cons_self
      obtain ⟨rest, hl⟩ := ih fun c hc => h c (List.mem_cons_of_mem a hc)
      exact ⟨_, mapM_cons_eq_ok_iff.mpr ⟨b, rest, hb, hl, rfl⟩⟩

theorem exists_of_mem_mapM {α β : Type} {f : α → Result β} {l : List α} {bs : List β}
    (h : l.mapM f = .ok bs) {b : β} (hb : b ∈ bs) : ∃ a ∈ l, f a = .ok b := by
  induction l generalizing bs with
  | nil => cases h; exact absurd hb List.not_mem_nil
  | cons a l ih =>
      obtain ⟨c, cs, hc, hcs, rfl⟩ := mapM_cons_eq_ok_iff.mp h
      rcases List.mem_cons.mp hb with rfl | hmem
      · exact ⟨a, List.mem_cons_self, hc⟩
      · obtain ⟨x, hx, hfx⟩ := ih hcs hmem
        exact ⟨x, List.mem_cons_of_mem a hx, hfx⟩

/-- Operations in sequence are refused by the first that is refused. -/
theorem mapM_eq_error_iff {α β : Type} {f : α → Result β} {l : List α} {e : Fault} :
    l.mapM f = .error e ↔ ∃ earlier a rest bs, l = earlier ++ a :: rest ∧
      earlier.mapM f = .ok bs ∧ f a = .error e := by
  induction l with
  | nil =>
      refine iff_of_false nofun ?_
      rintro ⟨earlier, a, rest, bs, hl, -⟩
      cases earlier <;> cases hl
  | cons x l ih =>
      have hcons : (x :: l).mapM f = (f x).bind fun b => (l.mapM f).map (b :: ·) := by
        rw [List.mapM_cons]
        cases f x with
        | error d => rfl
        | ok b => cases l.mapM f <;> rfl
      simp only [hcons, bind_eq_error_iff, map_eq_error_iff, ih]
      constructor
      · rintro (hx | ⟨b, hb, earlier, a, rest, bs, rfl, hearlier, ha⟩)
        · exact ⟨[], x, l, [], rfl, rfl, hx⟩
        · exact ⟨x :: earlier, a, rest, b :: bs, rfl,
            mapM_cons_eq_ok_iff.mpr ⟨b, bs, hb, hearlier, rfl⟩, ha⟩
      · rintro ⟨earlier, a, rest, bs, hl, hearlier, ha⟩
        cases earlier with
        | nil =>
            cases hl
            exact .inl ha
        | cons y earlier =>
            cases hl
            obtain ⟨b, cs, hb, hcs, -⟩ := mapM_cons_eq_ok_iff.mp hearlier
            exact .inr ⟨b, hb, earlier, a, rest, cs, rfl, hcs, ha⟩

theorem foldlM_eq_error_iff {α β : Type} {step : β → α → Result β} {l : List α} {b : β}
    {e : Fault} :
    l.foldlM step b = .error e ↔ ∃ earlier a rest c, l = earlier ++ a :: rest ∧
      earlier.foldlM step b = .ok c ∧ step c a = .error e := by
  induction l generalizing b with
  | nil =>
      refine iff_of_false nofun ?_
      rintro ⟨earlier, a, rest, c, hl, -⟩
      cases earlier <;> cases hl
  | cons x l ih =>
      have hcons (m : List α) : (x :: m).foldlM step b = (step b x).bind (m.foldlM step) := rfl
      rw [hcons, bind_eq_error_iff]
      constructor
      · rintro (hx | ⟨d, hd, hl⟩)
        · exact ⟨[], x, l, b, rfl, rfl, hx⟩
        · obtain ⟨earlier, a, rest, c, rfl, hearlier, ha⟩ := ih.mp hl
          refine ⟨x :: earlier, a, rest, c, rfl, ?_, ha⟩
          rw [hcons, hd, bind_ok, hearlier]
      · rintro ⟨earlier, a, rest, c, hl, hearlier, ha⟩
        cases earlier with
        | nil =>
            cases hl
            cases hearlier
            exact .inl ha
        | cons y earlier =>
            cases hl
            rw [hcons, bind_eq_ok_iff] at hearlier
            obtain ⟨d, hd, hrest⟩ := hearlier
            exact .inr ⟨d, hd, ih.mpr ⟨earlier, a, rest, c, rfl, hrest, ha⟩⟩

end Telemetry.Result
