/-
Texts that are joined by a mark.

Two texts with a mark between them make one text, and from that they can be told again unless
the mark stands in them too.  Then the text may be cut at a later mark (`Text.Recut`), and
nowhere else: a mark whose first character does not come again in it cannot overlap itself
(`Text.append_mark_eq_iff`).  A mark of one character is found where it comes first
(`Text.cut?_eq_some_iff`).
-/
import Mathlib.Data.List.TakeWhile
import Telemetry.Text.Pieces

namespace Telemetry.Text

/-- The parts `a` and `x` of a text, and the parts `b` and `y` of the same text when it is cut
at a later mark. -/
def Recut (mark a x b y : String) : Prop := ∃ between, b = a ++ mark ++ between ∧
  x = between ++ mark ++ y

/-- A mark in front of a text stands there again at the same place, or behind itself. -/
theorem append_mark_front {c : Char} {cs d x y : List Char} (hc : c ∉ cs)
    (h : c :: cs ++ x = d ++ (c :: cs ++ y)) :
    (d = [] ∧ x = y) ∨ ∃ p, d = c :: cs ++ p ∧ x = p ++ (c :: cs ++ y) := by
  cases d with
  | nil => exact .inl ⟨rfl, List.append_cancel_left h⟩
  | cons e d =>
      obtain ⟨rfl, hrest⟩ := List.cons.inj h
      rcases List.append_eq_append_iff.mp hrest with ⟨p, hd, hx⟩ | ⟨p, hcs, hx⟩
      · exact .inr ⟨p, congrArg _ hd, hx⟩
      · cases p with
        | nil =>
            rw [List.append_nil] at hcs
            exact .inr ⟨[], by rw [hcs, List.append_nil], hx.symm⟩
        | cons e p =>
            -- The second mark would begin within the first.
            obtain ⟨rfl, -⟩ := List.cons.inj hx
            have hmem : c ∈ cs := by
              rw [hcs]
              exact List.mem_append_right d List.mem_cons_self
            exact absurd hmem hc

section

variable {mark : String} {c : Char} {cs : List Char} (hmark : mark.toList = c :: cs) (hc : c ∉ cs)

include hmark hc

/-- Where the first parts are one behind the other, the second mark is the first one or comes
after it. -/
theorem recut_of_append {a b x y : String} {d : List Char} (hb : b.toList = a.toList ++ d)
    (h : mark.toList ++ x.toList = d ++ (mark.toList ++ y.toList)) :
    (a = b ∧ x = y) ∨ Recut mark a x b y := by
  rw [hmark] at h
  rcases append_mark_front hc h with ⟨rfl, hxy⟩ | ⟨p, rfl, hx⟩
  · rw [List.append_nil] at hb
    exact .inl ⟨String.toList_inj.mp hb.symm, String.toList_inj.mp hxy⟩
  · refine .inr ⟨String.ofList p, String.toList_inj.mp ?_, String.toList_inj.mp ?_⟩
    · rw [String.toList_append, String.toList_append, String.toList_ofList, hb, hmark,
        List.append_assoc]
    · rw [String.toList_append, String.toList_append, String.toList_ofList, hx, hmark,
        List.append_assoc]

/-- Two texts with the same mark in them are one when their parts are the same, or when one of
them is cut at a later mark than the other. -/
theorem append_mark_eq_iff {a b x y : String} :
    a ++ mark ++ x = b ++ mark ++ y ↔
      (a = b ∧ x = y) ∨ Recut mark a x b y ∨ Recut mark b y a x := by
  constructor
  · intro h
    have hlist := congrArg String.toList h
    simp only [String.toList_append, List.append_assoc] at hlist
    rcases List.append_eq_append_iff.mp hlist with ⟨d, hb, hx⟩ | ⟨d, ha, hy⟩
    · rcases recut_of_append hmark hc hb hx with hsame | hcut
      · exact .inl hsame
      · exact .inr (.inl hcut)
    · rcases recut_of_append hmark hc ha hy with ⟨rfl, rfl⟩ | hcut
      · exact .inl ⟨rfl, rfl⟩
      · exact .inr (.inr hcut)
  · rintro (⟨rfl, rfl⟩ | ⟨p, rfl, rfl⟩ | ⟨p, rfl, rfl⟩)
    · rfl
    · simp only [String.append_assoc]
    · simp only [String.append_assoc]

end

/-! ## Colons -/

theorem colon_mem (a b : String) : ':' ∈ (a ++ ":" ++ b).toList := by
  simp only [String.toList_append]
  exact List.mem_append_left _ (List.mem_append_right _ List.mem_cons_self)

/-- A text that is cut at its last colon can only be cut at an earlier one. -/
theorem append_colon_eq_iff {a b x y : String} (hx : ':' ∉ x.toList) :
    a ++ ":" ++ x = b ++ ":" ++ y ↔ (a = b ∧ x = y) ∨ Recut ":" b y a x := by
  rw [append_mark_eq_iff rfl List.not_mem_nil]
  refine or_congr_right (or_iff_right ?_)
  rintro ⟨p, -, rfl⟩
  exact hx (colon_mem p y)

theorem append_colon_inj {a b x y : String} (hx : ':' ∉ x.toList) (hy : ':' ∉ y.toList) :
    a ++ ":" ++ x = b ++ ":" ++ y ↔ a = b ∧ x = y := by
  rw [append_colon_eq_iff hx]
  refine or_iff_left ?_
  rintro ⟨p, -, rfl⟩
  exact hy (colon_mem p x)

/-! ## Marks of one character -/

theorem cut?_eq_some_iff {sep : Char} {cs x y : List Char} :
    cut? sep cs = some (x, y) ↔ cs = x ++ sep :: y ∧ sep ∉ x := by
  constructor
  · intro h
    have hsplit : before sep cs ++ cs.dropWhile (· ≠ sep) = cs := List.takeWhile_append_dropWhile
    have hbefore : sep ∉ before sep cs := fun hmem =>
      of_decide_eq_true (List.mem_takeWhile_imp (p := (· ≠ sep)) hmem) rfl
    rw [cut?] at h
    split at h
    · cases h
    · rename_i d rest hdrop
      obtain ⟨rfl, rfl⟩ := Prod.mk.inj (Option.some.inj h)
      have hhead := List.head?_dropWhile_not (· ≠ sep) cs
      rw [hdrop] at hhead
      obtain rfl : d = sep := by simpa using hhead
      exact ⟨by rw [← hdrop, hsplit], hbefore⟩
  · rintro ⟨rfl, hx⟩
    have hall : ∀ c ∈ x, decide (c ≠ sep) = true := fun c hc =>
      decide_eq_true fun heq => hx (heq ▸ hc)
    have hstop : ¬decide (sep ≠ sep) = true := fun h => of_decide_eq_true h rfl
    rw [cut?, before, List.dropWhile_append_of_pos hall, List.takeWhile_append_of_pos hall,
      List.dropWhile_cons_of_neg (p := (· ≠ sep)) hstop,
      List.takeWhile_cons_of_neg (p := (· ≠ sep)) hstop, List.append_nil]

theorem cut?_eq_none_iff {sep : Char} {cs : List Char} : cut? sep cs = none ↔ sep ∉ cs := by
  constructor
  · intro h hmem
    obtain ⟨x, y, rfl, hx⟩ := List.eq_append_cons_of_mem hmem
    rw [cut?_eq_some_iff.mpr ⟨rfl, hx⟩] at h
    cases h
  · intro h
    refine Option.eq_none_iff_forall_ne_some.mpr fun ⟨x, y⟩ hcut => h ?_
    rw [(cut?_eq_some_iff.mp hcut).1]
    exact List.mem_append_right x List.mem_cons_self

end Telemetry.Text
