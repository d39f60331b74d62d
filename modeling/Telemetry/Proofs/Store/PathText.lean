/-
The text of the place beside a path.

The steps of a text that count are its names and its `..`; slashes that are repeated
and steps that stay may be put in or left out (`PathText.moves`).  A text that ends in
a name has the moves of its parent and this name; the text beside it begins where it
begins and has the moves of the same parent and another name (`PathText.moves_beside`).
-/
import Telemetry.Store.PathText

namespace Telemetry

/-! ## Pieces -/

namespace Text

theorem splitChars_append (sep : Char) (a b : List Char) :
    splitChars sep (a ++ sep :: b) = splitChars sep a ++ splitChars sep b := by
  induction a with
  | nil => simp [splitChars]
  | cons c a ih =>
      rw [List.cons_append, splitChars, splitChars]
      by_cases hc : c = sep
      · rw [if_pos hc, if_pos hc, ih, List.cons_append]
      · rw [if_neg hc, if_neg hc, ih]
        cases hs : splitChars sep a with
        | nil => exact absurd hs (splitChars_ne_nil sep a)
        | cons piece more => rfl

theorem splitChars_of_notMem {sep : Char} {a : List Char} (ha : sep ∉ a) :
    splitChars sep a = [a] := by
  induction a with
  | nil => rfl
  | cons c a ih =>
      rw [List.mem_cons, not_or] at ha
      rw [splitChars, if_neg (Ne.symm ha.1), ih ha.2]

end Text

namespace PathText

/-! ## Moves -/

/-- The steps that characters name, without those that stay. -/
def movesOf (cs : List Char) : List String :=
  ((Text.splitChars '/' cs).map String.ofList).filter fun s => s ≠ "" ∧ s ≠ "."

def moves (s : String) : List String := movesOf s.toList

theorem moves_eq_filter (s : String) : moves s = (steps s).filter (· ≠ ".") := by
  rw [moves, movesOf, steps, Text.split, List.filter_filter]
  refine List.filter_congr fun x _ => ?_
  by_cases hx : x = "" <;> by_cases hd : x = "." <;> simp [hx, hd]

theorem movesOf_append (a b : List Char) : movesOf (a ++ '/' :: b) = movesOf a ++ movesOf b := by
  rw [movesOf, Text.splitChars_append, List.map_append, List.filter_append]
  rfl

@[simp] theorem movesOf_nil : movesOf [] = [] := by decide +kernel

@[simp] theorem movesOf_dot : movesOf ['.'] = [] := by decide +kernel

@[simp] theorem movesOf_slash (cs : List Char) : movesOf ('/' :: cs) = movesOf cs := by
  rw [← List.nil_append ('/' :: cs), movesOf_append, movesOf_nil, List.nil_append]

/-- Characters that make a name. -/
structure IsName (cs : List Char) : Prop where
  slash : '/' ∉ cs
  empty : cs ≠ []
  dot : cs ≠ ['.']

theorem movesOf_name {cs : List Char} (h : IsName cs) : movesOf cs = [String.ofList cs] := by
  have hempty : String.ofList cs ≠ "" := fun he => h.empty (String.ofList_eq_empty_iff.mp he)
  have hdot : String.ofList cs ≠ "." := fun he => h.dot (by
    rw [← String.toList_ofList (l := cs), he]
    rfl)
  rw [movesOf, Text.splitChars_of_notMem h.slash, List.map_singleton,
    List.filter_cons_of_pos (by simp [hempty, hdot]), List.filter_nil]

/-! ## The parent and the last step -/

theorem movesOf_trimmed (cs : List Char) : movesOf (trimmed cs).reverse = movesOf cs.reverse := by
  induction cs using trimmed.induct with
  | case1 cs ih =>
      rw [trimmed, ih, List.reverse_cons, movesOf_append, movesOf_nil, List.append_nil]
  | case2 => rw [trimmed]; decide +kernel
  | case3 cs ih =>
      have hsplit : ('.' :: '/' :: cs).reverse = cs.reverse ++ '/' :: ['.'] := by simp
      rw [trimmed, ih, hsplit, movesOf_append, movesOf_dot, List.append_nil]
  | case4 cs hslash hdot hstay => rw [trimmed] <;> assumption

theorem trimmed_suffix (cs : List Char) : trimmed cs <:+ cs := by
  induction cs using trimmed.induct with
  | case1 cs ih => rw [trimmed]; exact ih.trans (List.suffix_cons _ _)
  | case2 => rw [trimmed]; exact List.nil_suffix
  | case3 cs ih =>
      rw [trimmed]
      exact ih.trans ((List.suffix_cons _ _).trans (List.suffix_cons _ _))
  | case4 cs hslash hdot hstay =>
      have heq : trimmed cs = cs := by rw [trimmed] <;> assumption
      exact ⟨[], heq⟩

theorem isName_of_trimmed {cs : List Char} (h : trimmed cs ≠ []) :
    IsName ((trimmed cs).takeWhile (· ≠ '/')).reverse := by
  induction cs using trimmed.induct with
  | case1 cs ih => rw [trimmed] at h ⊢; exact ih h
  | case2 => exact absurd (by rw [trimmed]) h
  | case3 cs ih => rw [trimmed] at h ⊢; exact ih h
  | case4 cs hslash hdot hstay =>
      have heq : trimmed cs = cs := by rw [trimmed] <;> assumption
      rw [heq] at h ⊢
      have hall : ∀ c ∈ cs.takeWhile (· ≠ '/'), c ≠ '/' := fun c hc => by
        simpa using List.all_eq_true.mp List.all_takeWhile c hc
      obtain ⟨c, rest, rfl⟩ := List.exists_cons_of_ne_nil h
      have hc : c ≠ '/' := fun hc => hslash rest (by rw [hc])
      rw [List.takeWhile_cons_of_pos (by simpa using hc)] at hall ⊢
      refine ⟨fun hmem => hall _ (List.mem_reverse.mp hmem) rfl, by simp, fun hlone => ?_⟩
      -- A lone point at the end would have been trimmed.
      have hlone' : c :: rest.takeWhile (· ≠ '/') = ['.'] := by
        rw [← List.reverse_reverse (c :: _), hlone]
        rfl
      obtain ⟨rfl, hnone⟩ := List.cons.inj hlone'
      cases rest with
      | nil => exact hdot rfl
      | cons d rest =>
          by_cases hd : d = '/'
          · exact hstay rest (by rw [hd])
          · rw [List.takeWhile_cons_of_pos (by simpa using hd)] at hnone
            exact List.cons_ne_nil _ _ hnone

theorem movesOf_splitLead (cs : List Char) {b : List Char} (hb : b <+: (splitLead cs).2) :
    movesOf ((splitLead cs).1 ++ b) = movesOf b ∧
      (((splitLead cs).1 ++ b).head? = some '/' ↔ cs.head? = some '/') := by
  unfold splitLead at hb ⊢
  split at hb
  · exact ⟨movesOf_slash b, by simp⟩
  · obtain rfl := List.prefix_nil.mp hb
    exact ⟨by simp, by simp⟩
  · -- Behind a point at the beginning there is nothing or a slash.
    refine ⟨?_, by simp⟩
    rcases List.prefix_cons_iff.mp hb with rfl | ⟨b, rfl, _⟩
    · simp
    · exact (movesOf_append ['.'] b).trans (by simp)
  · rename_i hslash _ _
    refine ⟨rfl, ?_⟩
    obtain ⟨more, rfl⟩ := hb
    cases b with
    | nil =>
        refine iff_of_false (by simp) fun h => ?_
        obtain ⟨rest, hrest⟩ := List.head?_eq_some_iff.mp h
        exact hslash rest hrest
    | cons c b => rfl

theorem isAbsolute_iff {s : String} : isAbsolute s = true ↔ s.toList.head? = some '/' := by
  rw [isAbsolute, String.startsWith_string_iff, List.head?_eq_some_iff]
  exact ⟨fun ⟨t, ht⟩ => ⟨t, ht.symm⟩, fun ⟨t, ht⟩ => ⟨t, ht.symm⟩⟩

theorem endsInSlash_iff {s : String} : endsInSlash s = true ↔ ∃ cs, s.toList = cs ++ ['/'] := by
  change s.toSlice.endsWith "/" = true ↔ _
  rw [String.Slice.endsWith_string_iff, String.copy_toSlice]
  exact ⟨fun ⟨t, ht⟩ => ⟨t, ht.symm⟩, fun ⟨t, ht⟩ => ⟨t, ht.symm⟩⟩

theorem splitLead_append (cs : List Char) : (splitLead cs).1 ++ (splitLead cs).2 = cs := by
  fun_cases splitLead cs <;> rfl

theorem moves_eq_trimmed (s : String) :
    moves s = movesOf (trimmed (splitLead s.toList).2.reverse).reverse := by
  rw [movesOf_trimmed, List.reverse_reverse, ← (movesOf_splitLead _ List.prefix_rfl).1,
    splitLead_append, moves]

theorem movesOf_last {cs : List Char} (h : IsName (cs.takeWhile (· ≠ '/')).reverse) :
    movesOf cs.reverse = movesOf ((cs.dropWhile (· ≠ '/')).drop 1).reverse ++
      [String.ofList (cs.takeWhile (· ≠ '/')).reverse] := by
  have hcs : cs.takeWhile (· ≠ '/') ++ cs.dropWhile (· ≠ '/') = cs :=
    List.takeWhile_append_dropWhile
  have hhead := List.head?_dropWhile_not (fun c => decide (c ≠ '/')) cs
  rw [← movesOf_name h]
  cases hrest : cs.dropWhile (· ≠ '/') with
  | nil =>
      rw [hrest, List.append_nil] at hcs
      rw [hcs]
      simp
  | cons d rest =>
      rw [hrest] at hhead hcs
      obtain rfl : d = '/' := by simpa using hhead
      have hreverse : cs.reverse = rest.reverse ++ '/' :: (cs.takeWhile (· ≠ '/')).reverse :=
        calc cs.reverse = (cs.takeWhile (· ≠ '/') ++ '/' :: rest).reverse := by rw [hcs]
          _ = rest.reverse ++ '/' :: (cs.takeWhile (· ≠ '/')).reverse := by simp
      rw [hreverse, movesOf_append, List.drop_one, List.tail_cons]

/-- A text with a last step has the moves of its parent and this step, and begins as its
parent does. -/
theorem moves_of_cut {s above name : String} (h : cut s = (above, some name)) :
    moves s = moves above ++ [name] ∧ IsName name.toList ∧
      (isAbsolute above = true ↔ isAbsolute s = true) := by
  have hmoves := moves_eq_trimmed s
  have hsuffix := trimmed_suffix (splitLead s.toList).2.reverse
  simp only [cut] at h
  split at h
  · cases h
  · rename_i hne
    have hname := isName_of_trimmed hne
    generalize trimmed (splitLead s.toList).2.reverse = cs at h hmoves hsuffix hname
    obtain ⟨rfl, hname'⟩ := Prod.mk.inj h
    obtain rfl := Option.some.inj hname'
    have habove : (trimmed ((cs.dropWhile (· ≠ '/')).drop 1)).reverse <+:
        (splitLead s.toList).2 := by
      refine List.reverse_suffix.mp ?_
      rw [List.reverse_reverse]
      exact (trimmed_suffix _).trans
        ((List.drop_suffix _ _).trans ((List.dropWhile_suffix _).trans hsuffix))
    obtain ⟨hskip, hbegin⟩ := movesOf_splitLead s.toList habove
    rw [isAbsolute_iff, isAbsolute_iff, hmoves, moves, String.toList_ofList, String.toList_ofList,
      hskip, movesOf_trimmed]
    exact ⟨movesOf_last hname, hname, hbegin⟩

/-- A step that is put behind a text comes after its moves. -/
theorem moves_push (s step : String) : moves (push s step) = moves s ++ moves step := by
  rw [push]
  split
  · rename_i h
    rcases h with rfl | h
    · simp [moves]
    · obtain ⟨cs, hcs⟩ := endsInSlash_iff.mp h
      rw [moves, moves, String.toList_append, hcs, List.append_assoc, List.singleton_append,
        movesOf_append, movesOf_append, movesOf_nil, List.append_nil, moves]
  · rw [moves, String.toList_append, String.toList_append, List.append_assoc]
    exact movesOf_append s.toList step.toList

theorem isAbsolute_push {s step : String} (h : step.toList.head? ≠ some '/') :
    isAbsolute (push s step) = true ↔ isAbsolute s = true := by
  rw [isAbsolute_iff, isAbsolute_iff, push]
  by_cases hs : s = ""
  · subst hs
    simp [h]
  · have hne : s.toList ≠ [] := fun he => hs (String.toList_eq_nil_iff.mp he)
    obtain ⟨c, cs, hcs⟩ := List.exists_cons_of_ne_nil hne
    split <;> simp [hcs]

/-! ## Beside a text -/

theorem moves_tmp {name : String} (h : IsName name.toList) :
    moves (name ++ ".tmp") = [name ++ ".tmp"] ∧ (name ++ ".tmp").toList.head? ≠ some '/' := by
  have hchars : (name ++ ".tmp").toList = name.toList ++ ['.', 't', 'm', 'p'] :=
    String.toList_append
  obtain ⟨c, cs, hcs⟩ := List.exists_cons_of_ne_nil h.empty
  have htmp : IsName (name ++ ".tmp").toList := by
    rw [hchars]
    refine ⟨?_, by simp, ?_⟩
    · simpa using h.slash
    · rw [hcs]
      simp
  refine ⟨?_, ?_⟩
  · rw [moves, movesOf_name htmp, String.ofList_toList]
  · have hc : c ≠ '/' := fun hc => h.slash (by rw [hcs, hc]; exact List.mem_cons_self)
    rw [hchars, hcs]
    simpa using hc

/-- The text beside another begins as that one does, and its last move is another one, or one
more. -/
theorem moves_beside (s : String) :
    (isAbsolute (beside s) = true ↔ isAbsolute s = true) ∧
      ((∃ ms name, name ≠ ".." ∧ moves s = ms ++ [name] ∧
          moves (beside s) = ms ++ [name ++ ".tmp"]) ∨
        moves (beside s) = moves s ++ [".tmp"]) := by
  rw [beside]
  cases hname : name? s with
  | none =>
      have htmp : moves ".tmp" = [".tmp"] := by decide +kernel
      refine ⟨isAbsolute_push (by decide +kernel), .inr ?_⟩
      rw [moves_push, htmp]
  | some name =>
      obtain ⟨hcut, hback⟩ := Option.filter_eq_some_iff.mp hname
      have hsplit : cut s = (parent s, some name) := Prod.ext rfl hcut
      obtain ⟨hmoves, his, hbegin⟩ := moves_of_cut hsplit
      obtain ⟨htmp, hhead⟩ := moves_tmp his
      refine ⟨(isAbsolute_push hhead).trans hbegin, .inl ⟨moves (parent s), name, ?_, hmoves, ?_⟩⟩
      · simpa using hback
      · simp only [moves_push, htmp]

end PathText

end Telemetry
