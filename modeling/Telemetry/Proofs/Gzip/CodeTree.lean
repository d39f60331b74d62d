/-
Words lead to their symbols.

The tree of a code is built from the longest words upwards, and the words are numbered from the
shortest ones downwards.  Both go by the same order: the trees of a level are the symbols whose
words end there and then the pairs of the next level, and the words of a length follow those that
are twice the words before them (`CodeLengths.firstWord`).  So the number of a tree in its level is
told by the word that leads to it (`CodeTree.under_level`), and what is read of a word is its
symbol (`CodeTree.read_word`).

The numbers of words would run over if there were more than two trees on the first level.  There
are not, as the words of a code fill its tree at most.
-/
import Mathlib.Algebra.GroupWithZero.Nat
import Mathlib.Algebra.Order.BigOperators.Group.List
import Mathlib.Algebra.Order.Group.Nat
import Telemetry.Proofs.Gzip.Bits

namespace Telemetry.Gzip

open CodeLengths (word firstWord words wordsFrom)

namespace CodeTree

/-! ## Subtrees -/

/-- The subtree that a word leads to. -/
def under : CodeTree → List Bool → CodeTree
  | tree, [] => tree
  | branch _ one, true :: rest => one.under rest
  | branch zero _, false :: rest => zero.under rest
  | _, _ => vacant

theorem under_vacant (bits : List Bool) : vacant.under bits = vacant := by
  cases bits with
  | nil => rfl
  | cons bit bits => cases bit <;> rfl

theorem under_symbol_cons (value : Nat) (bit : Bool) (bits : List Bool) :
    (symbol value).under (bit :: bits) = vacant := by
  cases bit <;> rfl

theorem under_append (tree : CodeTree) (bits more : List Bool) :
    tree.under (bits ++ more) = (tree.under bits).under more := by
  induction bits generalizing tree with
  | nil => rw [List.nil_append, under]
  | cons bit bits ih =>
      cases tree with
      | vacant => rw [under_vacant, under_vacant, under_vacant]
      | symbol value => rw [List.cons_append, under_symbol_cons, under_symbol_cons, under_vacant]
      | branch zero one =>
          cases bit with
          | false => exact ih zero
          | true => exact ih one

theorem read_of_under {tree : CodeTree} {bits : List Bool} {value : Nat} {s t : Bits}
    (h : tree.under bits = symbol value) (hgives : Bits.Gives bits s t) :
    tree.read s = .ok (value, t) := by
  induction bits generalizing tree s with
  | nil =>
      obtain rfl := hgives
      rw [under] at h
      rw [h, read]
  | cons bit bits ih =>
      obtain ⟨u, hnext, hrest⟩ := hgives
      cases tree with
      | vacant => cases (under_vacant _).symm.trans h
      | symbol other => cases (under_symbol_cons other bit bits).symm.trans h
      | branch zero one =>
          rw [read, hnext]
          cases bit with
          | false => exact ih h hrest
          | true => exact ih h hrest

theorem getElem?_pairs {trees : List CodeTree} {j : Nat} {tree : CodeTree}
    (h : trees[j]? = some tree) :
    ∃ pair, (pairs trees)[j / 2]? = some pair ∧ pair.under [decide (j % 2 = 1)] = tree := by
  induction trees using pairs.induct generalizing j with
  | case1 a b rest ih =>
      rcases j with _ | _ | j
      · obtain rfl : a = tree := Option.some.inj h
        exact ⟨branch a b, rfl, by simp [under]⟩
      · obtain rfl : b = tree := Option.some.inj h
        exact ⟨branch a b, rfl, by simp [under]⟩
      · obtain ⟨pair, hpair, hunder⟩ := ih (j := j) h
        refine ⟨pair, ?_, ?_⟩
        · rw [pairs, Nat.add_div_right j Nat.two_pos]
          exact hpair
        · have hparity : (j + 1 + 1) % 2 = j % 2 := Nat.add_mod_right j 2
          rw [hparity]
          exact hunder
  | case2 a =>
      cases j with
      | zero =>
          obtain rfl : a = tree := Option.some.inj h
          exact ⟨branch a vacant, rfl, by simp [under]⟩
      | succ j => cases h
  | case3 => cases h

theorem length_pairs (trees : List CodeTree) : (pairs trees).length = (trees.length + 1) / 2 := by
  induction trees using pairs.induct with
  | case1 a b rest ih =>
      rw [pairs, List.length_cons, ih]
      simp only [List.length_cons]
      omega
  | case2 a => simp [pairs]
  | case3 => simp [pairs]

/-! ## Symbols of a length -/

theorem length_symbolsOf (lengths : List Nat) (length : Nat) :
    (symbolsOf lengths length).length = lengths.countP (· = length) := by
  rw [symbolsOf]
  generalize 0 = first
  induction lengths generalizing first with
  | nil => rfl
  | cons l lengths ih =>
      rw [List.zipIdx_cons, List.filterMap_cons, List.countP_cons]
      by_cases h : l = length
      · simp only [h, if_true, List.length_cons, decide_true, ih]
      · simp only [h, if_false, decide_false, Bool.false_eq_true, ih, Nat.add_zero]

/-- The symbols of a length stand in their order: before one of them there are as many as there
are lengths like its own. -/
theorem getElem?_symbolsOf {lengths : List Nat} {i length : Nat} (h : lengths[i]? = some length) :
    (symbolsOf lengths length)[(lengths.take i).countP (· = length)]? = some (symbol i) := by
  have hfrom : ∀ first, ((lengths.zipIdx first).filterMap fun entry =>
      if entry.1 = length then some (symbol entry.2) else none)[(lengths.take i).countP (· = length)]? =
        some (symbol (first + i)) := by
    induction lengths generalizing i with
    | nil => cases h
    | cons l lengths ih =>
        intro first
        rw [List.zipIdx_cons, List.filterMap_cons]
        cases i with
        | zero =>
            obtain rfl := Option.some.inj h
            simp
        | succ i =>
            have hrest := ih (i := i) h (first + 1)
            rw [Nat.add_assoc, Nat.add_comm 1 i] at hrest
            rw [List.take_succ_cons, List.countP_cons]
            by_cases hl : l = length
            · simpa only [hl, if_true, decide_true, List.getElem?_cons_succ] using hrest
            · simpa only [hl, if_false, decide_false, Bool.false_eq_true, Nat.add_zero] using hrest
  have hzero := hfrom 0
  rw [Nat.zero_add] at hzero
  exact hzero

/-! ## How much of the tree is filled -/

/-- What a word of some length fills of the tree, if it is not too long; nothing if it is there. -/
def share (length : Nat) : Nat := if length = 0 then 0 else 2 ^ (maxLength - length)

theorem filled_eq (lengths : List Nat) : filled lengths = (lengths.map share).sum := by
  have hfrom : ∀ n, lengths.foldl (fun n l => if l = 0 then n else n + 1 <<< (maxLength - l)) n =
      n + (lengths.map share).sum := by
    induction lengths with
    | nil => exact fun n => rfl
    | cons l lengths ih =>
        intro n
        rw [List.foldl_cons, ih, List.map_cons, List.sum_cons, share, Nat.one_shiftLeft]
        split <;> omega
  rw [filled, hfrom, Nat.zero_add]

/-- What words fill that end on a level or below it. -/
def filledFrom (lengths : List Nat) (up : Nat) : Nat :=
  (lengths.map fun l => if maxLength - up ≤ l ∧ l ≤ maxLength then share l else 0).sum

theorem filledFrom_cons (l : Nat) (lengths : List Nat) (up : Nat) :
    filledFrom (l :: lengths) up =
      (if maxLength - up ≤ l ∧ l ≤ maxLength then share l else 0) + filledFrom lengths up := rfl

theorem filledFrom_zero (lengths : List Nat) :
    filledFrom lengths 0 = lengths.countP (· = maxLength) := by
  induction lengths with
  | nil => rfl
  | cons l lengths ih =>
      rw [filledFrom_cons, List.countP_cons, ih, Nat.add_comm]
      by_cases hl : l = maxLength
      · rw [hl]
        rfl
      · have hless : ¬(maxLength - 0 ≤ l ∧ l ≤ maxLength) := by omega
        simp only [hl, if_neg hless, decide_false, Bool.false_eq_true, if_false]

theorem filledFrom_succ (lengths : List Nat) {up : Nat} (hup : up + 1 < maxLength) :
    filledFrom lengths (up + 1) =
      lengths.countP (· = maxLength - (up + 1)) * 2 ^ (up + 1) + filledFrom lengths up := by
  induction lengths with
  | nil =>
      rw [List.countP_nil, Nat.zero_mul]
      rfl
  | cons l lengths ih =>
      rw [filledFrom_cons, filledFrom_cons, ih, List.countP_cons, Nat.add_mul]
      by_cases hl : l = maxLength - (up + 1)
      · have hends : maxLength - (up + 1) ≤ l ∧ l ≤ maxLength := by omega
        have hless : ¬(maxLength - up ≤ l ∧ l ≤ maxLength) := by omega
        have hshare : share l = 2 ^ (up + 1) := by
          rw [share, if_neg (by omega), show maxLength - l = up + 1 by omega]
        rw [if_pos hends, if_neg hless, hshare, if_pos (decide_eq_true hl)]
        omega
      · simp only [hl, decide_false, Bool.false_eq_true, if_false, Nat.zero_mul, Nat.add_zero]
        by_cases hmore : maxLength - up ≤ l ∧ l ≤ maxLength
        · rw [if_pos hmore, if_pos (by omega)]
          omega
        · rw [if_neg hmore, if_neg (by omega)]
          omega

theorem length_level_lt (lengths : List Nat) {up : Nat} (hup : up < maxLength) :
    (level lengths up).length * 2 ^ up < filledFrom lengths up + 2 ^ up := by
  induction up with
  | zero =>
      rw [level, length_symbolsOf, filledFrom_zero]
      omega
  | succ up ih =>
      have hless := ih (by omega)
      have hpairs : (level lengths up).length + 1 ≥ 2 * (((level lengths up).length + 1) / 2) := by
        omega
      have hmul : 2 * (((level lengths up).length + 1) / 2) * 2 ^ up ≤
          ((level lengths up).length + 1) * 2 ^ up := Nat.mul_le_mul_right _ hpairs
      rw [level, List.length_append, length_symbolsOf, length_pairs, filledFrom_succ lengths hup,
        Nat.add_mul, Nat.pow_succ']
      rw [Nat.add_mul, Nat.one_mul] at hmul
      rw [show ((level lengths up).length + 1) / 2 * (2 * 2 ^ up) =
        2 * (((level lengths up).length + 1) / 2) * 2 ^ up by
          rw [← Nat.mul_assoc, Nat.mul_comm _ 2]]
      omega

/-- Words that fill the tree at most begin in at most two ways. -/
theorem length_level_le {lengths : List Nat} (h : filled lengths ≤ 2 ^ maxLength) :
    (level lengths 14).length ≤ 2 := by
  have hfilled : filledFrom lengths 14 ≤ filled lengths := by
    rw [filled_eq, filledFrom]
    refine List.sum_le_sum fun l _ => ?_
    split
    · exact Nat.le_refl _
    · exact Nat.zero_le _
  have hless : (level lengths 14).length * 2 ^ 14 < filledFrom lengths 14 + 2 ^ 14 :=
    length_level_lt lengths (by decide)
  have hpow : 2 ^ maxLength = 2 * 2 ^ 14 := rfl
  by_contra hmany
  have hthree : 3 * 2 ^ 14 ≤ (level lengths 14).length * 2 ^ 14 :=
    Nat.mul_le_mul_right _ (by omega)
  omega

/-! ## Words -/

theorem word_succ (n x : Nat) : word (n + 1) x = word n (x / 2) ++ [decide (x % 2 = 1)] := by
  induction n with
  | zero => simp only [word, Nat.testBit_zero, List.nil_append]
  | succ n ih => rw [word, ih, word, Nat.testBit_succ, List.cons_append]

/-- The root of the tree that lengths make. -/
def root (lengths : List Nat) : CodeTree := (pairs (level lengths 14)).headD (branch vacant vacant)

theorem under_root {lengths : List Nat} {j : Nat} {tree : CodeTree}
    (hfew : (level lengths 14).length ≤ 2) (h : (level lengths 14)[j]? = some tree) :
    (root lengths).under [decide (j % 2 = 1)] = tree := by
  obtain ⟨pair, hpair, hunder⟩ := getElem?_pairs h
  have hj : j / 2 = 0 := by
    have := (List.getElem?_eq_some_iff.mp h).1
    omega
  rw [hj, ← List.head?_eq_getElem?] at hpair
  rw [root, List.headD_eq_head?_getD, hpair]
  exact hunder

/-- The trees of a level are led to by the words that follow the first one of their length. -/
theorem under_level {lengths : List Nat} (hfew : (level lengths 14).length ≤ 2) {k : Nat}
    (hk : k ≤ 14) {j : Nat} {tree : CodeTree} (h : (level lengths (14 - k))[j]? = some tree) :
    (root lengths).under (word (k + 1) (firstWord lengths (k + 1) + j)) = tree := by
  induction k generalizing j tree with
  | zero =>
      have hnone : lengths.countP (fun l => l = 0 ∧ l ≠ 0) = 0 := by
        simp
      have hfirst : firstWord lengths 1 = 0 := by
        rw [firstWord, hnone]
        rfl
      rw [Nat.zero_add, hfirst, Nat.zero_add, word_succ, word, List.nil_append]
      exact under_root hfew h
  | succ k ih =>
      obtain ⟨pair, hpair, hunder⟩ := getElem?_pairs h
      have hup : 14 - k = 14 - (k + 1) + 1 := by omega
      have hlength : maxLength - (14 - k) = k + 1 := by
        rw [maxLength]
        omega
      have hcount : lengths.countP (fun l => l = k + 1 ∧ l ≠ 0) =
          (symbolsOf lengths (k + 1)).length := by
        rw [length_symbolsOf]
        refine List.countP_congr fun l _ => ?_
        simp only [decide_eq_true_eq]
        omega
      have hlevel : (level lengths (14 - k))[(symbolsOf lengths (k + 1)).length + j / 2]? =
          some pair := by
        rw [hup, level, ← hup, hlength, List.getElem?_append_right (Nat.le_add_right _ _),
          Nat.add_sub_cancel_left]
        exact hpair
      have hword := ih (by omega) hlevel
      have hhalf : (2 * (firstWord lengths (k + 1) + (symbolsOf lengths (k + 1)).length) + j) / 2 =
          firstWord lengths (k + 1) + ((symbolsOf lengths (k + 1)).length + j / 2) := by
        omega
      have hbit : (2 * (firstWord lengths (k + 1) + (symbolsOf lengths (k + 1)).length) + j) % 2 =
          j % 2 := by
        omega
      rw [word_succ, firstWord, hcount, hhalf, hbit, under_append, hword, hunder]

theorem getElem?_wordsFrom {next : Array Nat} {lengths : List Nat} {i length : Nat}
    (h : lengths[i]? = some length) (hlength : length < next.size) :
    (wordsFrom next lengths)[i]? = some
      (word length (next[length] + (lengths.take i).countP (· = length))) := by
  induction lengths generalizing next i with
  | nil => cases h
  | cons l lengths ih =>
      rw [wordsFrom]
      cases i with
      | zero =>
          obtain rfl := Option.some.inj h
          rw [List.getElem?_cons_zero, Array.getElem?_eq_getElem hlength]
          rfl
      | succ i =>
          have hsize : length < (next.modify l (· + 1)).size := by
            rw [Array.size_modify]
            exact hlength
          rw [List.getElem?_cons_succ, ih (i := i) h hsize, Array.getElem_modify,
            List.take_succ_cons, List.countP_cons]
          congr 2
          by_cases hl : l = length
          · simp only [hl, if_true, decide_true]
            omega
          · simp only [hl, if_false, decide_false, Bool.false_eq_true, Nat.add_zero]

theorem getElem?_words {lengths : List Nat} {i length : Nat} (h : lengths[i]? = some length)
    (hlength : length ≤ maxLength) :
    (words lengths)[i]? = some
      (word length (firstWord lengths length + (lengths.take i).countP (· = length))) := by
  have hsize : length < ((List.range 16).map (firstWord lengths)).toArray.size := by
    rw [List.size_toArray, List.length_map, List.length_range]
    exact Nat.lt_succ_of_le hlength
  have hfirst : ((List.range 16).map (firstWord lengths)).toArray[length] =
      firstWord lengths length := by
    simp only [List.getElem_toArray, List.getElem_map, List.getElem_range]
  rw [words, List.getElem?_toArray, getElem?_wordsFrom h hsize, hfirst]

/-! ## Codes -/

theorem filled_le_of_isSingle {lengths : List Nat} (h : isSingle lengths = true) :
    filled lengths ≤ 2 ^ maxLength := by
  have hused : (lengths.map share).sum = ((lengths.filter (· ≠ 0)).map share).sum := by
    clear h
    induction lengths with
    | nil => rfl
    | cons l lengths ih =>
        rw [List.map_cons, List.sum_cons, List.filter_cons, ih]
        by_cases hl : l = 0
        · simp [hl, share]
        · simp [hl]
  rw [isSingle, Bool.or_eq_true, decide_eq_true_eq, decide_eq_true_eq] at h
  rw [filled_eq, hused]
  rcases h with h | h
  · rw [h]
    exact Nat.zero_le _
  · rw [h]
    decide

theorem ofLengths_eq_ok_iff {lengths : List Nat} {tree : CodeTree} :
    ofLengths lengths = .ok tree ↔
      (isComplete lengths = true ∨ isSingle lengths = true) ∧ root lengths = tree := by
  rw [ofLengths]
  by_cases h : (isComplete lengths || isSingle lengths) = true
  · rw [if_pos h]
    rw [Bool.or_eq_true] at h
    constructor
    · intro hok
      exact ⟨h, Except.ok.inj hok⟩
    · rintro ⟨-, rfl⟩
      rfl
  · rw [if_neg h]
    rw [Bool.or_eq_true] at h
    constructor
    · intro hok
      cases hok
    · rintro ⟨hcode, -⟩
      exact absurd hcode h

/-- What is read of the word of a symbol is this symbol. -/
theorem read_word {lengths : List Nat} {tree : CodeTree} (h : ofLengths lengths = .ok tree)
    {i length : Nat} (hi : lengths[i]? = some length) (hne : length ≠ 0)
    (hle : length ≤ maxLength) {s t : Bits} (hgives : Bits.Gives (wordOf (words lengths) i) s t) :
    tree.read s = .ok (i, t) := by
  obtain ⟨hcode, rfl⟩ := ofLengths_eq_ok_iff.mp h
  have hfilled : filled lengths ≤ 2 ^ maxLength := by
    rcases hcode with hcomplete | hsingle
    · rw [isComplete, decide_eq_true_eq, Nat.one_shiftLeft] at hcomplete
      exact Nat.le_of_eq hcomplete
    · exact filled_le_of_isSingle hsingle
  have hfew := length_level_le hfilled
  obtain ⟨k, rfl⟩ := Nat.exists_eq_succ_of_ne_zero hne
  have hk : k ≤ 14 := Nat.le_of_succ_le_succ hle
  have hmember := getElem?_symbolsOf hi
  have hlevel : (level lengths (14 - k))[(lengths.take i).countP (· = k + 1)]? =
      some (symbol i) := by
    cases hup : 14 - k with
    | zero =>
        have hlast : k + 1 = maxLength := by
          rw [maxLength]
          omega
        rw [level, ← hlast]
        exact hmember
    | succ up =>
        have hlength : maxLength - (up + 1) = k + 1 := by
          rw [maxLength]
          omega
        rw [level, hlength, List.getElem?_append_left (List.getElem?_eq_some_iff.mp hmember).1]
        exact hmember
  rw [wordOf, getElem?_words hi hle] at hgives
  exact read_of_under (under_level hfew hk hlevel) hgives

/-! ## Symbols without words behind the others -/

variable (lengths : List Nat) (n : Nat)

theorem filled_append_zeros : filled (lengths ++ List.replicate n 0) = filled lengths := by
  simp [filled_eq, share]

theorem symbolsOf_append_zeros {length : Nat} (h : length ≠ 0) :
    symbolsOf (lengths ++ List.replicate n 0) length = symbolsOf lengths length := by
  have hzeros : ∀ entry ∈ (List.replicate n 0).zipIdx (0 + lengths.length),
      (fun (entry : Nat × Nat) =>
        if entry.1 = length then some (symbol entry.2) else none) entry = none := by
    intro entry hentry
    have hmem := (List.mem_replicate.mp (List.fst_mem_of_mem_zipIdx hentry)).2
    simp only [hmem, if_neg (Ne.symm h)]
  rw [symbolsOf, symbolsOf, List.zipIdx_append, List.filterMap_append,
    List.filterMap_eq_nil_iff.mpr hzeros, List.append_nil]

theorem level_append_zeros {up : Nat} (h : up < maxLength) :
    level (lengths ++ List.replicate n 0) up = level lengths up := by
  induction up with
  | zero => exact symbolsOf_append_zeros lengths n (by decide)
  | succ up ih => rw [level, level, symbolsOf_append_zeros lengths n (by omega), ih (by omega)]

/-- Symbols without words behind the others do not change a code. -/
theorem ofLengths_append_zeros :
    ofLengths (lengths ++ List.replicate n 0) = ofLengths lengths := by
  have hcomplete : isComplete (lengths ++ List.replicate n 0) = isComplete lengths := by
    rw [isComplete, isComplete, filled_append_zeros]
  have hsingle : isSingle (lengths ++ List.replicate n 0) = isSingle lengths := by
    simp [isSingle]
  rw [ofLengths, ofLengths, hcomplete, hsingle,
    level_append_zeros lengths n (show maxLength - 1 < maxLength by decide)]

end CodeTree

end Telemetry.Gzip
