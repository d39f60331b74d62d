/-
Codes are read as they are written.

The two codes of a block are written as their word lengths, one behind the other, and these under
a third code, of symbols for lengths and for repetitions.  Items of such symbols write lengths
behind others (`Gzip.Writes`), and runs of equal lengths become items that write just these runs
(`Gzip.writes_lengthItems`).  Every item writes a length at least, so reading them does not run out
of steps (`Gzip.wordLengths_of_writes`).

The third code is only usable if it has two words or more.  It has: there are more than 256 lengths,
and not all of them are zero, so no single symbol writes them all (`Gzip.exists_other_symbol`).
Zeros at the end of a code are left out; they change nothing (`CodeTree.ofLengths_append_zeros`).
-/
import Mathlib.Data.List.TakeWhile
import Telemetry.Proofs.Gzip.CodeLengths
import Telemetry.Proofs.Gzip.Items

namespace Telemetry.Gzip

open CodeLengths (words)

/-! ## Zeros at the end -/

/-- Only zeros are left out. -/
theorem trimZeros_append (least : Nat) (ns : List Nat) :
    ∃ k, ns = trimZeros least ns ++ List.replicate k 0 := by
  have hsplit : ns = (ns.reverse.dropWhile (· = 0)).reverse ++
      (ns.reverse.takeWhile (· = 0)).reverse := by
    rw [← List.reverse_append, List.takeWhile_append_dropWhile, List.reverse_reverse]
  have hzeros : ∀ n ∈ ns.drop (ns.reverse.dropWhile (· = 0)).length, n = 0 := by
    intro n hn
    have hdrop : ns.drop (ns.reverse.dropWhile (· = 0)).length =
        (ns.reverse.takeWhile (· = 0)).reverse :=
      (congrArg (List.drop _) hsplit).trans (List.drop_left' List.length_reverse)
    rw [hdrop, List.mem_reverse] at hn
    have hzero := List.mem_takeWhile_imp hn
    rwa [decide_eq_true_eq] at hzero
  have hmore : ∀ n ∈ ns.drop (max least (ns.reverse.dropWhile (· = 0)).length), n = 0 :=
    fun n hn => hzeros n (List.drop_subset_drop_left _ (Nat.le_max_right _ _) hn)
  refine ⟨(ns.drop (max least (ns.reverse.dropWhile (· = 0)).length)).length, ?_⟩
  rw [← List.eq_replicate_of_mem hmore, trimZeros, List.take_append_drop]

theorem mem_of_mem_trimZeros {least n : Nat} {ns : List Nat} (h : n ∈ trimZeros least ns) :
    n ∈ ns := List.mem_of_mem_take h

theorem mem_trimZeros {least n : Nat} {ns : List Nat} (h : n ∈ ns) (hne : n ≠ 0) :
    n ∈ trimZeros least ns := by
  obtain ⟨k, hk⟩ := trimZeros_append least ns
  rw [hk, List.mem_append] at h
  exact h.resolve_right fun hzero => hne (List.mem_replicate.mp hzero).2

/-- A code does not change when its last zeros are left out. -/
theorem ofLengths_trimZeros (least : Nat) (lengths : List Nat) :
    CodeTree.ofLengths (trimZeros least lengths) = CodeTree.ofLengths lengths := by
  obtain ⟨k, hk⟩ := trimZeros_append least lengths
  conv_rhs => rw [hk, CodeTree.ofLengths_append_zeros]

theorem length_trimZeros_le (least : Nat) (ns : List Nat) :
    (trimZeros least ns).length ≤ ns.length := by
  rw [trimZeros]
  exact List.length_take_le' _ _

theorem le_length_trimZeros {least : Nat} {ns : List Nat} (h : least ≤ ns.length) :
    least ≤ (trimZeros least ns).length := by
  rw [trimZeros, List.length_take]
  exact Nat.le_min.mpr ⟨Nat.le_max_left _ _, h⟩

/-! ## Counting symbols -/

theorem length_tally (size : Nat) (symbols : List Nat) : (tally size symbols).length = size := by
  have hfold : ∀ uses : Array Nat,
      (symbols.foldl (fun (uses : Array Nat) symbol => uses.modify symbol (· + 1)) uses).size =
        uses.size := by
    induction symbols with
    | nil => exact fun _ => rfl
    | cons symbol symbols ih =>
        intro uses
        rw [List.foldl_cons, ih, Array.size_modify]
  rw [tally, Array.length_toList, hfold, Array.size_replicate]

/-- A symbol that is used is counted. -/
theorem exists_tally {size symbol : Nat} {symbols : List Nat} (hmem : symbol ∈ symbols)
    (hlt : symbol < size) : ∃ n, (tally size symbols)[symbol]? = some n ∧ n ≠ 0 := by
  have hfold : ∀ uses : Array Nat, symbol < uses.size →
      (symbol ∈ symbols ∨ uses[symbol]? ≠ some 0) →
      (symbols.foldl (fun (uses : Array Nat) symbol => uses.modify symbol (· + 1))
        uses)[symbol]? ≠ some 0 := by
    clear hmem
    induction symbols with
    | nil => exact fun _ _ hused => hused.resolve_left List.not_mem_nil
    | cons other symbols ih =>
        intro uses hsize hused
        rw [List.foldl_cons]
        refine ih _ (by rwa [Array.size_modify]) ?_
        by_cases hother : other = symbol
        · right
          subst hother
          rw [Array.getElem?_modify, if_pos rfl, Array.getElem?_eq_getElem hsize, Option.map_some]
          exact fun hzero => Nat.succ_ne_zero _ (Option.some.inj hzero)
        · rcases hused with hmem | hne
          · exact .inl ((List.mem_cons.mp hmem).resolve_left (Ne.symm hother))
          · right
            rwa [Array.getElem?_modify, if_neg hother]
  have hne := hfold (Array.replicate size 0) (by rwa [Array.size_replicate]) (.inl hmem)
  have hsome : symbol < (tally size symbols).length := by rwa [length_tally]
  have hget := List.getElem?_eq_getElem hsome
  refine ⟨_, hget, fun hzero => hne ?_⟩
  rwa [hzero, tally, Array.getElem?_toList] at hget

theorem two_le_length_rarestFirst {size a b : Nat} {symbols : List Nat} (ha : a ∈ symbols)
    (hb : b ∈ symbols) (hsize : ∀ symbol ∈ symbols, symbol < size) (hne : a ≠ b) :
    2 ≤ (CodeLengths.rarestFirst (tally size symbols)).length := by
  obtain ⟨m, hm⟩ := exists_tally ha (hsize a ha)
  obtain ⟨n, hn⟩ := exists_tally hb (hsize b hb)
  have hma := CodeLengths.mem_rarestFirst.mpr hm
  have hnb := CodeLengths.mem_rarestFirst.mpr hn
  by_contra hfew
  cases hlist : CodeLengths.rarestFirst (tally size symbols) with
  | nil =>
      rw [hlist] at hma
      cases hma
  | cons entry entries =>
      rw [hlist, List.length_cons] at hfew
      obtain rfl : entries = [] := List.length_eq_zero_iff.mp (by omega)
      rw [hlist, List.mem_singleton] at hma hnb
      exact hne (congrArg Prod.snd (hma.trans hnb.symm))

/-- A code that is made for some symbols can be used, and names all of them. -/
structure CodeFor (limit size : Nat) (symbols lengths : List Nat) : Prop where
  length : lengths.length = size
  le : ∀ l ∈ lengths, l ≤ limit
  named : ∀ symbol ∈ symbols, symbol < size → Named lengths symbol
  complete : ∀ a ∈ symbols, ∀ b ∈ symbols, a ≠ b → (∀ symbol ∈ symbols, symbol < size) →
    CodeTree.isComplete lengths = true
  usable : ∃ tree, CodeTree.ofLengths lengths = .ok tree

theorem codeFor_ofUses {limit size : Nat} (symbols : List Nat) (hlimit : limit ≠ 0)
    (hle : limit ≤ CodeTree.maxLength) (hsize : size ≤ 2 ^ limit) :
    CodeFor limit size symbols (CodeLengths.ofUses limit (tally size symbols)) := by
  have hlength := length_tally size symbols
  have hroom : (tally size symbols).length ≤ 2 ^ limit := by rwa [hlength]
  obtain ⟨hsame, hmost, hused, htwo, hcode⟩ := CodeLengths.ofUses_spec hlimit hle hroom
  refine ⟨hsame.trans hlength, hmost, fun symbol hmem hlt => ?_, fun a ha b hb hne hall => ?_, ?_⟩
  · obtain ⟨n, hn, hne⟩ := exists_tally hmem hlt
    obtain ⟨l, hl, hl0⟩ := hused symbol n hn hne
    exact ⟨l, hl, hl0, Nat.le_trans (hmost l (List.mem_of_getElem? hl)) hle⟩
  · exact htwo (two_le_length_rarestFirst ha hb hall hne)
  · exact ⟨_, CodeTree.ofLengths_eq_ok_iff.mpr ⟨hcode, rfl⟩⟩

/-! ## Runs -/

/-- What runs stand for. -/
def expanded (runs : List (Nat × Nat)) : List Nat :=
  runs.flatMap fun (x, n) => List.replicate n x

theorem expanded_runs (ns : List Nat) : expanded (runs ns) = ns := by
  induction ns with
  | nil => rfl
  | cons x ns ih =>
      rw [runs]
      cases hruns : runs ns with
      | nil =>
          rw [hruns] at ih
          rw [← ih]
          rfl
      | cons run more =>
          obtain ⟨y, n⟩ := run
          rw [hruns] at ih
          dsimp only
          split
          · rename_i heq
            subst heq
            rw [← ih]
            rfl
          · rw [← ih]
            rfl

theorem ne_zero_of_mem_runs {ns : List Nat} {x n : Nat} (h : (x, n) ∈ runs ns) : n ≠ 0 := by
  induction ns generalizing x n with
  | nil => exact absurd h List.not_mem_nil
  | cons y ns ih =>
      rw [runs] at h
      split at h
      · rename_i z m more hruns
        rw [hruns] at ih
        split at h
        · rcases List.mem_cons.mp h with heq | hmem
          · cases heq
            exact Nat.succ_ne_zero m
          · exact ih (List.mem_cons_of_mem _ hmem)
        · rcases List.mem_cons.mp h with heq | hmem
          · cases heq
            exact Nat.one_ne_zero
          · exact ih hmem
      · cases List.mem_singleton.mp h
        exact Nat.one_ne_zero

theorem runs_replicate (n x : Nat) : runs (List.replicate (n + 1) x) = [(x, n + 1)] := by
  induction n with
  | zero => rfl
  | succ n ih =>
      rw [List.replicate_succ, runs, ih]
      exact if_pos rfl

/-! ## Items that write lengths -/

/-- Items write lengths behind others, the latest first. -/
inductive Writes : List LengthItem → List Nat → List Nat → Prop
  | nil {done : List Nat} : Writes [] done done
  | length {l : Nat} {items : List LengthItem} {done all : List Nat} : l < 16 →
      Writes items (l :: done) all → Writes (⟨l, 0, 0⟩ :: items) done all
  | again {n latest : Nat} {items : List LengthItem} {done all : List Nat} : n < 4 →
      Writes items (List.replicate (3 + n) latest ++ latest :: done) all →
      Writes (⟨16, 2, n⟩ :: items) (latest :: done) all
  | zeros {n : Nat} {items : List LengthItem} {done all : List Nat} : n < 8 →
      Writes items (List.replicate (3 + n) 0 ++ done) all →
      Writes (⟨17, 3, n⟩ :: items) done all
  | moreZeros {n : Nat} {items : List LengthItem} {done all : List Nat} : n < 128 →
      Writes items (List.replicate (11 + n) 0 ++ done) all →
      Writes (⟨18, 7, n⟩ :: items) done all

namespace Writes

variable {items more : List LengthItem} {done mid all : List Nat}

theorem append (h : Writes items done mid) (h' : Writes more mid all) :
    Writes (items ++ more) done all := by
  induction h with
  | nil => exact h'
  | length hl _ ih => exact .length hl (ih h')
  | again hn _ ih => exact .again hn (ih h')
  | zeros hn _ ih => exact .zeros hn (ih h')
  | moreZeros hn _ ih => exact .moreZeros hn (ih h')

/-- Every item writes a length at least. -/
theorem length_le (h : Writes items done all) : done.length + items.length ≤ all.length := by
  induction h with
  | nil => exact Nat.le_refl _
  | length _ _ ih | again _ _ ih | zeros _ _ ih | moreZeros _ _ ih =>
      simp only [List.length_append, List.length_replicate, List.length_cons] at ih ⊢
      omega

theorem length_lt {item : LengthItem} (h : Writes (item :: items) done all) :
    done.length < all.length := by
  have hle := h.length_le
  rw [List.length_cons] at hle
  omega

theorem symbol_lt (h : Writes items done all) {item : LengthItem} (hitem : item ∈ items) :
    item.symbol < 19 := by
  induction h with
  | nil => exact absurd hitem List.not_mem_nil
  | length hl _ ih =>
      rcases List.mem_cons.mp hitem with rfl | hmem
      · exact Nat.lt_trans hl (by decide)
      · exact ih hmem
  | again _ _ ih | zeros _ _ ih | moreZeros _ _ ih =>
      rcases List.mem_cons.mp hitem with rfl | hmem
      · exact of_decide_eq_true rfl
      · exact ih hmem

theorem replicate_lengths {l : Nat} (hl : l < 16) (n : Nat) (done : List Nat) :
    Writes (List.replicate n ⟨l, 0, 0⟩) done (List.replicate n l ++ done) := by
  induction n generalizing done with
  | zero => exact .nil
  | succ n ih =>
      rw [List.replicate_succ, List.replicate_succ', List.append_assoc]
      exact .length hl (ih (l :: done))

end Writes

theorem writes_zeroItems (n : Nat) (done : List Nat) :
    Writes (zeroItems n) done (List.replicate n 0 ++ done) := by
  have hmany : ∀ (m : Nat) (done : List Nat), Writes (List.replicate m ⟨18, 7, 127⟩) done
      (List.replicate (138 * m) 0 ++ done) := by
    intro m
    induction m with
    | zero => exact fun _ => .nil
    | succ m ih =>
        intro done
        rw [List.replicate_succ, Nat.mul_succ, List.replicate_add, List.append_assoc]
        exact .moreZeros (by decide) (ih _)
  have hleft : ∀ (m : Nat) (done : List Nat), m < 138 →
      Writes (if m < 3 then List.replicate m ⟨0, 0, 0⟩
        else if m ≤ 10 then [⟨17, 3, m - 3⟩] else [⟨18, 7, m - 11⟩]) done
        (List.replicate m 0 ++ done) := by
    intro m done hm
    split
    · exact .replicate_lengths (by decide) m done
    · split
      · refine .zeros (by omega) ?_
        rw [show 3 + (m - 3) = m by omega]
        exact .nil
      · refine .moreZeros (by omega) ?_
        rw [show 11 + (m - 11) = m by omega]
        exact .nil
  have hsplit : List.replicate n 0 ++ done =
      List.replicate (n % 138) 0 ++ (List.replicate (138 * (n / 138)) 0 ++ done) := by
    rw [← List.append_assoc, ← List.replicate_add, Nat.mod_add_div]
  rw [hsplit, zeroItems]
  exact (hmany _ done).append (hleft _ _ (Nat.mod_lt n (by decide)))

theorem writes_repeatItems {l n : Nat} (hl : l < 16) (hn : n ≠ 0) (done : List Nat) :
    Writes (repeatItems l n) done (List.replicate n l ++ done) := by
  have hmany : ∀ (m : Nat) (done : List Nat), Writes (List.replicate m ⟨16, 2, 3⟩) (l :: done)
      (List.replicate (6 * m) l ++ l :: done) := by
    intro m
    induction m with
    | zero => exact fun _ => .nil
    | succ m ih =>
        intro done
        have hnext := ih (List.replicate 6 l ++ done)
        rw [List.replicate_succ, Nat.mul_succ, List.replicate_add, List.append_assoc]
        exact .again (by decide) hnext
  have hleft : ∀ (m : Nat) (done : List Nat), m < 6 →
      Writes (if m < 3 then List.replicate m ⟨l, 0, 0⟩ else [⟨16, 2, m - 3⟩]) (l :: done)
        (List.replicate m l ++ l :: done) := by
    intro m done hm
    split
    · exact .replicate_lengths hl m _
    · refine .again (by omega) ?_
      rw [show 3 + (m - 3) = m by omega]
      exact .nil
  have hsplit : List.replicate n l ++ done =
      List.replicate ((n - 1) % 6) l ++ (List.replicate (6 * ((n - 1) / 6)) l ++ l :: done) := by
    have hcount : n = (n - 1) % 6 + 6 * ((n - 1) / 6) + 1 := by omega
    conv_lhs => rw [hcount, List.replicate_succ', List.replicate_add]
    simp only [List.append_assoc, List.singleton_append]
  have htail : List.replicate (6 * ((n - 1) / 6)) l ++ l :: done =
      l :: (List.replicate (6 * ((n - 1) / 6)) l ++ done) := by
    rw [← List.singleton_append, ← List.append_assoc, ← List.replicate_succ', List.replicate_succ,
      List.cons_append]
  rw [hsplit, repeatItems, List.cons_append]
  refine .length hl ((hmany _ done).append ?_)
  rw [htail]
  exact hleft _ _ (Nat.mod_lt _ (by decide))

/-- Lengths are written in their order. -/
theorem writes_lengthItems {lengths : List Nat} (h : ∀ l ∈ lengths, l < 16) (done : List Nat) :
    Writes (lengthItems lengths) done (lengths.reverse ++ done) := by
  have hruns : ∀ (rs : List (Nat × Nat)) (done : List Nat),
      (∀ r ∈ rs, r.1 < 16 ∧ r.2 ≠ 0) →
      Writes (rs.flatMap fun (length, n) => if length = 0 then zeroItems n else repeatItems length n)
        done ((expanded rs).reverse ++ done) := by
    intro rs
    induction rs with
    | nil => exact fun _ _ => .nil
    | cons r rs ih =>
        intro done hrs
        obtain ⟨l, n⟩ := r
        obtain ⟨hl, hn⟩ := hrs (l, n) List.mem_cons_self
        have hrest := ih (List.replicate n l ++ done) fun r hr => hrs r (List.mem_cons_of_mem _ hr)
        have hexpanded : (expanded ((l, n) :: rs)).reverse ++ done =
            (expanded rs).reverse ++ (List.replicate n l ++ done) := by
          rw [expanded, List.flatMap_cons, List.reverse_append, List.reverse_replicate,
            List.append_assoc, ← expanded]
        rw [hexpanded, List.flatMap_cons]
        refine Writes.append ?_ hrest
        change Writes (if l = 0 then zeroItems n else repeatItems l n) done _
        split
        · rename_i hzero
          subst hzero
          exact writes_zeroItems n done
        · exact writes_repeatItems hl hn done
  have hall : ∀ r ∈ runs lengths, r.1 < 16 ∧ r.2 ≠ 0 := by
    intro r hr
    have hn : r.2 ≠ 0 := ne_zero_of_mem_runs hr
    refine ⟨h r.1 ?_, hn⟩
    rw [← expanded_runs lengths, expanded, List.mem_flatMap]
    exact ⟨r, hr, List.mem_replicate.mpr ⟨hn, rfl⟩⟩
  have hwrites := hruns (runs lengths) done hall
  rwa [expanded_runs] at hwrites

/-! ## Reading lengths -/

section

variable {short : List Nat} {tree : CodeTree}

/-- The bits of a symbol and of the number that is added to it, with a step to read them in. -/
theorem exists_of_gives_lengthItem (htree : CodeTree.ofLengths short = .ok tree)
    {item : LengthItem} {items : List LengthItem}
    (hnamed : ∀ i ∈ item :: items, Named short i.symbol) (hvalue : item.value < 2 ^ item.bits)
    {fuel : Nat} (hfuel : (item :: items).length ≤ fuel) {s t : Bits}
    (hgives : Bits.Gives ((item :: items).flatMap fun item =>
      wordOf (words short) item.symbol ++ lowBits item.bits item.value) s t) :
    ∃ steps u v, fuel = steps + 1 ∧ items.length ≤ steps ∧ (∀ i ∈ items, Named short i.symbol) ∧
      tree.read s = .ok (item.symbol, u) ∧ Bits.number item.bits u = .ok (item.value, v) ∧
      Bits.Gives (items.flatMap fun item =>
        wordOf (words short) item.symbol ++ lowBits item.bits item.value) v t := by
  rw [List.flatMap_cons, List.append_assoc] at hgives
  obtain ⟨u, hword, hrest⟩ := Bits.gives_append.mp hgives
  obtain ⟨v, hnumber, hrest⟩ := Bits.gives_append.mp hrest
  obtain ⟨steps, rfl⟩ := Nat.exists_eq_add_of_le' (Nat.le_trans (Nat.le_add_left 1 _) hfuel)
  exact ⟨steps, u, v, rfl, Nat.le_of_succ_le_succ hfuel,
    fun i hi => hnamed i (List.mem_cons_of_mem item hi),
    (hnamed item List.mem_cons_self).read htree hword, Bits.number_of_gives_lt hnumber hvalue,
    hrest⟩

/-- What items write is read of them, in no more steps than there are items. -/
theorem wordLengths_of_writes (htree : CodeTree.ofLengths short = .ok tree)
    {items : List LengthItem} {done all : List Nat} (h : Writes items done all)
    (hnamed : ∀ item ∈ items, Named short item.symbol) {fuel : Nat} (hfuel : items.length ≤ fuel)
    {s t : Bits} (hgives : Bits.Gives (items.flatMap fun item =>
      wordOf (words short) item.symbol ++ lowBits item.bits item.value) s t) :
    Cursor.wordLengths tree all.length fuel done s = .ok (all.reverse, t) := by
  induction h generalizing fuel s with
  | nil =>
      obtain rfl : s = t := hgives
      cases fuel with
      | zero | succ fuel => rw [Cursor.wordLengths, if_pos rfl]
  | length hl hrest ih =>
      have hless := (Writes.length hl hrest).length_lt
      obtain ⟨steps, u, v, rfl, hsteps, hnamed, hread, hnumber, hmore⟩ :=
        exists_of_gives_lengthItem htree hnamed Nat.one_pos hfuel hgives
      obtain rfl : u = v := congrArg Prod.snd (Except.ok.inj hnumber)
      rw [Cursor.wordLengths, if_neg (Nat.ne_of_lt hless), if_neg (Nat.lt_asymm hless), hread]
      dsimp only [bind, Except.bind]
      rw [if_pos hl]
      exact ih hnamed hsteps hmore
  | again hn hrest ih =>
      have hless := (Writes.again hn hrest).length_lt
      obtain ⟨steps, u, v, rfl, hsteps, hnamed, hread, hnumber, hmore⟩ :=
        exists_of_gives_lengthItem htree hnamed hn hfuel hgives
      rw [Cursor.wordLengths, if_neg (Nat.ne_of_lt hless), if_neg (Nat.lt_asymm hless), hread]
      dsimp only [bind, Except.bind]
      rw [if_neg (by decide), if_pos rfl, hnumber]
      exact ih hnamed hsteps hmore
  | zeros hn hrest ih =>
      have hless := (Writes.zeros hn hrest).length_lt
      obtain ⟨steps, u, v, rfl, hsteps, hnamed, hread, hnumber, hmore⟩ :=
        exists_of_gives_lengthItem htree hnamed hn hfuel hgives
      rw [Cursor.wordLengths, if_neg (Nat.ne_of_lt hless), if_neg (Nat.lt_asymm hless), hread]
      dsimp only [bind, Except.bind]
      rw [if_neg (by decide), if_neg (by decide), if_pos rfl, hnumber]
      exact ih hnamed hsteps hmore
  | moreZeros hn hrest ih =>
      have hless := (Writes.moreZeros hn hrest).length_lt
      obtain ⟨steps, u, v, rfl, hsteps, hnamed, hread, hnumber, hmore⟩ :=
        exists_of_gives_lengthItem htree hnamed hn hfuel hgives
      rw [Cursor.wordLengths, if_neg (Nat.ne_of_lt hless), if_neg (Nat.lt_asymm hless), hread]
      dsimp only [bind, Except.bind]
      rw [if_neg (by decide), if_neg (by decide), if_neg (by decide), hnumber]
      exact ih hnamed hsteps hmore

end

/-! ## The third code -/

theorem shortNumbers_of_gives {ns : List Nat} (h : ∀ n ∈ ns, n < 8) {s t : Bits}
    (hgives : Bits.Gives (ns.flatMap (lowBits 3)) s t) :
    Cursor.shortNumbers ns.length s = .ok (ns, t) := by
  induction ns generalizing s with
  | nil =>
      obtain rfl : s = t := hgives
      rfl
  | cons n ns ih =>
      rw [List.flatMap_cons] at hgives
      obtain ⟨u, hnumber, hrest⟩ := Bits.gives_append.mp hgives
      rw [List.length_cons, Cursor.shortNumbers,
        Bits.number_of_gives_lt hnumber (h n List.mem_cons_self)]
      dsimp only [bind, Except.bind]
      rw [ih (fun m hm => h m (List.mem_cons_of_mem n hm)) hrest]

/-- Lengths in the order that they are written in. -/
def inOrder (short : List Nat) : List Nat :=
  Cursor.lengthOrder.map fun symbol => (short[symbol]?).getD 0

theorem length_inOrder (short : List Nat) : (inOrder short).length = 19 := by
  rw [inOrder, List.length_map]
  rfl

theorem le_of_mem_inOrder {short : List Nat} {n most : Nat} (h : ∀ l ∈ short, l ≤ most)
    (hn : n ∈ inOrder short) : n ≤ most := by
  obtain ⟨symbol, -, rfl⟩ := List.mem_map.mp hn
  cases hl : short[symbol]? with
  | none => exact Nat.zero_le most
  | some l => exact h l (List.mem_of_getElem? hl)

/-- Lengths are found again by their order, though the zeros at its end are left out. -/
theorem lengthLengths_trimZeros (least : Nat) {short : List Nat} (hshort : short.length = 19) :
    Cursor.lengthLengths (trimZeros least (inOrder short)) = short := by
  obtain ⟨k, h⟩ := trimZeros_append least (inOrder short)
  generalize trimZeros least (inOrder short) = written at h ⊢
  have hlength : (Cursor.lengthLengths written).length = 19 := by
    rw [Cursor.lengthLengths, List.length_map, List.length_range]
  refine List.ext_getElem (hlength.trans hshort.symm) fun i hi hi' => ?_
  have hplace : ∀ {j symbol : Nat}, Cursor.lengthOrder[j]? = some symbol →
      (written ++ List.replicate k 0)[j]? = some ((short[symbol]?).getD 0) := by
    intro j symbol hj
    rw [← h, inOrder, List.getElem?_map, hj]
    rfl
  have hget : (short[i]?).getD 0 = short[i] := by
    rw [List.getElem?_eq_getElem hi', Option.getD_some]
  simp only [Cursor.lengthLengths, List.getElem_map, List.getElem_range]
  rw [← hget]
  cases hfind : (Cursor.lengthOrder.zip written).find? fun entry => decide (entry.1 = i) with
  | some entry =>
      have hsymbol := List.find?_some hfind
      rw [decide_eq_true_eq] at hsymbol
      obtain ⟨j, hj⟩ := List.getElem?_of_mem (List.mem_of_find?_eq_some hfind)
      obtain ⟨horder, hwritten⟩ := List.getElem?_zip_eq_some.mp hj
      have hlt : j < written.length := (List.getElem?_eq_some_iff.mp hwritten).1
      have heq := hplace horder
      rw [List.getElem?_append_left hlt, hwritten, hsymbol] at heq
      exact Option.some.inj heq
  | none =>
      have hall : ∀ i < 19, i ∈ Cursor.lengthOrder := by decide
      obtain ⟨j, hj⟩ := List.getElem?_of_mem (hall i (hlength ▸ hi))
      have heq := hplace hj
      have hle : written.length ≤ j := by
        by_contra hlt
        have hwritten := List.getElem?_eq_getElem (Nat.lt_of_not_le hlt)
        have hzip : (Cursor.lengthOrder.zip written)[j]? = some (i, _) :=
          List.getElem?_zip_eq_some.mpr ⟨hj, hwritten⟩
        exact List.find?_eq_none.mp hfind _ (List.mem_of_getElem? hzip) (decide_eq_true rfl)
      rw [List.getElem?_append_right hle, List.getElem?_replicate] at heq
      split at heq
      · exact Option.some.inj heq
      · cases heq

theorem mem_lengthItems {lengths : List Nat} {l : Nat} (hl : l ∈ lengths) (hne : l ≠ 0) :
    ⟨l, 0, 0⟩ ∈ lengthItems lengths := by
  rw [← expanded_runs lengths, expanded, List.mem_flatMap] at hl
  obtain ⟨⟨x, n⟩, hrun, hx⟩ := hl
  obtain rfl := (List.mem_replicate.mp hx).2
  rw [lengthItems, List.mem_flatMap]
  refine ⟨_, hrun, ?_⟩
  change _ ∈ if l = 0 then zeroItems n else repeatItems l n
  rw [if_neg hne]
  exact List.mem_cons_self

theorem Writes.eq_replicate {items : List LengthItem} {done all : List Nat}
    (h : Writes items done all) {l : Nat} (hl : l < 16) (hall : ∀ item ∈ items, item.symbol = l) :
    ∃ n, all = List.replicate n l ++ done := by
  induction h with
  | nil => exact ⟨0, rfl⟩
  | length _ _ ih =>
      obtain rfl := hall _ List.mem_cons_self
      obtain ⟨n, rfl⟩ := ih fun item hitem => hall item (List.mem_cons_of_mem _ hitem)
      exact ⟨n + 1, by rw [List.replicate_succ', List.append_assoc, List.singleton_append]⟩
  | again | zeros | moreZeros =>
      obtain rfl := hall _ List.mem_cons_self
      exact absurd hl (of_decide_eq_true rfl)

theorem exists_repetition (l : Nat) {n : Nat} (hn : 4 ≤ n) :
    ∃ item ∈ repeatItems l n, item.symbol = 16 := by
  rw [repeatItems]
  by_cases hmany : (n - 1) / 6 = 0
  · have hleft : ¬(n - 1) % 6 < 3 := by omega
    rw [if_neg hleft]
    exact ⟨_, List.mem_append_right _ List.mem_cons_self, rfl⟩
  · have hmem : (⟨16, 2, 3⟩ : LengthItem) ∈ List.replicate ((n - 1) / 6) ⟨16, 2, 3⟩ :=
      List.mem_replicate.mpr ⟨hmany, rfl⟩
    exact ⟨_, List.mem_append_left _ (List.mem_cons_of_mem _ hmem), rfl⟩

/-- No single symbol writes many lengths, unless they are zeros. -/
theorem exists_other_symbol {lengths : List Nat} (h : ∀ l ∈ lengths, l < 16)
    (hmany : 4 ≤ lengths.length) {l : Nat} (hl : l ∈ lengths) (hne : l ≠ 0) :
    ∃ item ∈ lengthItems lengths, item.symbol ≠ l := by
  by_contra hnone
  have hall : ∀ item ∈ lengthItems lengths, item.symbol = l := fun item hitem =>
    Decidable.not_not.mp fun hne => hnone ⟨item, hitem, hne⟩
  obtain ⟨n, hn⟩ := (writes_lengthItems h []).eq_replicate (h l hl) hall
  have hlengths : lengths = List.replicate n l := by
    rw [List.append_nil, List.append_nil] at hn
    rw [← List.reverse_reverse lengths, hn, List.reverse_replicate]
  subst hlengths
  rw [List.length_replicate] at hmany
  obtain ⟨n, rfl⟩ := Nat.exists_eq_add_of_le' (Nat.le_trans (Nat.le_add_left 1 3) hmany)
  have hitems : lengthItems (List.replicate (n + 1) l) = repeatItems l (n + 1) := by
    rw [lengthItems, runs_replicate, List.flatMap_cons, List.flatMap_nil, List.append_nil]
    exact if_neg hne
  obtain ⟨item, hitem, hsymbol⟩ := exists_repetition l hmany
  rw [hitems] at hall
  have hlt := h l hl
  have heq := hall item hitem
  omega

/-! ## Both codes -/

/-- The code that lengths are written under. -/
def lengthCode (lengths : List Nat) : List Nat :=
  CodeLengths.ofUses 7 (tally 19 ((lengthItems lengths).map LengthItem.symbol))

theorem codeFor_lengthCode (lengths : List Nat) :
    CodeFor 7 19 ((lengthItems lengths).map LengthItem.symbol) (lengthCode lengths) :=
  codeFor_ofUses _ (by decide) (by decide) (by decide)

section

variable {lengths : List Nat} (h : ∀ l ∈ lengths, l < 16)

include h

theorem named_lengthCode {item : LengthItem} (hitem : item ∈ lengthItems lengths) :
    Named (lengthCode lengths) item.symbol :=
  (codeFor_lengthCode lengths).named _ (List.mem_map_of_mem hitem)
    ((writes_lengthItems h []).symbol_lt hitem)

theorem isComplete_lengthCode (hmany : 4 ≤ lengths.length) {l : Nat} (hl : l ∈ lengths)
    (hne : l ≠ 0) : CodeTree.isComplete (lengthCode lengths) = true := by
  obtain ⟨item, hitem, hother⟩ := exists_other_symbol h hmany hl hne
  refine (codeFor_lengthCode lengths).complete _ (List.mem_map_of_mem hitem) _
    (List.mem_map_of_mem (mem_lengthItems hl hne)) hother fun symbol hsymbol => ?_
  obtain ⟨item, hitem, rfl⟩ := List.mem_map.mp hsymbol
  exact (writes_lengthItems h []).symbol_lt hitem

end

/-- How codes are written, in the words of what was shown of their parts. -/
theorem codeBits_eq (literals distances : List Nat) :
    codeBits literals distances =
      lowBits 5 ((trimZeros 257 literals).length - 257)
        ++ lowBits 5 ((trimZeros 1 distances).length - 1)
        ++ lowBits 4 ((trimZeros 4 (inOrder
          (lengthCode (trimZeros 257 literals ++ trimZeros 1 distances)))).length - 4)
        ++ (trimZeros 4 (inOrder
          (lengthCode (trimZeros 257 literals ++ trimZeros 1 distances)))).flatMap (lowBits 3)
        ++ (lengthItems (trimZeros 257 literals ++ trimZeros 1 distances)).flatMap fun item =>
          wordOf (words (lengthCode (trimZeros 257 literals ++ trimZeros 1 distances))) item.symbol
            ++ lowBits item.bits item.value := rfl

/-- The codes of a block are read as they were written. -/
theorem writtenCodes_of_gives {literals distances : List Nat} (hliterals : literals.length = 286)
    (hdistances : distances.length = 30) (hwords : ∀ l ∈ literals ++ distances, l < 16)
    (hend : Named literals endSymbol) {literalTree distanceTree : CodeTree}
    (hliteralTree : CodeTree.ofLengths literals = .ok literalTree)
    (hdistanceTree : CodeTree.ofLengths distances = .ok distanceTree) {s t : Bits}
    (hgives : Bits.Gives (codeBits literals distances) s t) :
    Cursor.writtenCodes s = .ok (literalTree, distanceTree, t) := by
  have hlow : 257 ≤ (trimZeros 257 literals).length := le_length_trimZeros (by omega)
  have hhigh := length_trimZeros_le 257 literals
  have hlow' : 1 ≤ (trimZeros 1 distances).length := le_length_trimZeros (by omega)
  have hhigh' := length_trimZeros_le 1 distances
  have hlengths : ∀ l ∈ trimZeros 257 literals ++ trimZeros 1 distances, l < 16 := by
    intro l hl
    rcases List.mem_append.mp hl with hl | hl
    · exact hwords l (List.mem_append_left _ (mem_of_mem_trimZeros hl))
    · exact hwords l (List.mem_append_right _ (mem_of_mem_trimZeros hl))
  obtain ⟨l, hl, hne, -⟩ := hend
  have hused : l ∈ trimZeros 257 literals ++ trimZeros 1 distances :=
    List.mem_append_left _ (mem_trimZeros (List.mem_of_getElem? hl) hne)
  rw [← ofLengths_trimZeros 257] at hliteralTree
  rw [← ofLengths_trimZeros 1] at hdistanceTree
  rw [codeBits_eq] at hgives
  generalize trimZeros 257 literals = ls at *
  generalize trimZeros 1 distances = ds at *
  have hcount : (ls ++ ds).length = ls.length + ds.length := List.length_append
  have hcomplete := isComplete_lengthCode hlengths (by omega) hused hne
  have hcode := codeFor_lengthCode (ls ++ ds)
  obtain ⟨tree, htree⟩ := hcode.usable
  -- The third code is written in its order, which is cut behind the last length that is not zero.
  have hshort := lengthLengths_trimZeros 4 hcode.length
  have hleast : 4 ≤ (trimZeros 4 (inOrder (lengthCode (ls ++ ds)))).length :=
    le_length_trimZeros (by rw [length_inOrder]; decide)
  have hmost := length_trimZeros_le 4 (inOrder (lengthCode (ls ++ ds)))
  rw [length_inOrder] at hmost
  have hsmall : ∀ n ∈ trimZeros 4 (inOrder (lengthCode (ls ++ ds))), n < 8 := fun n hn =>
    Nat.lt_succ_of_le (le_of_mem_inOrder hcode.le (mem_of_mem_trimZeros hn))
  generalize trimZeros 4 (inOrder (lengthCode (ls ++ ds))) = written at *
  obtain ⟨s₄, hgives, hitems⟩ := Bits.gives_append.mp hgives
  obtain ⟨s₃, hgives, hnumbers⟩ := Bits.gives_append.mp hgives
  obtain ⟨s₂, hgives, hfour⟩ := Bits.gives_append.mp hgives
  obtain ⟨s₁, hone, htwo⟩ := Bits.gives_append.mp hgives
  have hwrites := writes_lengthItems hlengths []
  have hread := wordLengths_of_writes htree hwrites
    (fun item hitem => named_lengthCode hlengths hitem)
    (Nat.le_trans (Nat.le_add_left _ _) hwrites.length_le) hitems
  rw [List.append_nil, List.reverse_reverse, List.length_reverse, hcount] at hread
  rw [Cursor.writtenCodes, Bits.number_of_gives_lt hone (by omega)]
  dsimp only [bind, Except.bind]
  rw [Bits.number_of_gives_lt htwo (by omega)]
  dsimp only
  rw [Bits.number_of_gives_lt hfour (by omega)]
  dsimp only
  rw [if_neg (by omega), Nat.sub_add_cancel hleast, shortNumbers_of_gives hsmall hnumbers]
  dsimp only
  rw [hshort, if_pos hcomplete, htree]
  dsimp only
  rw [Nat.sub_add_cancel hlow, Nat.sub_add_cancel hlow', hread]
  dsimp only
  rw [List.take_left, List.drop_left, hliteralTree]
  dsimp only
  rw [hdistanceTree]

end Telemetry.Gzip
