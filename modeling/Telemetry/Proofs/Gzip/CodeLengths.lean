/-
Codes that are made for symbols can be used.

Joining two trees keeps it that the words of a tree fill it exactly.  No word of a code may be longer
than a limit, so what is said of a tree is said of its depths cut at any limit (`CodeLengths.Full`):
cut, the words take all the room there is or more, and those that are shorter than the limit take no
more than there is.  So what is too much is at most the number of words that are cut, and one of them
is taken away at a time: its room, which is one, goes, and that of a shorter word is shared by two
(`CodeLengths.room_makeRoom`).  In the end the words take just the room there is
(`CodeLengths.room_limitedCounts`), and every symbol that is used has one of them
(`CodeLengths.ofUses_spec`).
-/
import Mathlib.Data.List.Nodup
import Telemetry.Proofs.Gzip.CodeTree

namespace Telemetry.Gzip.CodeLengths

open CodeTree (share)

/-! ## Depths -/

/-- The room that words of these depths take if none is longer than a limit. -/
def cutRoom (limit : Nat) (depths : List Nat) : Nat :=
  (depths.map fun d => 2 ^ (limit - min d limit)).sum

/-- The room that those take which are shorter than the limit. -/
def shortRoom (limit : Nat) (depths : List Nat) : Nat :=
  (depths.map fun d => if d < limit then 2 ^ (limit - d) else 0).sum

/-- Depths that fill a tree exactly, as it is seen with any limit. -/
def Full (depths : List Nat) : Prop :=
  ∀ limit, 2 ^ limit ≤ cutRoom limit depths ∧ shortRoom limit depths ≤ 2 ^ limit

theorem cutRoom_zero (depths : List Nat) : cutRoom 0 depths = depths.length := by
  simp [cutRoom]

theorem full_leaf : Full [0] := by
  intro limit
  constructor
  · simp [cutRoom]
  · cases limit with
    | zero => exact Nat.zero_le _
    | succ limit => simp [shortRoom]

theorem Full.join {a b : Joined} (ha : Full a.depths) (hb : Full b.depths) :
    Full (a.join b).depths := by
  have hcut : ∀ limit, ∀ ds : List Nat, cutRoom (limit + 1) (ds.map (· + 1)) = cutRoom limit ds := by
    intro limit ds
    rw [cutRoom, cutRoom, List.map_map]
    congr 1
    refine List.map_congr_left fun d _ => ?_
    simp only [Function.comp_apply]
    congr 1
    omega
  have hshort : ∀ limit, ∀ ds : List Nat,
      shortRoom (limit + 1) (ds.map (· + 1)) = shortRoom limit ds := by
    intro limit ds
    rw [shortRoom, shortRoom, List.map_map]
    congr 1
    refine List.map_congr_left fun d _ => ?_
    simp only [Function.comp_apply, Nat.add_lt_add_iff_right, Nat.add_sub_add_right]
  intro limit
  cases limit with
  | zero =>
      have hsome := (ha 0).1
      rw [cutRoom_zero] at hsome
      constructor
      · rw [cutRoom_zero, Joined.join, List.length_map, List.length_append]
        omega
      · simp [shortRoom]
  | succ limit =>
      have hawhole := ha limit
      have hbwhole := hb limit
      have hcutsum : cutRoom limit (a.depths ++ b.depths) =
          cutRoom limit a.depths + cutRoom limit b.depths := by
        rw [cutRoom, List.map_append, List.sum_append]
        rfl
      have hshortsum : shortRoom limit (a.depths ++ b.depths) =
          shortRoom limit a.depths + shortRoom limit b.depths := by
        rw [shortRoom, List.map_append, List.sum_append]
        rfl
      rw [Joined.join, hcut, hshort, hcutsum, hshortsum, Nat.pow_succ]
      omega

theorem takeRarest_cases (leaves trees : List Joined) :
    (takeRarest leaves trees = none ∧ leaves = [] ∧ trees = []) ∨
      ∃ j leaves' trees', takeRarest leaves trees = some (j, leaves', trees') ∧
        (leaves ++ trees).Perm (j :: (leaves' ++ trees')) := by
  match leaves, trees with
  | [], [] => exact .inl ⟨rfl, rfl, rfl⟩
  | leaf :: leaves, [] => exact .inr ⟨leaf, leaves, [], rfl, .refl _⟩
  | [], tree :: trees => exact .inr ⟨tree, [], trees, rfl, .refl _⟩
  | leaf :: leaves, tree :: trees =>
      rw [takeRarest]
      split
      · exact .inr ⟨tree, leaf :: leaves, trees, rfl, List.perm_middle⟩
      · exact .inr ⟨leaf, leaves, tree :: trees, rfl, .refl _⟩

/-- How many symbols trees have. -/
def symbolCount (trees : List Joined) : Nat := (trees.map fun j => j.depths.length).sum

theorem exists_joinAll {fuel : Nat} {leaves trees : List Joined}
    (hfuel : (leaves ++ trees).length ≤ fuel) (hne : leaves ++ trees ≠ [])
    (hfull : ∀ j ∈ leaves ++ trees, Full j.depths)
    (hdeep : (leaves ++ trees).length = 1 → ∀ j ∈ leaves ++ trees, ∀ d ∈ j.depths, 1 ≤ d) :
    ∃ j, joinAll fuel leaves trees = some j ∧ Full j.depths ∧
      j.depths.length = symbolCount (leaves ++ trees) ∧ ∀ d ∈ j.depths, 1 ≤ d := by
  induction fuel generalizing leaves trees with
  | zero => exact absurd (List.length_eq_zero_iff.mp (Nat.le_zero.mp hfuel)) hne
  | succ fuel ih =>
      rcases takeRarest_cases leaves trees with ⟨-, rfl, rfl⟩ | ⟨a, leaves', trees', hfirst, hperm⟩
      · exact absurd rfl hne
      · rw [joinAll, hfirst]
        have hafull := hfull a (hperm.mem_iff.mpr List.mem_cons_self)
        have hcount : symbolCount (leaves ++ trees) =
            a.depths.length + symbolCount (leaves' ++ trees') := (hperm.map _).sum_eq
        have hlength := hperm.length_eq
        rw [List.length_cons] at hlength
        rcases takeRarest_cases leaves' trees' with
          ⟨hnone, rfl, rfl⟩ | ⟨b, leaves'', trees'', hsecond, hperm'⟩
        · simp only [hnone]
          refine ⟨a, rfl, hafull, hcount.symm, ?_⟩
          exact hdeep (by rw [hlength]; rfl) a (hperm.mem_iff.mpr List.mem_cons_self)
        · simp only [hsecond]
          have hbmem : b ∈ leaves ++ trees :=
            hperm.mem_iff.mpr (List.mem_cons_of_mem a (hperm'.mem_iff.mpr List.mem_cons_self))
          have hjoin := hafull.join (hfull b hbmem)
          have hlength' := hperm'.length_eq
          rw [List.length_cons] at hlength'
          have hdepths : ∀ d ∈ (a.join b).depths, 1 ≤ d := by
            intro d hd
            obtain ⟨d', -, rfl⟩ := List.mem_map.mp hd
            exact Nat.le_add_left 1 d'
          have hmem : ∀ j ∈ leaves'' ++ (trees'' ++ [a.join b]),
              j ∈ leaves ++ trees ∨ j = a.join b := by
            intro j hj
            rw [← List.append_assoc, List.mem_append, List.mem_singleton] at hj
            refine hj.imp_left fun hold => ?_
            exact hperm.mem_iff.mpr (List.mem_cons_of_mem a
              (hperm'.mem_iff.mpr (List.mem_cons_of_mem b hold)))
          have hmore : (leaves'' ++ (trees'' ++ [a.join b])).length =
              (leaves'' ++ trees'').length + 1 := by
            rw [← List.append_assoc, List.length_append, List.length_singleton]
          have hone : (leaves'' ++ (trees'' ++ [a.join b])).length = 1 →
              ∀ j ∈ leaves'' ++ (trees'' ++ [a.join b]), ∀ d ∈ j.depths, 1 ≤ d := by
            intro hone j hj
            have hempty : leaves'' ++ trees'' = [] := by
              rw [hmore] at hone
              exact List.length_eq_zero_iff.mp (Nat.succ.inj hone)
            rw [← List.append_assoc, hempty, List.nil_append, List.mem_singleton] at hj
            rw [hj]
            exact hdepths
          obtain ⟨j, hj, hjfull, hjcount, hjdeep⟩ :=
            @ih leaves'' (trees'' ++ [a.join b]) (by omega) (by simp)
              (fun j hj => (hmem j hj).elim (hfull j) fun h => h ▸ hjoin) hone
          have hcount' : symbolCount (leaves' ++ trees') =
              b.depths.length + symbolCount (leaves'' ++ trees'') := (hperm'.map _).sum_eq
          refine ⟨j, hj, hjfull, ?_, hjdeep⟩
          rw [hjcount, hcount, hcount', ← List.append_assoc]
          simp only [symbolCount, List.map_append, List.sum_append, List.map_singleton,
            List.sum_singleton, Joined.join, List.length_map, List.length_append]
          omega

/-- Of two or more symbols the depths fill a tree, and none is at its root. -/
theorem depths_full {uses : List Nat} (h : 2 ≤ uses.length) :
    Full (depths uses) ∧ (depths uses).length = uses.length ∧ ∀ d ∈ depths uses, 1 ≤ d := by
  have hdepths : depths uses =
      ((joinAll uses.length (uses.map fun n => ⟨n, [0]⟩) []).map Joined.depths).getD [] := by
    match uses, h with
    | _ :: _ :: _, _ => rfl
  have hleaves : ∀ j ∈ (uses.map fun n => (⟨n, [0]⟩ : Joined)) ++ [], Full j.depths := by
    intro j hj
    rw [List.append_nil] at hj
    obtain ⟨n, -, rfl⟩ := List.mem_map.mp hj
    exact full_leaf
  have hlength : ((uses.map fun n => (⟨n, [0]⟩ : Joined)) ++ []).length = uses.length := by
    rw [List.append_nil, List.length_map]
  obtain ⟨j, hj, hfull, hcount, hdeep⟩ := exists_joinAll (Nat.le_of_eq hlength)
    (fun hnil => by
      rw [hnil] at hlength
      exact absurd hlength.symm (by simp only [List.length_nil]; omega))
    hleaves (fun hone => by omega)
  have hsum : symbolCount ((uses.map fun n => (⟨n, [0]⟩ : Joined)) ++ []) = uses.length := by
    rw [List.append_nil, symbolCount, List.map_map]
    simp [Function.comp_def]
  rw [hdepths, hj]
  exact ⟨hfull, hcount.trans hsum, hdeep⟩

/-! ## Counts -/

theorem room_modify {counts : List Nat} {i : Nat} (h : i < counts.length) :
    room (counts.modify i (· + 1)) = room counts + 2 ^ i := by
  induction counts generalizing i with
  | nil => cases h
  | cons n counts ih =>
      cases i with
      | zero =>
          simp only [List.modify_zero_cons, room, Nat.pow_zero]
          omega
      | succ i =>
          have hi := ih (Nat.lt_of_succ_lt_succ h)
          simp only [List.modify_succ_cons, room, hi, Nat.pow_succ]
          omega

theorem sum_modify {counts : List Nat} {i : Nat} (h : i < counts.length) :
    (counts.modify i (· + 1)).sum = counts.sum + 1 := by
  induction counts generalizing i with
  | nil => cases h
  | cons n counts ih =>
      cases i with
      | zero =>
          simp only [List.modify_zero_cons, List.sum_cons]
          omega
      | succ i =>
          have hi := ih (Nat.lt_of_succ_lt_succ h)
          simp only [List.modify_succ_cons, List.sum_cons, hi]
          omega

theorem headD_modify {counts : List Nat} {i : Nat} (h : i < counts.length) :
    (counts.modify i (· + 1)).headD 0 = counts.headD 0 + if i = 0 then 1 else 0 := by
  cases counts with
  | nil => cases h
  | cons n counts =>
      cases i with
      | zero => rfl
      | succ i => rfl

/-- Counting depths, and what it does to the room, the number of words and that of the longest. -/
theorem countsUpTo_spec {limit : Nat} {depths : List Nat} (hlimit : limit ≠ 0)
    (hdeep : ∀ d ∈ depths, 1 ≤ d) :
    (countsUpTo limit depths).length = limit ∧
      room (countsUpTo limit depths) = cutRoom limit depths ∧
      (countsUpTo limit depths).sum = depths.length ∧
      (countsUpTo limit depths).headD 0 = depths.countP (limit ≤ ·) := by
  have hfrom : ∀ counts : List Nat, counts.length = limit →
      let all := depths.foldl (fun counts d => counts.modify (limit - min d limit) (· + 1)) counts
      all.length = limit ∧ room all = room counts + cutRoom limit depths ∧
        all.sum = counts.sum + depths.length ∧
        all.headD 0 = counts.headD 0 + depths.countP (limit ≤ ·) := by
    induction depths with
    | nil => exact fun counts hcounts => ⟨hcounts, rfl, rfl, rfl⟩
    | cons d depths ih =>
        intro counts hcounts
        have hd := hdeep d List.mem_cons_self
        have hi : limit - min d limit < counts.length := by omega
        have hlong : (limit - min d limit = 0) = (limit ≤ d) := propext (by omega)
        obtain ⟨hlength, hroom, hsum, hhead⟩ :=
          ih (fun d hd => hdeep d (List.mem_cons_of_mem _ hd))
            (counts.modify (limit - min d limit) (· + 1)) (by rw [List.length_modify, hcounts])
        refine ⟨hlength, ?_, ?_, ?_⟩
        · rw [List.foldl_cons, hroom, room_modify hi, cutRoom, cutRoom, List.map_cons,
            List.sum_cons, Nat.add_assoc]
        · rw [List.foldl_cons, hsum, sum_modify hi, List.length_cons]
          omega
        · rw [List.foldl_cons, hhead, headD_modify hi, List.countP_cons]
          simp only [hlong, decide_eq_true_eq]
          omega
  obtain ⟨hlength, hroom, hsum, hhead⟩ := hfrom (List.replicate limit 0) List.length_replicate
  have hnone : room (List.replicate limit 0) = 0 := by
    clear hfrom hlength hroom hsum hhead hlimit
    induction limit with
    | zero => rfl
    | succ limit ih => rw [List.replicate_succ, room, ih]
  have hfirst : (List.replicate limit 0).headD 0 = 0 := by
    cases limit <;> rfl
  rw [hnone, Nat.zero_add] at hroom
  rw [List.sum_replicate_nat, Nat.mul_zero, Nat.zero_add] at hsum
  rw [hfirst, Nat.zero_add] at hhead
  exact ⟨hlength, hroom, hsum, hhead⟩

theorem room_eq_zero {counts : List Nat} (h : ∀ n ∈ counts, n = 0) : room counts = 0 := by
  induction counts with
  | nil => rfl
  | cons n counts ih =>
      rw [room, h n List.mem_cons_self, ih fun m hm => h m (List.mem_cons_of_mem n hm)]

/-- Two words of one bit more take the room of the word that they stand for. -/
theorem room_makeRoom {counts : List Nat} (n : Nat) (h : ∃ m ∈ counts, m ≠ 0) :
    room (makeRoom n counts) = n + 2 * room counts ∧
      (makeRoom n counts).sum = n + counts.sum + 1 ∧
      (makeRoom n counts).length = counts.length + 1 ∧ n ≤ (makeRoom n counts).headD 0 := by
  induction counts generalizing n with
  | nil =>
      obtain ⟨m, hm, -⟩ := h
      cases hm
  | cons m counts ih =>
      cases m with
      | zero =>
          have hmore : ∃ m ∈ counts, m ≠ 0 := by
            obtain ⟨m, hm, hne⟩ := h
            rcases List.mem_cons.mp hm with rfl | hm
            · exact absurd rfl hne
            · exact ⟨m, hm, hne⟩
          obtain ⟨hroom, hsum, hlength, -⟩ := ih 0 hmore
          refine ⟨?_, ?_, ?_, Nat.le_refl n⟩
          · rw [makeRoom, room, hroom, room]
          · rw [makeRoom, List.sum_cons, hsum, List.sum_cons]
            omega
          · rw [makeRoom, List.length_cons, hlength, List.length_cons]
      | succ m =>
          refine ⟨?_, ?_, rfl, Nat.le_add_right n 2⟩
          · rw [makeRoom, room, room, room]
            omega
          · rw [makeRoom, List.sum_cons, List.sum_cons, List.sum_cons]
            omega

/-- Counts of words that take so much more room than there is. -/
structure Exceeds (limit excess : Nat) (counts : List Nat) : Prop where
  length : counts.length = limit
  room : room counts = 2 ^ limit + excess
  head : excess ≤ counts.headD 0
  sum : counts.sum ≤ 2 ^ limit

theorem Exceeds.shorten {limit excess : Nat} {counts : List Nat}
    (h : Exceeds limit (excess + 1) counts) :
    Exceeds limit excess (shorten counts) ∧ (shorten counts).sum = counts.sum := by
  obtain ⟨hlength, hroom, hhead, hsum⟩ := h
  cases counts with
  | nil => exact absurd hhead (Nat.not_succ_le_zero _)
  | cons n counts =>
      rw [List.headD_cons] at hhead
      rw [CodeLengths.room] at hroom
      rw [List.sum_cons] at hsum
      have hsome : ∃ m ∈ counts, m ≠ 0 := by
        by_contra hnone
        have hzero : ∀ m ∈ counts, m = 0 := fun m hm => by_contra fun hne => hnone ⟨m, hm, hne⟩
        rw [room_eq_zero hzero] at hroom
        omega
      obtain ⟨hroom', hsum', hlength', hhead'⟩ := room_makeRoom (n - 1) hsome
      rw [CodeLengths.shorten]
      refine ⟨⟨?_, ?_, ?_, ?_⟩, ?_⟩
      · rw [hlength', ← hlength, List.length_cons]
      · omega
      · omega
      · omega
      · rw [hsum', List.sum_cons]
        omega

theorem Exceeds.shortenBy {limit excess : Nat} {counts : List Nat} (h : Exceeds limit excess counts) :
    Exceeds limit 0 (shortenBy excess counts) ∧ (shortenBy excess counts).sum = counts.sum := by
  induction excess generalizing counts with
  | zero => exact ⟨h, rfl⟩
  | succ excess ih =>
      obtain ⟨hless, hsum⟩ := h.shorten
      obtain ⟨hnone, hsum'⟩ := ih hless
      exact ⟨hnone, hsum'.trans hsum⟩

theorem cutRoom_eq (limit : Nat) (depths : List Nat) :
    cutRoom limit depths = shortRoom limit depths + depths.countP (limit ≤ ·) := by
  induction depths with
  | nil => rfl
  | cons d depths ih =>
      have hcons : cutRoom limit (d :: depths) = 2 ^ (limit - min d limit) + cutRoom limit depths :=
        rfl
      have hcons' : shortRoom limit (d :: depths) =
          (if d < limit then 2 ^ (limit - d) else 0) + shortRoom limit depths := rfl
      rw [hcons, hcons', ih, List.countP_cons]
      by_cases hd : d < limit
      · have hlong : ¬limit ≤ d := Nat.not_le_of_lt hd
        rw [if_pos hd, Nat.min_eq_left (Nat.le_of_lt hd)]
        simp only [hlong, decide_false, Bool.false_eq_true, if_false]
        omega
      · have hlong : limit ≤ d := Nat.le_of_not_lt hd
        rw [if_neg hd, Nat.min_eq_right hlong, Nat.sub_self, Nat.pow_zero]
        simp only [hlong, decide_true, if_true]
        omega

/-- The words of a full tree take just the room there is once they are cut and have made room. -/
theorem room_limitedCounts {limit : Nat} {depths : List Nat} (hlimit : limit ≠ 0)
    (hfull : Full depths) (hdeep : ∀ d ∈ depths, 1 ≤ d) (hfew : depths.length ≤ 2 ^ limit) :
    (limitedCounts limit depths).length = limit ∧ room (limitedCounts limit depths) = 2 ^ limit ∧
      (limitedCounts limit depths).sum = depths.length := by
  obtain ⟨hlength, hroom, hsum, hhead⟩ := countsUpTo_spec hlimit hdeep
  obtain ⟨hcut, hshort⟩ := hfull limit
  have hsplit := cutRoom_eq limit depths
  have hexceeds : Exceeds limit (room (countsUpTo limit depths) - 1 <<< limit)
      (countsUpTo limit depths) := by
    rw [Nat.one_shiftLeft, hroom]
    refine ⟨hlength, ?_, ?_, ?_⟩
    · rw [hroom]
      omega
    · rw [hhead]
      omega
    · rw [hsum]
      exact hfew
  obtain ⟨hnone, hsum'⟩ := hexceeds.shortenBy
  exact ⟨hnone.length, hnone.room, hsum'.trans hsum⟩

/-! ## Lengths -/

theorem length_spread (length : Nat) (counts : List Nat) :
    (spread length counts).length = counts.sum := by
  induction counts generalizing length with
  | nil => rfl
  | cons n counts ih =>
      rw [spread, List.length_append, ih, List.length_replicate, List.sum_cons, Nat.add_comm]

theorem mem_spread {length : Nat} {counts : List Nat} (hcounts : counts.length ≤ length) {l : Nat}
    (h : l ∈ spread length counts) : 1 ≤ l ∧ l ≤ length := by
  induction counts generalizing length with
  | nil => cases h
  | cons n counts ih =>
      rw [List.length_cons] at hcounts
      rw [spread, List.mem_append] at h
      rcases h with h | h
      · have := ih (by omega) h
        omega
      · rw [(List.mem_replicate.mp h).2]
        omega

theorem sum_spread {limit length : Nat} {counts : List Nat} (hcounts : counts.length ≤ length)
    (hlength : length ≤ limit) :
    ((spread length counts).map fun l => 2 ^ (limit - l)).sum =
      2 ^ (limit - length) * room counts := by
  induction counts generalizing length with
  | nil => rfl
  | cons n counts ih =>
      rw [List.length_cons] at hcounts
      have hpow : 2 ^ (limit - (length - 1)) = 2 ^ (limit - length) * 2 := by
        rw [← Nat.pow_succ]
        congr 1
        omega
      rw [spread, List.map_append, List.sum_append, ih (by omega) (by omega), List.map_replicate,
        List.sum_replicate_nat, hpow, room, Nat.mul_add, Nat.mul_comm n, Nat.mul_assoc,
        Nat.add_comm]

/-! ## Symbols with their lengths -/

/-- Setting numbers at places that are distinct and hold zero. -/
theorem foldl_set_spec {entries : List (Nat × Nat)} {out : List Nat}
    (hdistinct : (entries.map Prod.fst).Nodup) (hfree : ∀ e ∈ entries, out[e.1]? = some 0) :
    let all := entries.foldl (fun out e => out.set e.1 e.2) out
    all.length = out.length ∧
      (all.map share).sum = (out.map share).sum + (entries.map fun e => share e.2).sum ∧
      (∀ i, i ∉ entries.map Prod.fst → all[i]? = out[i]?) ∧
      ∀ e ∈ entries, all[e.1]? = some e.2 := by
  induction entries generalizing out with
  | nil => exact ⟨rfl, rfl, fun _ _ => rfl, nofun⟩
  | cons e entries ih =>
      rw [List.map_cons, List.nodup_cons] at hdistinct
      obtain ⟨hnew, hdistinct⟩ := hdistinct
      have he := hfree e List.mem_cons_self
      have hlt := (List.getElem?_eq_some_iff.mp he).1
      have hother : ∀ e' ∈ entries, e.1 ≠ e'.1 := fun e' he' heq =>
        hnew (heq ▸ List.mem_map_of_mem he')
      have hshare : ((out.set e.1 e.2).map share).sum = (out.map share).sum + share e.2 := by
        have hzero : (out.map share)[e.1]? = some 0 := by
          rw [List.getElem?_map, he]
          rfl
        have hsplit := List.take_append_drop e.1 (out.map share)
        rw [List.drop_eq_getElem_cons (by rwa [List.length_map]),
          (List.getElem?_eq_some_iff.mp hzero).2] at hsplit
        rw [List.map_set, List.set_eq_take_append_cons_drop, if_pos (by rwa [List.length_map])]
        conv_rhs => rw [← hsplit]
        simp only [List.sum_append, List.sum_cons]
        omega
      obtain ⟨hlength, hsum, hsame, hset⟩ := @ih (out.set e.1 e.2) hdistinct fun e' he' => by
        rw [List.getElem?_set_ne (hother e' he')]
        exact hfree e' (List.mem_cons_of_mem e he')
      refine ⟨hlength.trans (List.length_set ..), ?_, ?_, ?_⟩
      · rw [List.foldl_cons, hsum, hshare, List.map_cons, List.sum_cons, Nat.add_assoc]
      · intro i hi
        rw [List.map_cons, List.mem_cons, not_or] at hi
        rw [List.foldl_cons, hsame i hi.2, List.getElem?_set_ne (Ne.symm hi.1)]
      · intro e' he'
        rw [List.foldl_cons]
        rcases List.mem_cons.mp he' with rfl | he'
        · rw [hsame _ hnew, List.getElem?_set_self hlt]
        · exact hset e' he'

theorem assign_eq (size : Nat) (entries : List (Nat × Nat)) :
    assign size entries =
      entries.foldl (fun out e => out.set e.1 e.2) (List.replicate size 0) := by
  have hfrom : ∀ out : Array Nat,
      (entries.foldl (fun (out : Array Nat) e => out.setIfInBounds e.1 e.2) out).toList =
      entries.foldl (fun out e => out.set e.1 e.2) out.toList := by
    induction entries with
    | nil => exact fun out => rfl
    | cons e entries ih =>
        intro out
        rw [List.foldl_cons, List.foldl_cons, ih, Array.toList_setIfInBounds]
  have hzeros := hfrom (Array.replicate size 0)
  rwa [Array.toList_replicate] at hzeros

/-- What is used is listed once, and with what it is used. -/
theorem mem_rarestFirst {uses : List Nat} {n i : Nat} :
    (n, i) ∈ rarestFirst uses ↔ uses[i]? = some n ∧ n ≠ 0 := by
  rw [rarestFirst, List.mem_mergeSort, List.mem_filter, List.mem_zipIdx_iff_getElem?]
  simp

theorem nodup_rarestFirst (uses : List Nat) : ((rarestFirst uses).map Prod.snd).Nodup := by
  have hperm : ((rarestFirst uses).map Prod.snd).Perm
      ((uses.zipIdx.filter fun entry => entry.1 ≠ 0).map Prod.snd) := (List.mergeSort_perm _ _).map _
  rw [hperm.nodup_iff]
  have hall : (uses.zipIdx.map Prod.snd).Nodup := by
    rw [List.zipIdx_map_snd]
    exact List.nodup_range'
  exact hall.sublist (List.filter_sublist.map _)

theorem length_rarestFirst (uses : List Nat) : (rarestFirst uses).length ≤ uses.length := by
  rw [rarestFirst, List.length_mergeSort]
  exact Nat.le_trans (List.length_filter_le _ _) (Nat.le_of_eq List.length_zipIdx)

section

variable {limit : Nat} {uses : List Nat}

theorem limitedCounts_spec (hlimit : limit ≠ 0) (hne : uses ≠ [])
    (hfew : uses.length ≤ 2 ^ limit) :
    (limitedCounts limit (depths uses)).length = limit ∧
      (limitedCounts limit (depths uses)).sum = uses.length ∧
      room (limitedCounts limit (depths uses)) =
        2 ^ if uses.length = 1 then limit - 1 else limit := by
  by_cases hone : uses.length = 1
  · obtain ⟨n, rfl⟩ := List.length_eq_one_iff.mp hone
    have hdeep : ∀ d ∈ [1], 1 ≤ d := by decide
    obtain ⟨hlength, hroom, hsum, -⟩ := countsUpTo_spec hlimit hdeep
    have hcut : cutRoom limit [1] = 2 ^ (limit - 1) := by
      rw [cutRoom, List.map_singleton, List.sum_singleton, Nat.min_eq_left (by omega)]
    have hless : 2 ^ (limit - 1) ≤ 2 ^ limit := Nat.pow_le_pow_right Nat.two_pos (Nat.sub_le _ _)
    have hsame : limitedCounts limit (depths [n]) = countsUpTo limit [1] := by
      rw [limitedCounts, depths, hroom, hcut, Nat.one_shiftLeft, Nat.sub_eq_zero_of_le hless]
      rfl
    rw [hsame, if_pos hone, hroom, hcut]
    exact ⟨hlength, hsum, rfl⟩
  · have htwo : 2 ≤ uses.length := by
      have := List.length_pos_iff.mpr hne
      omega
    obtain ⟨hfull, hcount, hdeep⟩ := depths_full htwo
    obtain ⟨hlength, hroom, hsum⟩ := room_limitedCounts hlimit hfull hdeep (by rwa [hcount])
    rw [if_neg hone]
    exact ⟨hlength, hsum.trans hcount, hroom⟩

/-- The symbols that are used, each with the length that it is given. -/
def given (limit : Nat) (uses : List Nat) : List (Nat × Nat) :=
  ((rarestFirst uses).reverse.map Prod.snd).zip
    (spread limit (limitedCounts limit (depths ((rarestFirst uses).map Prod.fst))))

theorem given_spec (hlimit : limit ≠ 0) (hle : limit ≤ CodeTree.maxLength)
    (hsize : uses.length ≤ 2 ^ limit) (hne : rarestFirst uses ≠ []) :
    (given limit uses).map Prod.fst = (rarestFirst uses).reverse.map Prod.snd ∧
      (∀ e ∈ given limit uses, 1 ≤ e.2 ∧ e.2 ≤ limit) ∧
      ((given limit uses).map fun e => share e.2).sum = 2 ^ (CodeTree.maxLength -
        if (rarestFirst uses).length = 1 then 1 else 0) := by
  have hfew : ((rarestFirst uses).map Prod.fst).length ≤ 2 ^ limit := by
    rw [List.length_map]
    exact Nat.le_trans (length_rarestFirst uses) hsize
  obtain ⟨hlength, hsum, hroom⟩ := limitedCounts_spec hlimit
    (fun hnil => hne (List.map_eq_nil_iff.mp hnil)) hfew
  rw [List.length_map] at hsum hroom
  rw [given]
  generalize limitedCounts limit (depths ((rarestFirst uses).map Prod.fst)) = counts at *
  have hspread : (spread limit counts).length = ((rarestFirst uses).reverse.map Prod.snd).length := by
    rw [length_spread, hsum, List.length_map, List.length_reverse]
  have hrange : ∀ l ∈ spread limit counts, 1 ≤ l ∧ l ≤ limit := fun l hl =>
    mem_spread (Nat.le_of_eq hlength) hl
  refine ⟨List.map_fst_zip (Nat.le_of_eq hspread.symm), ?_, ?_⟩
  · intro e he
    exact hrange e.2 (List.of_mem_zip he).2
  · have hvalues : ((((rarestFirst uses).reverse.map Prod.snd).zip (spread limit counts)).map
        fun e => share e.2) = (spread limit counts).map share := by
      have hsnd := List.map_snd_zip (Nat.le_of_eq hspread)
      conv_rhs => rw [← hsnd, List.map_map]
      rfl
    have hshare : (spread limit counts).map share =
        (spread limit counts).map fun l => 2 ^ (CodeTree.maxLength - l) := by
      refine List.map_congr_left fun l hl => ?_
      rw [share, if_neg (by have := hrange l hl; omega)]
    rw [hvalues, hshare, sum_spread (Nat.le_of_eq hlength) hle, hroom, ← Nat.pow_add]
    congr 1
    split <;> omega

theorem ofUses_eq (limit : Nat) (uses : List Nat) :
    ofUses limit uses =
      (given limit uses).foldl (fun out e => out.set e.1 e.2) (List.replicate uses.length 0) := by
  rw [ofUses, assign_eq]
  rfl

theorem ofUses_of_unused (h : rarestFirst uses = []) :
    ofUses limit uses = List.replicate uses.length 0 := by
  have hnone : given limit uses = [] := by
    rw [given, h]
    rfl
  rw [ofUses_eq, hnone, List.foldl_nil]

section

variable (hlimit : limit ≠ 0) (hle : limit ≤ CodeTree.maxLength) (hsize : uses.length ≤ 2 ^ limit)
  (hne : rarestFirst uses ≠ [])

include hlimit hle hsize hne

theorem mem_keys_given {i : Nat} :
    i ∈ (given limit uses).map Prod.fst ↔ ∃ n, uses[i]? = some n ∧ n ≠ 0 := by
  obtain ⟨hkeys, -, -⟩ := given_spec hlimit hle hsize hne
  rw [hkeys, List.map_reverse, List.mem_reverse, List.mem_map]
  constructor
  · rintro ⟨⟨n, i⟩, hni, rfl⟩
    exact ⟨n, mem_rarestFirst.mp hni⟩
  · rintro ⟨n, hn⟩
    exact ⟨(n, i), mem_rarestFirst.mpr hn, rfl⟩

/-- What is given stands where it was put, and takes all the room; elsewhere there is nothing. -/
theorem ofUses_of_given :
    (ofUses limit uses).length = uses.length ∧
      CodeTree.filled (ofUses limit uses) =
        2 ^ (CodeTree.maxLength - if (rarestFirst uses).length = 1 then 1 else 0) ∧
      (∀ e ∈ given limit uses, (ofUses limit uses)[e.1]? = some e.2) ∧
      ∀ i l, (ofUses limit uses)[i]? = some l → l = 0 ∨ (i, l) ∈ given limit uses := by
  obtain ⟨hkeys, -, hshare⟩ := given_spec hlimit hle hsize hne
  have hdistinct : ((given limit uses).map Prod.fst).Nodup := by
    rw [hkeys, List.map_reverse, List.nodup_reverse]
    exact nodup_rarestFirst uses
  have hfree : ∀ e ∈ given limit uses, (List.replicate uses.length 0)[e.1]? = some 0 := by
    intro e he
    obtain ⟨n, hn, -⟩ := (mem_keys_given hlimit hle hsize hne).mp (List.mem_map_of_mem he)
    rw [List.getElem?_replicate, if_pos (List.getElem?_eq_some_iff.mp hn).1]
  obtain ⟨hlength, hsum, hsame, hset⟩ := foldl_set_spec hdistinct hfree
  have hzero : ((List.replicate uses.length 0).map share).sum = 0 := by
    rw [List.map_replicate, List.sum_replicate_nat]
    rfl
  rw [← ofUses_eq] at hlength hsum hsame hset
  rw [List.length_replicate] at hlength
  rw [hzero, Nat.zero_add, hshare, ← CodeTree.filled_eq] at hsum
  refine ⟨hlength, hsum, hset, fun i l hl => ?_⟩
  by_cases hi : i ∈ (given limit uses).map Prod.fst
  · obtain ⟨e, he, rfl⟩ := List.mem_map.mp hi
    rw [hset e he] at hl
    obtain rfl := Option.some.inj hl
    exact .inr he
  · rw [hsame i hi, List.getElem?_replicate] at hl
    split at hl
    · exact .inl (Option.some.inj hl).symm
    · cases hl

/-- A symbol that is used alone has a word of a single bit. -/
theorem isSingle_ofUses (hone : (rarestFirst uses).length = 1) :
    CodeTree.isSingle (ofUses limit uses) = true := by
  obtain ⟨hkeys, hrange, hshare⟩ := given_spec hlimit hle hsize hne
  have hcount : (given limit uses).length = 1 := by
    rw [← List.length_map, hkeys, List.length_map, List.length_reverse, hone]
  obtain ⟨e, he⟩ := List.length_eq_one_iff.mp hcount
  have hmem : e ∈ given limit uses := he ▸ List.mem_singleton_self e
  have hword := hrange e hmem
  have hlast : e.2 = 1 := by
    rw [he, List.map_singleton, List.sum_singleton, if_pos hone, share,
      if_neg (by omega)] at hshare
    have hpow := Nat.pow_right_injective (Nat.le_refl 2) hshare
    omega
  have hlt : e.1 < uses.length := by
    obtain ⟨n, hn, -⟩ := (mem_keys_given hlimit hle hsize hne).mp (List.mem_map_of_mem hmem)
    exact (List.getElem?_eq_some_iff.mp hn).1
  rw [ofUses_eq, he, List.foldl_cons, List.foldl_nil, hlast, CodeTree.isSingle,
    List.set_eq_take_append_cons_drop, if_pos (by rwa [List.length_replicate])]
  simp

end

/-- A code that is made for uses can be used, and everything that is used has a word. -/
theorem ofUses_spec (hlimit : limit ≠ 0) (hle : limit ≤ CodeTree.maxLength)
    (hsize : uses.length ≤ 2 ^ limit) :
    (ofUses limit uses).length = uses.length ∧ (∀ l ∈ ofUses limit uses, l ≤ limit) ∧
      (∀ i n : Nat, uses[i]? = some n → n ≠ 0 → ∃ l, (ofUses limit uses)[i]? = some l ∧ l ≠ 0) ∧
      (2 ≤ (rarestFirst uses).length → CodeTree.isComplete (ofUses limit uses) = true) ∧
      (CodeTree.isComplete (ofUses limit uses) = true ∨
        CodeTree.isSingle (ofUses limit uses) = true) := by
  by_cases hne : rarestFirst uses = []
  · rw [ofUses_of_unused hne, hne]
    refine ⟨List.length_replicate, ?_, ?_, ?_, .inr ?_⟩
    · intro l hl
      rw [(List.mem_replicate.mp hl).2]
      exact Nat.zero_le limit
    · intro i n hn hused
      have hmem := mem_rarestFirst.mpr ⟨hn, hused⟩
      rw [hne] at hmem
      cases hmem
    · intro htwo
      cases htwo
    · simp [CodeTree.isSingle]
  · obtain ⟨-, hrange, -⟩ := given_spec hlimit hle hsize hne
    obtain ⟨hlength, hfilled, hset, hcases⟩ := ofUses_of_given hlimit hle hsize hne
    have hcomplete : (rarestFirst uses).length ≠ 1 →
        CodeTree.isComplete (ofUses limit uses) = true := by
      intro hone
      rw [CodeTree.isComplete, decide_eq_true_eq, Nat.one_shiftLeft, hfilled, if_neg hone,
        Nat.sub_zero]
    refine ⟨hlength, ?_, ?_, fun htwo => hcomplete (by omega), ?_⟩
    · intro l hl
      obtain ⟨i, hi⟩ := List.mem_iff_getElem?.mp hl
      rcases hcases i l hi with rfl | he
      · exact Nat.zero_le limit
      · exact (hrange _ he).2
    · intro i n hn hused
      obtain ⟨e, he, rfl⟩ :=
        List.mem_map.mp ((mem_keys_given hlimit hle hsize hne).mpr ⟨n, hn, hused⟩)
      have hpos := (hrange e he).1
      exact ⟨e.2, hset e he, by omega⟩
    · by_cases hone : (rarestFirst uses).length = 1
      · exact .inr (isSingle_ofUses hlimit hle hsize hne hone)
      · exact .inl (hcomplete hone)

end

end Telemetry.Gzip.CodeLengths
