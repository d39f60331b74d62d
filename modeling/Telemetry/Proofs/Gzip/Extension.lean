/-
Streams that go on.

What is read of a stream does not depend on what comes behind it: an item that is there, or that
makes no sense, is the same when the stream goes on (`Gzip.Steady`); only one that is cut short may
turn out to be anything.  Readers that are built from such readers are such readers again
(`Steady.bind`), so this is shown for a single bit first and for an item in the end
(`Gzip.steady_read`).

Every item takes something of a stream: bits, or the end of a stored block.
-/
import Telemetry.Gzip.Inflate

namespace Telemetry.Gzip

/-- An outcome on a stream, next to the outcome on a stream that goes on; `grow` says how a value
changes with the stream that is left, and `P` holds of the value. -/
inductive Steady {α : Type} (grow : α → α) (P : α → Prop) : Except Stop α → Except Stop α → Prop
  | ok {a : α} : P a → Steady grow P (.ok a) (.ok (grow a))
  | corrupt : Steady grow P (.error .corrupt) (.error .corrupt)
  | truncated {later : Except Stop α} : Steady grow P (.error .truncated) later

namespace Steady

variable {α β : Type} {grow : α → α} {grow' : β → β} {P : α → Prop} {Q : β → Prop}

theorem bind {x y : Except Stop α} {f g : α → Except Stop β} (h : Steady grow P x y)
    (hf : ∀ a, P a → Steady grow' Q (f a) (g (grow a))) :
    Steady grow' Q (x >>= f) (y >>= g) := by
  cases h with
  | ok ha => exact hf _ ha
  | corrupt => exact .corrupt
  | truncated => exact .truncated

theorem ite {p : Prop} [Decidable p] {x y x' y' : Except Stop α} (h : Steady grow P x y)
    (h' : Steady grow P x' y') : Steady grow P (if p then x else x') (if p then y else y') := by
  split
  · exact h
  · exact h'

theorem imp {Q : α → Prop} {x y : Except Stop α} (h : Steady grow P x y) (hPQ : ∀ a, P a → Q a) :
    Steady grow Q x y := by
  cases h with
  | ok ha => exact .ok (hPQ _ ha)
  | corrupt => exact .corrupt
  | truncated => exact .truncated

theorem elim {x y : Except Stop α} (h : Steady grow P x y) :
    (∃ a, P a ∧ x = .ok a ∧ y = .ok (grow a)) ∨ (x = .error .corrupt ∧ y = .error .corrupt) ∨
      x = .error .truncated := by
  cases h with
  | ok ha => exact .inl ⟨_, ha, rfl, rfl⟩
  | corrupt => exact .inr (.inl ⟨rfl, rfl⟩)
  | truncated => exact .inr (.inr rfl)

theorem same {x : Except Stop α} (h : ∀ a, x = .ok a → P a) : Steady id P x x := by
  cases x with
  | ok a => exact .ok (h a rfl)
  | error stop =>
      cases stop with
      | truncated => exact .truncated
      | corrupt => exact .corrupt

end Steady

/-! ## Bits -/

namespace Bits

def extend (more : Bytes) (s : Bits) : Bits := ⟨s.bytes ++ more, s.spent⟩

/-- Only an octet that is there is partly spent. -/
structure Sound (s : Bits) : Prop where
  spent : s.spent < 8
  empty : s.bytes = [] → s.spent = 0

/-- How many bits are still to be read. -/
def left (s : Bits) : Nat := 8 * s.bytes.length - s.spent

/-- What is at least `n` bits behind. -/
structure Behind (n : Nat) (s t : Bits) : Prop where
  sound : t.Sound
  left : t.left + n ≤ s.left

theorem Behind.trans {m n : Nat} {s t u : Bits} (h : Behind m s t) (h' : Behind n t u) :
    Behind (m + n) s u := by
  refine ⟨h'.sound, ?_⟩
  have := h.left
  have := h'.left
  omega

theorem Behind.weaken {m n : Nat} {s t : Bits} (h : Behind n s t) (hle : m ≤ n) : Behind m s t :=
  ⟨h.sound, Nat.le_trans (Nat.add_le_add_left hle _) h.left⟩

theorem sound_octets (b : Bytes) : Sound ⟨b, 0⟩ := ⟨Nat.zero_lt_succ 7, fun _ => rfl⟩

theorem Sound.behind {s : Bits} (h : s.Sound) : Behind 0 s s := ⟨h, Nat.le_refl _⟩

theorem left_extend {s : Bits} (h : s.Sound) (more : Bytes) :
    (s.extend more).left = s.left + 8 * more.length := by
  obtain ⟨bytes, spent⟩ := s
  have hspent : spent ≤ 8 * bytes.length := by
    cases bytes with
    | nil =>
        have := h.empty rfl
        simp only at this
        omega
    | cons x rest =>
        have := h.spent
        simp only [List.length_cons] at this ⊢
        omega
  simp only [left, extend, List.length_append]
  omega

theorem Sound.extend {s : Bits} (h : s.Sound) (more : Bytes) : (s.extend more).Sound :=
  ⟨h.spent, fun hnil => h.empty (List.append_eq_nil_iff.mp hnil).1⟩

theorem rest_extend {s : Bits} (h : s.Sound) (more : Bytes) :
    (s.extend more).rest = s.rest ++ more := by
  obtain ⟨bytes, spent⟩ := s
  change (if spent = 0 then bytes ++ more else (bytes ++ more).tail) =
    (if spent = 0 then bytes else bytes.tail) ++ more
  by_cases hspent : spent = 0
  · rw [if_pos hspent, if_pos hspent]
  · rw [if_neg hspent, if_neg hspent]
    cases bytes with
    | nil => exact absurd (h.empty rfl) hspent
    | cons x bytes => rfl

theorem next_cons (x : UInt8) (rest : Bytes) (spent : Nat) :
    next ⟨x :: rest, spent⟩ =
      if spent < 7 then .ok (decide ((x.toNat >>> spent) % 2 = 1), ⟨x :: rest, spent + 1⟩)
      else .ok (decide ((x.toNat >>> spent) % 2 = 1), ⟨rest, 0⟩) := rfl

/-- What a reader yields beside the rest of the stream stays, and the rest goes on. -/
def carry {α : Type} (more : Bytes) (a : α × Bits) : α × Bits := (a.1, a.2.extend more)

section

variable {s : Bits} (hs : s.Sound) (more : Bytes)

include hs

theorem steady_next :
    Steady (carry more) (fun a => Behind 1 s a.2) s.next (s.extend more).next := by
  obtain ⟨bytes, spent⟩ := s
  cases bytes with
  | nil => exact .truncated
  | cons x rest =>
      have hspent : spent < 8 := hs.spent
      rw [next_cons, extend, List.cons_append, next_cons]
      by_cases hlast : spent < 7
      · rw [if_pos hlast, if_pos hlast]
        refine .ok ⟨⟨Nat.succ_lt_succ hlast, nofun⟩, ?_⟩
        simp only [left, List.length_cons]
        omega
      · rw [if_neg hlast, if_neg hlast]
        refine .ok ⟨sound_octets rest, ?_⟩
        simp only [left, List.length_cons]
        omega

theorem steady_number (n : Nat) :
    Steady (carry more) (fun a => Behind n s a.2) (number n s) (number n (s.extend more)) := by
  induction n generalizing s with
  | zero => exact .ok hs.behind
  | succ n ih =>
      rw [number, number]
      refine (steady_next hs more).bind fun ⟨bit, t⟩ ht => ?_
      refine (ih ht.sound).bind fun ⟨high, u⟩ hu => .ok ?_
      exact (ht.trans hu).weaken (Nat.le_of_eq (Nat.add_comm n 1))

theorem behind_align : Behind 0 s s.align := by
  obtain ⟨bytes, spent⟩ := s
  refine ⟨sound_octets _, ?_⟩
  have hspent := hs.spent
  simp only [left, align, rest, Nat.add_zero, Nat.sub_zero] at hspent ⊢
  split
  · omega
  · rw [List.length_tail]
    omega

theorem align_extend : (s.extend more).align = s.align.extend more := by
  rw [align, align, rest_extend hs]
  rfl

end

end Bits

/-! ## Codes -/

namespace CodeTree

theorem read_branch (zero one : CodeTree) (s : Bits) :
    (branch zero one).read s = s.next >>= fun a => (if a.1 then one else zero).read a.2 := by
  rw [read]
  cases s.next with
  | error stop => rfl
  | ok a =>
      obtain ⟨bit, t⟩ := a
      cases bit <;> rfl

/-- A tree with more than a single word, which takes no bit, or with none. -/
def IsCode (tree : CodeTree) : Prop := ∀ value, tree ≠ .symbol value

theorem isCode_of_mem_pairs {trees : List CodeTree} {tree : CodeTree} (h : tree ∈ pairs trees) :
    tree.IsCode := by
  induction trees using pairs.induct with
  | case1 a b rest ih =>
      rw [pairs] at h
      rcases List.mem_cons.mp h with rfl | hrest
      · exact nofun
      · exact ih hrest
  | case2 a =>
      rw [pairs] at h
      obtain rfl := List.mem_singleton.mp h
      exact nofun
  | case3 => exact absurd h List.not_mem_nil

theorem isCode_of_ofLengths {lengths : List Nat} {tree : CodeTree}
    (h : ofLengths lengths = .ok tree) : tree.IsCode := by
  rw [ofLengths] at h
  split at h
  · obtain rfl := Except.ok.inj h
    generalize level lengths (maxLength - 1) = trees
    cases hpairs : pairs trees with
    | nil => exact nofun
    | cons tree rest =>
        have hmem : tree ∈ pairs trees := by
          rw [hpairs]
          exact List.mem_cons_self
        exact isCode_of_mem_pairs hmem
  · cases h

open Bits (carry Behind)

section

variable {s : Bits} (hs : s.Sound) (more : Bytes)

include hs

theorem steady_read (tree : CodeTree) :
    Steady (carry more) (fun a => Behind 0 s a.2) (tree.read s) (tree.read (s.extend more)) := by
  induction tree generalizing s with
  | vacant => exact .corrupt
  | symbol value => exact .ok hs.behind
  | branch zero one ihzero ihone =>
      rw [read_branch, read_branch]
      refine (Bits.steady_next hs more).bind fun ⟨bit, t⟩ ht => ?_
      cases bit with
      | false => exact (ihzero ht.sound).imp fun a ha => (ht.trans ha).weaken (Nat.zero_le _)
      | true => exact (ihone ht.sound).imp fun a ha => (ht.trans ha).weaken (Nat.zero_le _)

/-- A word of a code takes a bit at least. -/
theorem IsCode.steady_read {tree : CodeTree} (h : tree.IsCode) :
    Steady (carry more) (fun a => Behind 1 s a.2) (tree.read s) (tree.read (s.extend more)) := by
  cases tree with
  | vacant => exact .corrupt
  | symbol value => exact absurd rfl (h value)
  | branch zero one =>
      rw [read_branch, read_branch]
      refine (Bits.steady_next hs more).bind fun ⟨bit, t⟩ ht => ?_
      exact (CodeTree.steady_read ht.sound more _).imp fun a ha => ht.trans ha

end

end CodeTree

/-! ## Blocks -/

namespace Cursor

open Bits (carry Behind)

def carryTwo {α β : Type} (more : Bytes) (a : α × β × Bits) : α × β × Bits :=
  (a.1, a.2.1, a.2.2.extend more)

section

variable {s : Bits} (hs : s.Sound) (more : Bytes)

include hs

theorem steady_shortNumbers (n : Nat) :
    Steady (carry more) (fun a => Behind 0 s a.2) (shortNumbers n s)
      (shortNumbers n (s.extend more)) := by
  induction n generalizing s with
  | zero => exact .ok hs.behind
  | succ n ih =>
      rw [shortNumbers, shortNumbers]
      refine (Bits.steady_number hs more 3).bind fun ⟨x, t⟩ ht => ?_
      refine (ih ht.sound).bind fun ⟨xs, u⟩ hu => .ok ?_
      exact (ht.trans hu).weaken (Nat.zero_le _)

theorem steady_wordLengths (tree : CodeTree) (count fuel : Nat) (done : List Nat) :
    Steady (carry more) (fun a => Behind 0 s a.2) (wordLengths tree count fuel done s)
      (wordLengths tree count fuel done (s.extend more)) := by
  induction fuel generalizing s done with
  | zero =>
      rw [wordLengths, wordLengths]
      exact .ite (.ok hs.behind) .corrupt
  | succ fuel ih =>
      -- A symbol may be followed by a number of some bits, which says how often it counts.
      have hnumber : ∀ {t : Bits} (n : Nat) (next : Nat → List Nat), Behind 0 s t →
          Steady (carry more) (fun a => Behind 0 s a.2)
            (Bits.number n t >>= fun a => wordLengths tree count fuel (next a.1) a.2)
            (Bits.number n (t.extend more) >>= fun a =>
              wordLengths tree count fuel (next a.1) a.2) := by
        intro t n next ht
        refine (Bits.steady_number ht.sound more n).bind fun a ha => ?_
        exact (ih ha.sound (next a.1)).imp fun b hb =>
          ((ht.trans ha).trans hb).weaken (Nat.zero_le _)
      rw [wordLengths, wordLengths]
      refine .ite (.ok hs.behind) (.ite .corrupt ?_)
      refine (CodeTree.steady_read hs more tree).bind fun ⟨symbol, t⟩ ht => ?_
      refine .ite ?_ (.ite ?_ (.ite ?_ ?_))
      · exact (ih ht.sound _).imp fun a ha => ht.trans ha
      · cases done with
        | nil => exact .corrupt
        | cons latest done =>
            exact hnumber 2 (fun n => List.replicate (3 + n) latest ++ latest :: done) ht
      · exact hnumber 3 (fun n => List.replicate (3 + n) 0 ++ done) ht
      · exact hnumber 7 (fun n => List.replicate (11 + n) 0 ++ done) ht

theorem steady_writtenCodes :
    Steady (carryTwo more) (fun a => a.1.IsCode ∧ Behind 0 s a.2.2) (writtenCodes s)
      (writtenCodes (s.extend more)) := by
  rw [writtenCodes, writtenCodes]
  refine (Bits.steady_number hs more 5).bind fun ⟨literals, t⟩ ht => ?_
  refine (Bits.steady_number ht.sound more 5).bind fun ⟨distances, u⟩ hu => ?_
  refine (Bits.steady_number hu.sound more 4).bind fun ⟨written, v⟩ hv => ?_
  refine .ite .corrupt ?_
  refine (steady_shortNumbers hv.sound more _).bind fun ⟨short, w⟩ hw => ?_
  refine .ite ?_ .corrupt
  refine (Steady.same fun _ h => CodeTree.isCode_of_ofLengths h).bind fun tree _ => ?_
  refine (steady_wordLengths hw.sound more tree _ _ _).bind fun ⟨lengths, x⟩ hx => ?_
  refine (Steady.same fun _ h => CodeTree.isCode_of_ofLengths h).bind fun first hfirst => ?_
  refine (Steady.same fun _ h => CodeTree.isCode_of_ofLengths h).bind fun second _ => ?_
  refine .ok ⟨hfirst, ?_⟩
  exact ((((ht.trans hu).trans hv).trans hw).trans hx).weaken (Nat.zero_le _)

theorem steady_storedLength :
    Steady (carry more) (fun a => Behind 0 s a.2) (storedLength s)
      (storedLength (s.extend more)) := by
  have halign := Bits.behind_align hs
  rw [storedLength, storedLength, Bits.align_extend hs]
  refine (Bits.steady_number halign.sound more 16).bind fun ⟨length, t⟩ ht => ?_
  refine (Bits.steady_number ht.sound more 16).bind fun ⟨check, u⟩ hu => ?_
  exact .ite (.ok (((halign.trans ht).trans hu).weaken (Nat.zero_le _))) .corrupt

theorem steady_readCopy (distances : CodeTree) (symbol : Nat) :
    Steady (carryTwo more) (fun a => Behind 0 s a.2.2) (readCopy distances symbol s)
      (readCopy distances symbol (s.extend more)) := by
  rw [readCopy, readCopy]
  obtain ⟨base, bits⟩ := lengthBase symbol
  refine (Bits.steady_number hs more bits).bind fun ⟨longer, t⟩ ht => ?_
  refine (CodeTree.steady_read ht.sound more distances).bind fun ⟨far, u⟩ hu => ?_
  refine .ite .corrupt ?_
  dsimp only [carry]
  obtain ⟨least, bits⟩ := distanceBase far
  refine (Bits.steady_number hu.sound more bits).bind fun ⟨further, v⟩ hv => .ok ?_
  exact ((ht.trans hu).trans hv).weaken (Nat.zero_le _)

end

/-- Literals are under a code, whose words take bits. -/
def IsCoded : Mode → Prop
  | .coded literals _ => literals.IsCode
  | _ => True

theorem isCode_of_fixedCodes {codes : CodeTree × CodeTree} (h : fixedCodes = .ok codes) :
    codes.1.IsCode := by
  rw [fixedCodes] at h
  cases hfirst : CodeTree.ofLengths fixedLiterals with
  | error stop =>
      rw [hfirst] at h
      cases h
  | ok first =>
      rw [hfirst] at h
      cases hsecond : CodeTree.ofLengths fixedDistances with
      | error stop =>
          rw [hsecond] at h
          cases h
      | ok second =>
          rw [hsecond] at h
          obtain rfl := Except.ok.inj h
          exact CodeTree.isCode_of_ofLengths hfirst

theorem steady_openBlock {s : Bits} (hs : s.Sound) (more : Bytes) :
    Steady (carryTwo more) (fun a => IsCoded a.2.1 ∧ Behind 1 s a.2.2) (openBlock s)
      (openBlock (s.extend more)) := by
  rw [openBlock, openBlock]
  refine (Bits.steady_next hs more).bind fun ⟨final, t⟩ ht => ?_
  refine (Bits.steady_number ht.sound more 2).bind fun ⟨kind, u⟩ hu => ?_
  have hopen := ht.trans hu
  refine .ite ?_ (.ite ?_ (.ite ?_ .corrupt))
  · refine (steady_storedLength hu.sound more).bind fun ⟨length, v⟩ hv => ?_
    exact .ok ⟨trivial, (hopen.trans hv).weaken (by decide)⟩
  · refine (Steady.same fun _ h => isCode_of_fixedCodes h).bind fun ⟨first, second⟩ hfirst => ?_
    exact .ok ⟨hfirst, hopen.weaken (by decide)⟩
  · refine (steady_writtenCodes hu.sound more).bind fun ⟨first, second, v⟩ hv => ?_
    exact .ok ⟨hv.1, (hopen.trans hv.2).weaken (by decide)⟩

/-! ## Items -/

/-- A place in a stream where something can be read. -/
structure Sound (c : Cursor) : Prop where
  bits : c.bits.Sound
  mode : IsCoded c.mode

theorem Sound.extend {c : Cursor} (hc : c.Sound) (more : Bytes) : (c.extend more).Sound :=
  ⟨hc.bits.extend more, hc.mode⟩

/-- How much is still to be read: two for a bit, and one for the end of a stored block. -/
def toRead (c : Cursor) : Nat :=
  2 * c.bits.left + match c.mode with
    | .stored _ => 1
    | _ => 0

theorem toRead_le (c : Cursor) : c.toRead ≤ 2 * c.bits.left + 1 := by
  rw [toRead]
  split <;> omega

theorem isCoded_blockEnd (final : Bool) : IsCoded (blockEnd final) := by
  cases final <;> trivial

theorem toRead_lt {c d : Cursor} {n : Nat} (h : Behind (n + 1) c.bits d.bits) :
    d.toRead < c.toRead := by
  have hleft := h.left
  have hd := d.toRead_le
  have hc : 2 * c.bits.left ≤ c.toRead := Nat.le_add_right _ _
  omega

theorem readCoded_eq (literals distances : CodeTree) (final : Bool) (s : Bits) :
    readCoded literals distances final s = literals.read s >>= fun a =>
      if a.1 < 256 then
        .ok (.literal (UInt8.ofNat a.1), ⟨a.2, final, .coded literals distances⟩)
      else if a.1 = 256 then .ok (.nothing, ⟨a.2, final, blockEnd final⟩)
      else if 285 < a.1 then .error .corrupt
      else readCopy distances a.1 a.2 >>= fun b =>
        .ok (.copy b.1 b.2.1, ⟨b.2.2, final, .coded literals distances⟩) := by
  rw [readCoded]
  cases literals.read s with
  | error stop => rfl
  | ok a =>
      obtain ⟨symbol, t⟩ := a
      change (if symbol < 256 then _ else _) = if symbol < 256 then _ else _
      cases readCopy distances symbol t <;> rfl

theorem read_header (s : Bits) (final : Bool) :
    read ⟨s, final, .header⟩ = openBlock s >>= fun a => .ok (.nothing, ⟨a.2.2, a.1, a.2.1⟩) := by
  rw [read]
  cases openBlock s <;> rfl

/-- As `Bits.carry`, for an item. -/
def carryItem (more : Bytes) (a : Item × Cursor) : Item × Cursor := (a.1, a.2.extend more)

/-- What an item is, and where it ends, does not depend on what comes behind it. -/
theorem steady_read {c : Cursor} (hc : c.Sound) (hdone : c.isDone = false) (more : Bytes) :
    Steady (carryItem more) (fun a => a.2.Sound ∧ a.2.toRead < c.toRead) c.read
      (c.extend more).read := by
  obtain ⟨s, final, mode⟩ := c
  have hs : s.Sound := hc.bits
  cases mode with
  | done => cases hdone
  | header =>
      change Steady _ _ (read ⟨s, final, .header⟩) (read ⟨s.extend more, final, .header⟩)
      rw [read_header, read_header]
      refine (steady_openBlock hs more).bind fun ⟨final, mode, t⟩ ht => ?_
      exact .ok ⟨⟨ht.2.sound, ht.1⟩, toRead_lt ht.2⟩
  | stored left =>
      cases left with
      | zero =>
          refine .ok ⟨⟨hs, isCoded_blockEnd final⟩, ?_⟩
          cases final <;> exact Nat.lt_succ_self _
      | succ left =>
          obtain ⟨bytes, spent⟩ := s
          cases bytes with
          | nil => exact .truncated
          | cons x rest =>
              refine .ok ⟨⟨Bits.sound_octets rest, trivial⟩, toRead_lt (n := 0) ?_⟩
              refine ⟨Bits.sound_octets rest, ?_⟩
              have hspent : spent < 8 := hs.spent
              simp only [Bits.left, List.length_cons]
              omega
  | coded literals distances =>
      have hcode : literals.IsCode := hc.mode
      change Steady _ _ (readCoded literals distances final s)
        (readCoded literals distances final (s.extend more))
      rw [readCoded_eq, readCoded_eq]
      refine (hcode.steady_read hs more).bind fun ⟨symbol, t⟩ ht => ?_
      refine .ite ?_ (.ite ?_ (.ite .corrupt ?_))
      · exact .ok ⟨⟨ht.sound, hcode⟩, toRead_lt ht⟩
      · exact .ok ⟨⟨ht.sound, isCoded_blockEnd final⟩, toRead_lt ht⟩
      · refine (steady_readCopy ht.sound more distances symbol).bind
          fun ⟨length, distance, u⟩ hu => ?_
        exact .ok ⟨⟨hu.sound, hcode⟩, toRead_lt (n := 0) (ht.trans hu)⟩

end Cursor

end Telemetry.Gzip
