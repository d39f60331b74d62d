/-
What a limit lets through.

A stream that is read as a whole, without a limit, gives its content and what is behind it
(`Gzip.Inflates`), and a member is a header, such a stream and the trailer of its content
(`Gzip.Member`).  Reading in pieces and up to a limit opens a member exactly when its content is
within the limit (`Gzip.gunzip_eq_ok_iff`): every item is the same in its piece as in the whole
stream (`Cursor.steady_read`), and there are fewer items and pieces than steps.

Content beyond the limit is refused as too long (`Gzip.limit_is_exact`), also where its trailer is
wrong; a member that is cut short anywhere is refused under every limit.
-/
import Telemetry.Gzip.Member
import Telemetry.Proofs.Gzip.Extension
import Telemetry.Proofs.Gzip.Octets

namespace Telemetry.Gzip

/-- Reading a stream to the end of its last block adds to the content; `behind` is what the stream
leaves. -/
inductive Inflates : Cursor → ByteArray → ByteArray → Bytes → Prop
  | done {c : Cursor} {out : ByteArray} : c.isDone = true → Inflates c out out c.bits.rest
  | item {c d : Cursor} {item : Item} {out content : ByteArray} {behind : Bytes} :
      c.isDone = false → c.read = .ok (item, d) → Inflates d (item.write out) content behind →
      Inflates c out content behind

/-- The octets behind the blocks of a member. -/
def trailerOf (b : Bytes) : Bytes :=
  Bytes.ofNatLE 4 (Crc32.checksum b).toNat ++ Bytes.ofNatLE 4 b.length

theorem length_trailerOf (b : Bytes) : (trailerOf b).length = 8 := by
  rw [trailerOf, List.length_append, Bytes.length_ofNatLE, Bytes.length_ofNatLE]

/-- What stands behind the header of `b` inflates to `content`. -/
def Holds (b content behind : Bytes) : Prop :=
  ∃ stream out, afterHeader? b = some stream ∧ Inflates (.start stream) ⟨#[]⟩ out behind ∧
    out.toList = content

/-- The octets begin with a member: behind its stream is the trailer of its content. -/
def Member (b content behind : Bytes) : Prop := Holds b content (trailerOf content ++ behind)

/-! ## Content grows -/

theorem size_repeatBack (distance n : Nat) (out : ByteArray) :
    (repeatBack distance n out).size = out.size + n := by
  induction n generalizing out with
  | zero => rfl
  | succ n ih =>
      rw [repeatBack, ih, ByteArray.size_push]
      omega

theorem Item.size_le_write (item : Item) (out : ByteArray) : out.size ≤ (item.write out).size := by
  cases item with
  | nothing => exact Nat.le_refl _
  | literal x =>
      rw [write, ByteArray.size_push]
      exact Nat.le_succ _
  | copy length distance =>
      rw [write, size_repeatBack]
      exact Nat.le_add_right _ _

namespace Inflates

variable {c : Cursor} {out content : ByteArray} {behind : Bytes}

theorem size_le (h : Inflates c out content behind) : out.size ≤ content.size := by
  induction h with
  | done => exact Nat.le_refl _
  | @item c d item out content behind _ _ _ ih => exact Nat.le_trans (item.size_le_write out) ih

/-- There is one way to read a stream. -/
theorem unique (h : Inflates c out content behind) {content' : ByteArray} {behind' : Bytes}
    (h' : Inflates c out content' behind') : content = content' ∧ behind = behind' := by
  induction h with
  | done hdone =>
      cases h' with
      | done => exact ⟨rfl, rfl⟩
      | item hmore =>
          rw [hdone] at hmore
          cases hmore
  | item hmore hread _ ih =>
      cases h' with
      | done hdone =>
          rw [hdone] at hmore
          cases hmore
      | item _ hread' hrest =>
          rw [hread] at hread'
          obtain ⟨rfl, rfl⟩ := Prod.mk.inj (Except.ok.inj hread')
          exact ih hrest

/-- Where a stream can be read, its next item can. -/
theorem read_ne_error (h : Inflates c out content behind) (hmore : c.isDone = false) {stop : Stop} :
    c.read ≠ .error stop := by
  intro hstop
  cases h with
  | done hdone => exact absurd (hdone.symm.trans hmore) nofun
  | item _ hread _ => cases hread.symm.trans hstop

theorem extend (h : Inflates c out content behind) (hc : c.Sound) (more : Bytes) :
    Inflates (c.extend more) out content (behind ++ more) := by
  induction h with
  | @done c out hdone =>
      have hrest : (c.extend more).bits.rest = c.bits.rest ++ more := Bits.rest_extend hc.bits more
      rw [← hrest]
      exact .done hdone
  | @item c d item out content behind hmore hread _ ih =>
      rcases (Cursor.steady_read hc hmore more).elim with
        ⟨a, ha, hshort, hlong⟩ | ⟨hshort, -⟩ | hshort
      · rw [hread] at hshort
        obtain rfl := Except.ok.inj hshort
        exact .item hmore hlong (ih ha.1)
      · rw [hread] at hshort
        cases hshort
      · rw [hread] at hshort
        cases hshort

end Inflates

/-! ## Pieces -/

namespace Inflation

theorem counted_le (size : Nat) : counted size ≤ size :=
  Nat.le_trans (Nat.div_mul_le_self _ _) (Nat.sub_le _ _)

/-- The stream that is left when its pieces are put together. -/
def whole (s : Inflation) : Cursor := s.cursor.extend s.later.flatten

/-- How much is still to be read, pieces counted. -/
def toRead (s : Inflation) : Nat := s.cursor.toRead + 16 * s.later.flatten.length + s.later.length

theorem rest_whole {s : Inflation} (hs : s.cursor.Sound) : s.whole.bits.rest = s.rest :=
  Bits.rest_extend hs.bits _

/-- A step on the way through a stream: the stream as a whole stays what it is. -/
structure Goes (s t : Inflation) : Prop where
  sound : t.cursor.Sound
  toRead : t.toRead < s.toRead
  inflates {content : ByteArray} {behind : Bytes} :
    Inflates t.whole t.out content behind ↔ Inflates s.whole s.out content behind

theorem Goes.item {c d : Cursor} {item : Item} {later : List Bytes} {out : ByteArray}
    (hmore : c.isDone = false) (hd : d.Sound ∧ d.toRead < c.toRead)
    (hread : (c.extend later.flatten).read = .ok (item, d.extend later.flatten)) :
    Goes ⟨c, later, out⟩ ⟨d, later, item.write out⟩ := by
  refine ⟨hd.1, ?_, fun {content behind} => ⟨.item hmore hread, fun h => ?_⟩⟩
  · have hless := hd.2
    simp only [Inflation.toRead]
    omega
  · cases h with
    | done hdone => exact absurd (hdone.symm.trans hmore) nofun
    | item _ hread' hrest =>
        obtain ⟨rfl, rfl⟩ := Prod.mk.inj (Except.ok.inj (hread'.symm.trans hread))
        exact hrest

theorem Goes.piece {c : Cursor} (hc : c.Sound) (piece : Bytes) (later : List Bytes)
    (out : ByteArray) : Goes ⟨c, piece :: later, out⟩ ⟨c.extend piece, later, out⟩ := by
  have hleft : (c.extend piece).bits.left = c.bits.left + 8 * piece.length :=
    Bits.left_extend hc.bits piece
  have hmode : (c.extend piece).mode = c.mode := rfl
  refine ⟨hc.extend piece, ?_, ?_⟩
  · simp only [Inflation.toRead, Cursor.toRead, hleft, hmode, List.flatten_cons,
      List.length_append, List.length_cons]
    omega
  · simp only [whole, Cursor.extend, List.flatten_cons, List.append_assoc, implies_true]

/-- What a step does: reading is over, there is too much content already, the stream cannot be
read on, or it is. -/
theorem run_succ_cases (limit fuel : Nat) {s : Inflation} (hs : s.cursor.Sound) :
    (s.cursor.isDone = true ∧ run limit (fuel + 1) s = (none, s)) ∨
      (limit < s.out.size ∧ run limit (fuel + 1) s = (none, s)) ∨
      (s.cursor.isDone = false ∧
        ∃ stop, s.whole.read = .error stop ∧ run limit (fuel + 1) s = (some stop, s)) ∨
      ∃ t, Goes s t ∧ run limit (fuel + 1) s = run limit fuel t := by
  obtain ⟨c, later, out⟩ := s
  rw [run]
  by_cases hdone : c.isDone = true
  · simp only [hdone, Bool.true_or, if_true, true_and]
    exact .inl trivial
  · rw [Bool.not_eq_true] at hdone
    simp only [hdone, Bool.false_or, decide_eq_true_eq]
    refine .inr ?_
    by_cases hcounted : limit < counted out.size
    · rw [if_pos hcounted]
      exact .inl ⟨Nat.lt_of_lt_of_le hcounted (counted_le out.size), rfl⟩
    · rw [if_neg hcounted]
      rcases (Cursor.steady_read hs hdone later.flatten).elim with
        ⟨⟨item, d⟩, hd, hread, hwhole⟩ | ⟨hread, hwhole⟩ | hread
      · simp only [hread]
        exact .inr (.inr ⟨_, .item hdone hd hwhole, rfl⟩)
      · simp only [hread]
        exact .inr (.inl ⟨trivial, _, hwhole, rfl⟩)
      · simp only [hread]
        by_cases hlong : limit < out.size
        · rw [if_pos hlong]
          exact .inl ⟨hlong, rfl⟩
        · rw [if_neg hlong]
          cases later with
          | nil =>
              have hwhole : (c.extend []).read = .error .truncated := by
                rw [Cursor.extend, List.append_nil]
                exact hread
              exact .inr (.inl ⟨trivial, _, hwhole, rfl⟩)
          | cons piece later => exact .inr (.inr ⟨_, .piece hs piece later out, rfl⟩)

/-- A stream that can be read as a whole is read in its pieces, unless there is more content than
the limit allows: then no more than that is found out. -/
theorem run_of_inflates {limit fuel : Nat} {s : Inflation} {content : ByteArray} {behind : Bytes}
    (hs : s.cursor.Sound) (hfuel : s.toRead < fuel) (h : Inflates s.whole s.out content behind) :
    ∃ t, run limit fuel s = (none, t) ∧
      ((limit < t.out.size ∧ limit < content.size) ∨ (t.out = content ∧ t.rest = behind)) := by
  -- By induction on the steps, of which there are more than there is to read.
  induction fuel generalizing s with
  | zero => exact absurd hfuel (Nat.not_lt_zero _)
  | succ fuel ih =>
      rcases run_succ_cases limit fuel hs with
        ⟨hdone, hrun⟩ | ⟨hlong, hrun⟩ | ⟨hmore, stop, hread, -⟩ | ⟨t, hgoes, hrun⟩
      · have hend : Inflates s.whole s.out s.out s.whole.bits.rest := .done hdone
        obtain ⟨hcontent, hbehind⟩ := hend.unique h
        exact ⟨s, hrun, .inr ⟨hcontent, (rest_whole hs).symm.trans hbehind⟩⟩
      · exact ⟨s, hrun, .inl ⟨hlong, Nat.lt_of_lt_of_le hlong h.size_le⟩⟩
      · exact absurd hread (h.read_ne_error hmore)
      · rw [hrun]
        exact ih hgoes.sound (Nat.lt_of_lt_of_le hgoes.toRead (Nat.le_of_lt_succ hfuel))
          (hgoes.inflates.mpr h)

/-- What was read in pieces to the end, within the limit, is what the whole stream gives. -/
theorem inflates_of_run {limit fuel : Nat} {s t : Inflation} (hs : s.cursor.Sound)
    (hrun : run limit fuel s = (none, t)) (hsize : t.out.size ≤ limit) :
    Inflates s.whole s.out t.out t.rest := by
  induction fuel generalizing s with
  | zero => cases hrun
  | succ fuel ih =>
      rcases run_succ_cases limit fuel hs with
        ⟨hdone, hstep⟩ | ⟨hlong, hstep⟩ | ⟨hmore, stop, -, hstep⟩ | ⟨u, hgoes, hstep⟩
      · obtain ⟨-, rfl⟩ := Prod.mk.inj (hstep.symm.trans hrun)
        rw [← rest_whole hs]
        exact .done hdone
      · obtain ⟨-, rfl⟩ := Prod.mk.inj (hstep.symm.trans hrun)
        exact absurd hsize (Nat.not_le.mpr hlong)
      · cases hstep.symm.trans hrun
      · exact hgoes.inflates.mp (ih hgoes.sound (hstep.symm.trans hrun))

end Inflation

/-! ## Members -/

theorem checksOut_iff {content trailer : Bytes} :
    checksOut content trailer = true ↔ ∃ behind, trailer = trailerOf content ++ behind := by
  rw [checksOut, decide_eq_true_iff, ← trailerOf]
  constructor
  · intro h
    exact ⟨trailer.drop 8, by rw [← h, List.take_append_drop]⟩
  · rintro ⟨behind, rfl⟩
    exact List.take_left' (length_trailerOf content)

theorem Inflation.sound_start (ps : List Bytes) : (Inflation.start ps).cursor.Sound :=
  ⟨Bits.sound_octets [], trivial⟩

theorem Inflation.stepBound_eq (pieces : List Bytes) :
    stepBound pieces = 16 + 16 * pieces.flatten.length + 16 * pieces.length := by
  have hfold : ∀ (ps : List Bytes) (n : Nat),
      ps.foldl (fun n piece => n + 16 * piece.length + 16) n =
        n + 16 * ps.flatten.length + 16 * ps.length := by
    intro ps
    induction ps with
    | nil => exact fun n => rfl
    | cons p ps ih =>
        intro n
        rw [List.foldl_cons, ih, List.flatten_cons, List.length_append, List.length_cons]
        omega
  exact hfold pieces 16

theorem Inflation.toRead_start (ps : List Bytes) : (Inflation.start ps).toRead < stepBound ps := by
  have hstart : (Inflation.start ps).toRead = 0 + 16 * ps.flatten.length + ps.length := rfl
  rw [hstart, stepBound_eq]
  omega

theorem flatten_pieces (header : Nat) (stream : Bytes) :
    (pieces header stream).flatten = stream := by
  rw [pieces, List.flatten_cons, Bytes.flatten_chunks (by decide), List.take_append_drop]

theorem Inflation.whole_start (header : Nat) (stream : Bytes) :
    (Inflation.start (pieces header stream)).whole = .start stream := by
  have hwhole : (Inflation.start (pieces header stream)).whole =
      .start (pieces header stream).flatten := rfl
  rw [hwhole, flatten_pieces]

theorem inflate_of_inflates (limit header : Nat) {stream behind : Bytes} {content : ByteArray}
    (h : Inflates (.start stream) ⟨#[]⟩ content behind) :
    ∃ s, Inflation.inflate limit (pieces header stream) = (none, s) ∧
      ((limit < s.out.size ∧ limit < content.size) ∨ (s.out = content ∧ s.rest = behind)) := by
  rw [← Inflation.whole_start header stream] at h
  exact Inflation.run_of_inflates (Inflation.sound_start _) (Inflation.toRead_start _) h

theorem inflates_of_inflate {limit header : Nat} {stream : Bytes} {s : Inflation}
    (h : Inflation.inflate limit (pieces header stream) = (none, s)) (hsize : s.out.size ≤ limit) :
    Inflates (.start stream) ⟨#[]⟩ s.out s.rest := by
  rw [← Inflation.whole_start header stream]
  exact Inflation.inflates_of_run (Inflation.sound_start _) h hsize

theorem exists_of_gunzip {limit : Nat} {b content : Bytes} (h : gunzip limit b = .ok content) :
    ∃ stream s, afterHeader? b = some stream ∧
      Inflation.inflate limit (pieces (b.length - stream.length) stream) = (none, s) ∧
      s.out.size ≤ limit ∧ s.out.toList = content ∧ checksOut content s.rest = true := by
  rw [gunzip] at h
  cases hstream : afterHeader? b with
  | none =>
      rw [hstream] at h
      cases h
  | some stream =>
      simp only [hstream] at h
      cases hinflate : Inflation.inflate limit (pieces (b.length - stream.length) stream) with
      | mk stop s =>
          simp only [hinflate] at h
          split at h
          · cases h
          · split at h
            · cases h
            · rename_i hsize
              split at h
              · rename_i hend
                subst hend
                rw [checked] at h
                split at h
                · rename_i hchecks
                  obtain rfl := Except.ok.inj h
                  exact ⟨stream, s, rfl, hinflate, Nat.le_of_not_lt hsize, rfl, hchecks⟩
                · cases h
              · cases h

/-- A member opens exactly within the limits that leave room for its content. -/
theorem gunzip_eq_ok_iff {limit : Nat} {b content : Bytes} :
    gunzip limit b = .ok content ↔
      (∃ behind, Member b content behind) ∧ content.length ≤ limit := by
  constructor
  · intro h
    obtain ⟨stream, s, hstream, hinflate, hsize, rfl, hchecks⟩ := exists_of_gunzip h
    obtain ⟨behind, hbehind⟩ := checksOut_iff.mp hchecks
    refine ⟨⟨behind, stream, s.out, hstream, ?_, rfl⟩, by rwa [length_toList]⟩
    rw [← hbehind]
    exact inflates_of_inflate hinflate hsize
  · rintro ⟨⟨behind, stream, out, hstream, hinflates, rfl⟩, hlength⟩
    rw [length_toList] at hlength
    obtain ⟨s, hinflate, ⟨-, hlong⟩ | ⟨rfl, hrest⟩⟩ :=
      inflate_of_inflates limit (b.length - stream.length) hinflates
    · exact absurd hlength (Nat.not_le.mpr hlong)
    · have hchecks : checksOut s.out.toList s.rest = true := checksOut_iff.mpr ⟨behind, hrest⟩
      simp only [gunzip, hstream, hinflate, reduceCtorEq, if_false,
        if_neg (Nat.not_lt.mpr hlength), if_true, checked, if_pos hchecks]

/-- Content beyond the limit is too long, whatever its trailer. -/
theorem gunzip_of_long {limit : Nat} {b content behind : Bytes} (h : Holds b content behind)
    (hlong : limit < content.length) : gunzip limit b = .error (tooLong limit) := by
  obtain ⟨stream, out, hheader, hinflates, rfl⟩ := h
  rw [length_toList] at hlong
  obtain ⟨s, hinflate, hout⟩ := inflate_of_inflates limit (b.length - stream.length) hinflates
  have hsize : limit < s.out.size := by
    rcases hout with ⟨hsize, -⟩ | ⟨rfl, -⟩
    · exact hsize
    · exact hlong
  simp only [gunzip, hheader, hinflate, reduceCtorEq, if_false, if_pos hsize]

/-! ## Members that are cut short -/

theorem afterZero?_append {b rest : Bytes} (h : afterZero? b = some rest) (more : Bytes) :
    afterZero? (b ++ more) = some (rest ++ more) := by
  rw [afterZero?] at h ⊢
  split at h
  · cases h
  · rename_i x left hleft
    split at h
    · rename_i hshort
      obtain rfl := Option.some.inj h
      have htake : (b.takeWhile (· ≠ 0)).length ≠ b.length := by
        intro hall
        have hsplit : (b.takeWhile (· ≠ 0) ++ b.dropWhile (· ≠ 0)).length = b.length :=
          congrArg _ List.takeWhile_append_dropWhile
        rw [List.length_append, hleft, List.length_cons] at hsplit
        omega
      rw [List.dropWhile_append, hleft, List.takeWhile_append, if_neg htake]
      simp only [List.isEmpty_cons, Bool.false_eq_true, if_false, List.cons_append, if_pos hshort]
    · cases h

theorem afterLength?_append {b rest : Bytes} (h : afterLength? b = some rest) (more : Bytes) :
    afterLength? (b ++ more) = some (rest ++ more) := by
  match b, h with
  | x :: y :: left, h =>
      simp only [afterLength?] at h
      split at h
      · rename_i hlength
        obtain rfl := Option.some.inj h
        rw [List.length_take] at hlength
        have hle : x.toNat + 256 * y.toNat ≤ left.length := by omega
        simp only [List.cons_append, afterLength?, List.take_append_of_le_length hle,
          List.drop_append_of_le_length hle, List.length_take]
        rw [if_pos hlength]
      · cases h

theorem passField_append {present : Bool} {skip skip' : Bytes → Option Bytes}
    {b rest more : Bytes}
    (hskip : ∀ {b rest}, skip b = some rest → skip' (b ++ more) = some (rest ++ more))
    (h : passField present skip b = some rest) :
    passField present skip' (b ++ more) = some (rest ++ more) := by
  cases present with
  | false => exact congrArg (fun b => some (b ++ more)) (Option.some.inj h)
  | true => exact hskip h

theorem afterHeaderCheck?_append {whole b rest : Bytes} (h : afterHeaderCheck? whole b = some rest)
    (more : Bytes) : afterHeaderCheck? (whole ++ more) (b ++ more) = some (rest ++ more) := by
  match b, h with
  | low :: high :: left, h =>
      have hlength : (whole ++ more).length - (low :: high :: left ++ more).length =
          whole.length - (low :: high :: left).length := by
        rw [List.length_append, List.length_append]
        omega
      have htake : (whole ++ more).take (whole.length - (low :: high :: left).length) =
          whole.take (whole.length - (low :: high :: left).length) :=
        List.take_append_of_le_length (Nat.sub_le _ _)
      rw [List.cons_append, List.cons_append] at hlength ⊢
      simp only [afterHeaderCheck?, hlength, htake] at h ⊢
      split at h
      · rename_i hcheck
        obtain rfl := Option.some.inj h
        rw [if_pos hcheck]
      · cases h

theorem afterHeader?_append {b stream : Bytes} (h : afterHeader? b = some stream) (more : Bytes) :
    afterHeader? (b ++ more) = some (stream ++ more) := by
  unfold afterHeader? at h
  split at h
  · rename_i flags t₁ t₂ t₃ t₄ extra system rest
    generalize hwhole : 0x1f :: 0x8b :: 8 :: flags :: t₁ :: t₂ :: t₃ :: t₄ :: extra :: system ::
      rest = whole at h ⊢
    have hmore : whole ++ more = 0x1f :: 0x8b :: 8 :: flags :: t₁ :: t₂ :: t₃ :: t₄ :: extra ::
        system :: (rest ++ more) := by
      rw [← hwhole]
      rfl
    split at h
    · cases h
    · rename_i hflags
      obtain ⟨b₁, h₁, h⟩ := Option.bind_eq_some_iff.mp h
      obtain ⟨b₂, h₂, h⟩ := Option.bind_eq_some_iff.mp h
      obtain ⟨b₃, h₃, h₄⟩ := Option.bind_eq_some_iff.mp h
      rw [hmore, afterHeader?, ← hmore, if_neg hflags,
        passField_append (afterLength?_append · more) h₁, Option.bind_some,
        passField_append (afterZero?_append · more) h₂, Option.bind_some,
        passField_append (afterZero?_append · more) h₃, Option.bind_some]
      exact passField_append (afterHeaderCheck?_append · more) h₄
  · cases h

theorem Holds.append {b content behind : Bytes} (h : Holds b content behind) (more : Bytes) :
    Holds (b ++ more) content (behind ++ more) := by
  obtain ⟨stream, out, hstream, hinflates, hout⟩ := h
  have hstart : (Cursor.start stream).Sound := ⟨Bits.sound_octets stream, trivial⟩
  exact ⟨stream ++ more, out, afterHeader?_append hstream more, hinflates.extend hstart more, hout⟩

/-- Octets behind a member do not count. -/
theorem Member.append {b content behind : Bytes} (h : Member b content behind) (more : Bytes) :
    Member (b ++ more) content (behind ++ more) := by
  have hmore := Holds.append h more
  rwa [List.append_assoc] at hmore

theorem Holds.unique {b content behind content' behind' : Bytes} (h : Holds b content behind)
    (h' : Holds b content' behind') : content = content' ∧ behind = behind' := by
  obtain ⟨stream, out, hstream, hinflates, rfl⟩ := h
  obtain ⟨stream', out', hstream', hinflates', rfl⟩ := h'
  obtain rfl := Option.some.inj (hstream.symm.trans hstream')
  obtain ⟨rfl, rfl⟩ := hinflates.unique hinflates'
  exact ⟨rfl, rfl⟩

theorem Member.unique {b content behind content' behind' : Bytes} (h : Member b content behind)
    (h' : Member b content' behind') : content = content' ∧ behind = behind' := by
  obtain ⟨rfl, hbehind⟩ := Holds.unique h h'
  exact ⟨rfl, List.append_cancel_left hbehind⟩

/-- A member that is cut short is none. -/
theorem Member.not_of_cut {cut more content : Bytes} (h : Member (cut ++ more) content [])
    (hmore : more ≠ []) (content' behind : Bytes) : ¬Member cut content' behind := by
  intro hcut
  obtain ⟨-, hbehind⟩ := (hcut.append more).unique h
  exact hmore (List.append_eq_nil_iff.mp hbehind).2

/-- The limit is exact and hides no fault.  What opens is the content of a first member, and it
opens within the limits that leave room for it, in the same way within all of them; a stream that
inflates to more is refused as too long; where there is no member, because the octets are cut short
or make no sense, nothing opens within any limit. -/
theorem limit_is_exact (limit : Nat) (b : Bytes) :
    (∀ content, gunzip limit b = .ok content ↔
      (∃ behind, Member b content behind) ∧ content.length ≤ limit) ∧
    (∀ content behind, Holds b content behind → limit < content.length →
      gunzip limit b =
        .error (.badRequest ("decompressed body exceeds " ++ Integer.ofNat limit ++ " bytes"))) ∧
    ((¬∃ content behind, Member b content behind) →
      ∀ limit', ∃ f, gunzip limit' b = .error f) ∧
    (∀ content, Member b content [] → ∀ cut more, cut ++ more = b → more ≠ [] →
      ∀ limit', ∃ f, gunzip limit' cut = .error f) ∧
    (∀ content, gunzip limit b = .ok content →
      ∀ limit', limit ≤ limit' → gunzip limit' b = .ok content) := by
  have hclosed : ∀ {b : Bytes} (limit' : Nat), (∀ content behind, ¬Member b content behind) →
      ∃ f, gunzip limit' b = .error f := by
    intro b limit' hnone
    cases hopen : gunzip limit' b with
    | error f => exact ⟨f, rfl⟩
    | ok content =>
        obtain ⟨⟨behind, hmember⟩, -⟩ := gunzip_eq_ok_iff.mp hopen
        exact absurd hmember (hnone content behind)
  refine ⟨fun content => gunzip_eq_ok_iff, fun content behind => gunzip_of_long, ?_, ?_, ?_⟩
  · intro hnone limit'
    exact hclosed limit' fun content behind hmember => hnone ⟨content, behind, hmember⟩
  · rintro content hmember cut more rfl hmore limit'
    exact hclosed limit' (hmember.not_of_cut hmore)
  · intro content hopen limit' hle
    obtain ⟨hmember, hlength⟩ := gunzip_eq_ok_iff.mp hopen
    exact gunzip_eq_ok_iff.mpr ⟨hmember, Nat.le_trans hlength hle⟩

end Telemetry.Gzip
