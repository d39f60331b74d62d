/-
Frames are read as they are written, and written as they were read.

The lowest flag of what is written tells whether a sequence number follows, whatever the frame
says of itself.  So what is read is a frame with this flag put right (`Frame.decode_encode`), and
it is the frame that was written just when the frame had it right (`Frame.decode_encode_eq_iff`),
as requests and replies do.  The reader keeps every octet, so octets that are read are written
again as they were (`Frame.encode_decode`); it refuses those that are too short for what their
flags announce, those of another version, and no others (`Frame.exists_decode_iff`).
-/
import Telemetry.Wire.Frame

namespace Telemetry

theorem Bytes.toNatLE_ofNatLE {n : Nat} (hn : n < UInt32.size) : toNatLE (ofNatLE 4 n) = n := by
  have hsize : UInt32.size = 4294967296 := rfl
  simp only [toNatLE, ofNatLE, List.range_succ, List.range_zero, List.nil_append, List.cons_append,
    List.map_cons, List.map_nil, List.foldr_cons, List.foldr_nil, UInt8.toNat_ofNat',
    Nat.shiftRight_eq_div_pow]
  omega

theorem Bytes.ofNatLE_toNatLE (a b c d : UInt8) :
    ofNatLE 4 (toNatLE [a, b, c, d]) = [a, b, c, d] := by
  have ha := a.toNat_lt
  have hb := b.toNat_lt
  have hc := c.toNat_lt
  have hd := d.toNat_lt
  simp only [ofNatLE, toNatLE, List.range_succ, List.range_zero, List.nil_append, List.cons_append,
    List.map_cons, List.map_nil, List.foldr_cons, List.foldr_nil, Nat.shiftRight_eq_div_pow,
    List.cons.injEq, and_true, ← UInt8.toNat_inj, UInt8.toNat_ofNat']
  omega

theorem Bytes.toNatLE_lt (a b c d : UInt8) : toNatLE [a, b, c, d] < UInt32.size := by
  have ha := a.toNat_lt
  have hb := b.toNat_lt
  have hc := c.toNat_lt
  have hd := d.toNat_lt
  have hsize : UInt32.size = 4294967296 := rfl
  simp only [toNatLE, List.foldr_cons, List.foldr_nil]
  omega

namespace Frame

/-! ## Flags -/

theorem and_or_distrib (a b c : UInt8) : a &&& (b ||| c) = (a &&& b) ||| (a &&& c) := by
  apply UInt8.toNat_inj.mp
  simp only [UInt8.toNat_and, UInt8.toNat_or, Nat.and_or_distrib_left]

theorem or_and_distrib (a b c : UInt8) : (a ||| b) &&& c = (a &&& c) ||| (b &&& c) := by
  rw [UInt8.and_comm, and_or_distrib, UInt8.and_comm a, UInt8.and_comm b]

theorem flagOf_and_seqFlag (seq : Option UInt32) : flagOf seq &&& seqFlag = flagOf seq := by
  cases seq with
  | none => exact UInt8.zero_and
  | some n => exact UInt8.and_self

theorem flagOf_and_responseFlag (seq : Option UInt32) : flagOf seq &&& responseFlag = 0 := by
  have hapart : seqFlag &&& responseFlag = 0 := by decide
  cases seq with
  | none => exact UInt8.zero_and
  | some n => exact hapart

/-- The flags of a frame with the lowest one put right. -/
def righted (f : Frame) : UInt8 := (f.flags &&& ~~~ seqFlag) ||| flagOf f.seq

theorem righted_and_seqFlag (f : Frame) : f.righted &&& seqFlag = flagOf f.seq := by
  rw [righted, or_and_distrib, UInt8.and_assoc, UInt8.not_and_self, UInt8.and_zero, UInt8.zero_or,
    flagOf_and_seqFlag]

theorem righted_eq_iff {f : Frame} : f.righted = f.flags ↔ f.flags &&& seqFlag = flagOf f.seq := by
  constructor
  · intro h
    rw [← h]
    exact f.righted_and_seqFlag
  · intro h
    have hall : ~~~ seqFlag ||| seqFlag = -1 := by decide
    rw [righted, ← h, ← and_or_distrib, hall, UInt8.and_neg_one]

theorem and_seqFlag (flags : UInt8) : flags &&& seqFlag = 0 ∨ flags &&& seqFlag = seqFlag := by
  have hmod : (flags &&& seqFlag).toNat = flags.toNat % 2 := by
    rw [UInt8.toNat_and]
    exact Nat.and_one_is_mod _
  rcases Nat.mod_two_eq_zero_or_one flags.toNat with hzero | hone
  · exact .inl (UInt8.toNat_inj.mp (hmod.trans hzero))
  · exact .inr (UInt8.toNat_inj.mp (hmod.trans hone))

theorem testBit_righted (f : Frame) (i : Nat) :
    f.righted.toNat.testBit i = if i = 0 then f.seq.isSome else f.flags.toNat.testBit i := by
  have hflag : (flagOf f.seq).toNat = f.seq.isSome.toNat := by cases f.seq <;> rfl
  rw [righted, UInt8.toNat_or, UInt8.toNat_and, Nat.testBit_or, Nat.testBit_and, hflag,
    Nat.testBit_bool_toNat]
  have hothers : (~~~ seqFlag).toNat = 254 := rfl
  have hkept : ∀ j < 8, 0 < j → Nat.testBit 254 j = true := by decide
  rw [hothers]
  by_cases hwide : i < 8
  · rcases Nat.eq_zero_or_pos i with rfl | hpos
    · simp
    · simp [hkept i hwide hpos, Nat.ne_of_gt hpos]
  · -- there are no more than eight flags
    have hnone : f.flags.toNat.testBit i = false := by
      refine Nat.testBit_lt_two_pow (Nat.lt_of_lt_of_le f.flags.toNat_lt ?_)
      exact Nat.pow_le_pow_right (by decide) (Nat.le_of_not_lt hwide)
    have hne : i ≠ 0 := by omega
    simp [hnone, hne]

/-! ## What is read -/

/-- A frame is read as it was written, but for the lowest flag, which is put right. -/
theorem decode_encode {f : Frame} (h : f.version = currentVersion) :
    decode f.encode = .ok { f with flags := f.righted } := by
  have hencode : f.encode = f.version :: f.method :: f.righted :: (seqBytes f.seq ++ f.payload) :=
    rfl
  have hflag := f.righted_and_seqFlag
  rw [hencode]
  cases hseq : f.seq with
  | none =>
      rw [hseq] at hflag
      exact (if_neg (not_not_intro h)).trans (if_pos hflag)
  | some n =>
      -- What is read as the number are the four octets before the payload.
      rw [hseq] at hflag
      have hset : ¬f.righted &&& seqFlag = 0 := by
        rw [hflag]
        exact (by decide : seqFlag ≠ 0)
      obtain ⟨a, b, c, d, hoctets⟩ : ∃ a b c d, Bytes.ofNatLE 4 n.toNat = [a, b, c, d] :=
        ⟨_, _, _, _, rfl⟩
      have hnumber : UInt32.ofNat (Bytes.toNatLE [a, b, c, d]) = n := by
        rw [← hoctets, Bytes.toNatLE_ofNatLE n.toNat_lt_size, UInt32.ofNat_toNat]
      rw [seqBytes, hoctets]
      simp only [List.cons_append, List.nil_append, decode, if_neg (not_not_intro h), if_neg hset,
        hnumber]

theorem decode_encode_eq_iff {f : Frame} (h : f.version = currentVersion) :
    decode f.encode = .ok f ↔ f.flags &&& seqFlag = flagOf f.seq := by
  have hfields : ({ f with flags := f.righted } : Frame) = f ↔ f.righted = f.flags :=
    ⟨congrArg Frame.flags, fun hflags => by rw [hflags]⟩
  rw [decode_encode h, Except.ok.injEq, hfields, righted_eq_iff]

/-- What is read is of the current version, has its lowest flag right and leaves no octet out. -/
theorem decode_cases {b : Bytes} {f : Frame} (h : decode b = .ok f) :
    f.version = currentVersion ∧ f.flags &&& seqFlag = flagOf f.seq ∧
      b = f.version :: f.method :: f.flags :: (seqBytes f.seq ++ f.payload) := by
  unfold decode at h
  split at h
  case h_2 => cases h
  case h_1 version method flags rest =>
    split at h
    · cases h
    · rename_i hversion
      have hcurrent := Decidable.not_not.mp hversion
      split at h
      · rename_i hclear
        cases h
        exact ⟨hcurrent, hclear, rfl⟩
      · rename_i hset
        have hflag := (and_seqFlag flags).resolve_left hset
        split at h
        case h_2 => cases h
        case h_1 a b c d payload =>
          cases h
          refine ⟨hcurrent, hflag, ?_⟩
          rw [seqBytes, UInt32.toNat_ofNat_of_lt' (Bytes.toNatLE_lt a b c d),
            Bytes.ofNatLE_toNatLE]
          rfl

/-- Octets that are read are written again as they were. -/
theorem encode_decode {b : Bytes} {f : Frame} (h : decode b = .ok f) : f.encode = b := by
  obtain ⟨-, hflag, rfl⟩ := decode_cases h
  have hrighted : f.righted = f.flags := righted_eq_iff.mpr hflag
  show f.version :: f.method :: f.righted :: (seqBytes f.seq ++ f.payload) = _
  rw [hrighted]

/-- Octets are read when they are of the current version and as many as their flags announce. -/
theorem exists_decode_iff {b : Bytes} :
    (∃ f, decode b = .ok f) ↔ 3 ≤ b.length ∧ b[0]? = some currentVersion ∧
      ((∃ flags, b[2]? = some flags ∧ flags &&& seqFlag = 0) ∨ 7 ≤ b.length) := by
  constructor
  · rintro ⟨f, h⟩
    obtain ⟨hversion, hflag, rfl⟩ := decode_cases h
    refine ⟨by simp, by rw [hversion]; rfl, ?_⟩
    cases hseq : f.seq with
    | none =>
        rw [hseq] at hflag
        exact .inl ⟨f.flags, rfl, hflag⟩
    | some n =>
        have hfour : (seqBytes (some n)).length = 4 := rfl
        right
        simp only [List.length_cons, List.length_append, hfour]
        omega
  · rintro ⟨hthree, hversion, hlong⟩
    match b with
    | version :: method :: flags :: rest =>
      have hcurrent : version = currentVersion := Option.some.inj hversion
      by_cases hclear : flags &&& seqFlag = 0
      · exact ⟨_, (if_neg (not_not_intro hcurrent)).trans (if_pos hclear)⟩
      · have hseven : 7 ≤ (version :: method :: flags :: rest).length := by
          rcases hlong with ⟨announced, hannounced, hzero⟩ | hseven
          · cases Option.some.inj hannounced
            exact absurd hzero hclear
          · exact hseven
        match rest with
        | a :: b :: c :: d :: payload =>
          exact ⟨_, (if_neg (not_not_intro hcurrent)).trans (if_neg hclear)⟩

theorem decode_encode_request (method : UInt8) (seq : Option UInt32) (payload : Bytes) :
    decode (request method seq payload).encode = .ok (request method seq payload) :=
  (decode_encode_eq_iff rfl).mpr (flagOf_and_seqFlag seq)

theorem decode_encode_reply (f : Frame) (payload : Bytes) :
    decode (f.reply payload).encode = .ok (f.reply payload) := by
  have hapart : responseFlag &&& seqFlag = 0 := by decide
  refine (decode_encode_eq_iff rfl).mpr ?_
  rw [reply, or_and_distrib, hapart, UInt8.zero_or, flagOf_and_seqFlag]

theorem isResponse_request (method : UInt8) (seq : Option UInt32) (payload : Bytes) :
    (request method seq payload).isResponse = false :=
  decide_eq_false (not_not_intro (flagOf_and_responseFlag seq))

theorem isResponse_reply (f : Frame) (payload : Bytes) : (f.reply payload).isResponse = true := by
  have hset : responseFlag ≠ 0 := by decide
  refine decide_eq_true ?_
  rw [reply, or_and_distrib, UInt8.and_self, flagOf_and_responseFlag, UInt8.or_zero]
  exact hset

/-! ## Octets and frames -/

/-- Octets are read just when there are at least three of them, the first is one, and the lowest
bit of the third is clear or there are at least seven.  Then the frame is written as these octets
again, and a reply to it is read as a response to it.  A frame of version one is read as it was
written, but that the lowest flag tells whether there is a sequence number. -/
theorem octets_correspond (b payload : Bytes) (f : Frame) :
    ((∃ g, decode b = .ok g) ↔ 3 ≤ b.length ∧ b[0]? = some 1 ∧
      ((∃ flags, b[2]? = some flags ∧ flags.toNat.testBit 0 = false) ∨ 7 ≤ b.length)) ∧
    (∀ g, decode b = .ok g → g.encode = b ∧
      ∃ r, decode (g.reply payload).encode = .ok r ∧ r.isResponse = true ∧
        r.method = g.method ∧ r.seq = g.seq ∧ r.payload = payload) ∧
    (f.version = 1 → ∃ flags, decode f.encode = .ok { f with flags } ∧
      ∀ i, flags.toNat.testBit i = if i = 0 then f.seq.isSome else f.flags.toNat.testBit i) := by
  refine ⟨?_, ?_, ?_⟩
  · have hlowest : ∀ flags : UInt8,
        flags &&& seqFlag = 0 ↔ flags.toNat.testBit 0 = false := by
      intro flags
      rw [← UInt8.toNat_inj, UInt8.toNat_and]
      simp [seqFlag, Nat.and_one_is_mod, Nat.testBit_zero]
    simp only [exists_decode_iff, hlowest]
    exact Iff.rfl
  · intro g h
    exact ⟨encode_decode h, g.reply payload, decode_encode_reply g payload,
      isResponse_reply g payload, rfl, rfl, rfl⟩
  · intro h
    exact ⟨f.righted, decode_encode h, testBit_righted f⟩

/-- A request with a flag that means nothing, and a frame that hides its sequence number. -/
theorem octets_correspond_oddFlags :
    let b : Bytes := [1, 9, 0x81, 42, 0, 0, 1, 7, 8]
    let g : Frame := ⟨1, 9, 0x81, some 0x0100002A, [7, 8]⟩
    let f : Frame := ⟨1, 3, 0xFE, some 5, []⟩
    decode b = .ok g ∧ g.encode = b ∧
      (∃ r, decode (g.reply [6]).encode = .ok r ∧ r.isResponse = true ∧
        r.method = 9 ∧ r.seq = some 0x0100002A ∧ r.payload = [6]) ∧
      f.version = 1 ∧ ∃ flags, decode f.encode = .ok { f with flags } ∧
        ∀ i, flags.toNat.testBit i = if i = 0 then true else f.flags.toNat.testBit i := by
  intro b g f
  obtain ⟨-, hread, hwritten⟩ := octets_correspond b [6] f
  have hg : decode b = .ok g := rfl
  exact ⟨hg, (hread g hg).1, (hread g hg).2, rfl, hwritten rfl⟩

end Frame

end Telemetry
