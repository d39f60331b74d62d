/-
A sealed form and its blocks.

A body is cut into messages of one size and a sealed form into blocks of another one, so the two
cuttings have to be lined up: there are as many blocks as messages (`Bytes.length_chunks`), and
the block in a place is the one that begins at a multiple of the size (`Bytes.getElem?_chunks`).
What a sealed form opens to is said of its blocks by their places (`Unsealer.Opened`), whatever a
block is sealed with; only that what was sealed is opened again is asked of the cipher
(`Sealer.OpenedBy.sealed_opens`).

Whole pieces are cut off by themselves, so whole blocks open by themselves, whatever comes behind
them.  A sealed form of another length is refused for its length, and one with a block that does
not open for this block; in both cases the request is a bad one.
-/
import Mathlib.Algebra.Order.Floor.Div
import Telemetry.Proofs.Seal.Oaep

namespace Telemetry

/-! ## Cutting -/

namespace Bytes

variable {size : Nat}

theorem chunks_nil (size : Nat) : chunks size [] = [] := by
  rw [chunks, dif_pos (.inr rfl)]

theorem chunks_of_ne_nil (hsize : size ≠ 0) {b : Bytes} (hb : b ≠ []) :
    chunks size b = b.take size :: chunks size (b.drop size) := by
  rw [chunks, dif_neg (not_or.mpr ⟨hsize, hb⟩)]

theorem length_chunks (hsize : size ≠ 0) (b : Bytes) :
    (chunks size b).length = b.length ⌈/⌉ size := by
  have hpos : 0 < size := Nat.pos_of_ne_zero hsize
  induction b using chunks.induct size with
  | case1 b h =>
      obtain rfl := h.resolve_left hsize
      rw [chunks_nil, List.length_nil, List.length_nil, zero_ceilDiv]
  | case2 b h ih =>
      have hlength : 0 < b.length := List.length_pos_iff.mpr (not_or.mp h).2
      rw [chunks_of_ne_nil hsize (not_or.mp h).2, List.length_cons, ih, List.length_drop,
        Nat.ceilDiv_eq_add_pred_div, Nat.ceilDiv_eq_add_pred_div]
      rcases Nat.lt_or_ge b.length size with hshort | hlong
      · have hlast : b.length + size - 1 = b.length - 1 + size := by omega
        rw [Nat.sub_eq_zero_of_le (Nat.le_of_lt hshort), Nat.zero_add, hlast,
          Nat.add_div_right _ hpos, Nat.div_eq_of_lt (by omega), Nat.div_eq_of_lt (by omega)]
      · have hmore : b.length + size - 1 = b.length - size + size - 1 + size := by omega
        rw [hmore, Nat.add_div_right _ hpos]

/-- The piece in a place begins at a multiple of the size. -/
theorem getElem?_chunks (hsize : size ≠ 0) (b : Bytes) (i : Nat) :
    (chunks size b)[i]? =
      if i * size < b.length then some ((b.drop (i * size)).take size) else none := by
  induction b using chunks.induct size generalizing i with
  | case1 b h =>
      obtain rfl := h.resolve_left hsize
      rw [chunks_nil, List.getElem?_nil, List.length_nil, if_neg (Nat.not_lt_zero _)]
  | case2 b h ih =>
      have hlength : 0 < b.length := List.length_pos_iff.mpr (not_or.mp h).2
      rw [chunks_of_ne_nil hsize (not_or.mp h).2]
      cases i with
      | zero => rw [List.getElem?_cons_zero, Nat.zero_mul, if_pos hlength, List.drop_zero]
      | succ i =>
          have hplace : i * size < b.length - size ↔ size + i * size < b.length := by omega
          rw [List.getElem?_cons_succ, ih, List.drop_drop, List.length_drop, Nat.succ_mul,
            Nat.add_comm (i * size)]
          exact if_congr hplace rfl rfl

theorem chunks_append (hsize : size ≠ 0) {b : Bytes} (hb : size ∣ b.length) (c : Bytes) :
    chunks size (b ++ c) = chunks size b ++ chunks size c := by
  induction b using chunks.induct size with
  | case1 b h =>
      obtain rfl := h.resolve_left hsize
      rw [chunks_nil, List.nil_append, List.nil_append]
  | case2 b h ih =>
      have hne := (not_or.mp h).2
      have hfits : size ≤ b.length := Nat.le_of_dvd (List.length_pos_iff.mpr hne) hb
      have hrest : size ∣ (b.drop size).length := by
        rw [List.length_drop]
        exact Nat.dvd_sub hb (Nat.dvd_refl size)
      rw [chunks_of_ne_nil hsize hne,
        chunks_of_ne_nil hsize (List.append_ne_nil_of_left_ne_nil hne c),
        List.take_append_of_le_length hfits, List.drop_append_of_le_length hfits, ih hrest,
        List.cons_append]

end Bytes

/-! ## Opening -/

namespace Unsealer

def blockAt (u : Unsealer) (b : Bytes) (i : Nat) : Bytes := (b.drop (i * u.size)).take u.size

/-- Messages to which a sealed form opens: it is whole blocks, as many as messages, and each block
opens to the message in its place. -/
structure Opened (u : Unsealer) (b : Bytes) (messages : List Bytes) : Prop where
  length : b.length = messages.length * u.size
  opens : ∀ i < messages.length, u.decrypt (u.blockAt b i) = messages[i]?

variable {u : Unsealer}

theorem openBlock_eq_ok_iff {block message : Bytes} :
    u.openBlock block = .ok message ↔ u.decrypt block = some message := by
  rw [openBlock]
  cases u.decrypt block with
  | none =>
      constructor
      · intro h
        cases h
      · intro h
        cases h
  | some m =>
      constructor
      · exact fun h => congrArg some (Except.ok.inj h)
      · exact fun h => congrArg Except.ok (Option.some.inj h)

theorem openBody_of_not_dvd {b : Bytes} (h : ¬u.size ∣ b.length) :
    u.openBody b = .error (misfit b.length u.size) := by
  rw [openBody, if_pos (.inr fun hmod => h (Nat.dvd_of_mod_eq_zero hmod))]

theorem openBody_of_dvd (hsize : u.size ≠ 0) {b : Bytes} (h : u.size ∣ b.length) :
    u.openBody b = ((Bytes.chunks u.size b).mapM u.openBlock).map List.flatten := by
  rw [openBody, if_neg (not_or.mpr ⟨hsize, not_not_intro (Nat.mod_eq_zero_of_dvd h)⟩)]

theorem mul_size_lt_iff (hsize : u.size ≠ 0) {n i : Nat} :
    i * u.size < n * u.size ↔ i < n :=
  Nat.mul_lt_mul_right (Nat.pos_of_ne_zero hsize)

theorem length_chunks_of_dvd (hsize : u.size ≠ 0) {b : Bytes} (h : u.size ∣ b.length) :
    b.length = (Bytes.chunks u.size b).length * u.size := by
  obtain ⟨n, hn⟩ := h
  have hcount : u.size * n ⌈/⌉ u.size = n := smul_ceilDiv (Nat.pos_of_ne_zero hsize) n
  rw [Bytes.length_chunks hsize, hn, hcount, Nat.mul_comm]

/-- Whole blocks open one by one to messages when the messages are those of their places. -/
theorem map_openBlock_chunks_iff (hsize : u.size ≠ 0) {b : Bytes} (h : u.size ∣ b.length)
    {messages : List Bytes} :
    (Bytes.chunks u.size b).map u.openBlock = messages.map .ok ↔ u.Opened b messages := by
  have hlength := length_chunks_of_dvd hsize h
  constructor
  · intro hmap
    have hcount : (Bytes.chunks u.size b).length = messages.length := by
      rw [← List.length_map, hmap, List.length_map]
    refine ⟨by rw [hlength, hcount], fun i hi => ?_⟩
    have hplace : i * u.size < b.length := by
      rw [hlength, hcount]
      exact (mul_size_lt_iff hsize).mpr hi
    have hblock := congrArg (·[i]?) hmap
    simp only [List.getElem?_map, Bytes.getElem?_chunks hsize, if_pos hplace, Option.map_some,
      List.getElem?_eq_getElem hi] at hblock
    rw [List.getElem?_eq_getElem hi]
    exact openBlock_eq_ok_iff.mp (Option.some.inj hblock)
  · rintro ⟨hwhole, hopens⟩
    refine List.ext_getElem? fun i => ?_
    rw [List.getElem?_map, List.getElem?_map, Bytes.getElem?_chunks hsize, hwhole]
    rcases Nat.lt_or_ge i messages.length with hi | hi
    · have hopened := hopens i hi
      rw [List.getElem?_eq_getElem hi] at hopened ⊢
      rw [if_pos ((mul_size_lt_iff hsize).mpr hi), Option.map_some, Option.map_some,
        ← openBlock_eq_ok_iff.mpr hopened, blockAt]
    · rw [if_neg (fun hlt => Nat.not_lt.mpr hi ((mul_size_lt_iff hsize).mp hlt)),
        List.getElem?_eq_none hi]
      rfl

/-- A sealed form opens to the messages of its blocks, one after the other. -/
theorem openBody_eq_ok_iff (hsize : u.size ≠ 0) {b body : Bytes} :
    u.openBody b = .ok body ↔ ∃ messages, u.Opened b messages ∧ messages.flatten = body := by
  by_cases h : u.size ∣ b.length
  · rw [openBody_of_dvd hsize h, Result.map_eq_ok_iff]
    simp only [Result.mapM_eq_ok_iff, map_openBlock_chunks_iff hsize h]
  · rw [openBody_of_not_dvd h]
    refine iff_of_false nofun ?_
    rintro ⟨messages, hopened, -⟩
    exact h (hopened.length ▸ Nat.dvd_mul_left _ _)

/-- It opens when it is whole blocks and each of them opens. -/
theorem exists_openBody_iff (hsize : u.size ≠ 0) {b : Bytes} :
    (∃ body, u.openBody b = .ok body) ↔
      u.size ∣ b.length ∧ ∀ i < b.length / u.size, ∃ m, u.decrypt (u.blockAt b i) = some m := by
  constructor
  · rintro ⟨body, hbody⟩
    obtain ⟨messages, hopened, -⟩ := (openBody_eq_ok_iff hsize).mp hbody
    have hcount : b.length / u.size = messages.length := by
      rw [hopened.length, Nat.mul_div_cancel _ (Nat.pos_of_ne_zero hsize)]
    refine ⟨hopened.length ▸ Nat.dvd_mul_left _ _, fun i hi => ?_⟩
    rw [hcount] at hi
    exact ⟨messages[i], (hopened.opens i hi).trans (List.getElem?_eq_getElem hi)⟩
  · rintro ⟨hdvd, hall⟩
    have hmessages : ∃ messages, (Bytes.chunks u.size b).mapM u.openBlock = .ok messages := by
      refine Result.exists_mapM_eq_ok fun block hblock => ?_
      obtain ⟨i, hi⟩ := List.mem_iff_getElem?.mp hblock
      rw [Bytes.getElem?_chunks hsize, Option.ite_none_right_eq_some] at hi
      obtain ⟨hplace, heq⟩ := hi
      have hcount : i < b.length / u.size := by
        rw [Nat.lt_div_iff_mul_lt' hdvd, Nat.mul_comm]
        exact hplace
      obtain ⟨m, hm⟩ := hall i hcount
      exact ⟨m, openBlock_eq_ok_iff.mpr (Option.some.inj heq ▸ hm)⟩
    obtain ⟨messages, hmessages⟩ := hmessages
    exact ⟨messages.flatten, by rw [openBody_of_dvd hsize hdvd, hmessages, Result.map_ok]⟩

theorem eq_badRequest_of_openBody {b : Bytes} {f : Fault} (h : u.openBody b = .error f) :
    ∃ text, f = .badRequest text := by
  rw [openBody] at h
  split at h
  · cases h
    exact ⟨_, rfl⟩
  · obtain ⟨_, block, _, _, _, _, hblock⟩ :=
      Result.mapM_eq_error_iff.mp (Result.map_eq_error_iff.mp h)
    rw [openBlock] at hblock
    split at hblock
    · cases hblock
    · cases hblock
      exact ⟨_, rfl⟩

theorem openBody_append (hsize : u.size ≠ 0) {b c : Bytes} (hb : u.size ∣ b.length)
    (hc : u.size ∣ c.length) :
    u.openBody (b ++ c) = (u.openBody b).bind fun first => (u.openBody c).map (first ++ ·) := by
  have hwhole : u.size ∣ (b ++ c).length := by
    rw [List.length_append]
    exact Nat.dvd_add hb hc
  rw [openBody_of_dvd hsize hwhole, openBody_of_dvd hsize hb, openBody_of_dvd hsize hc,
    Bytes.chunks_append hsize hb, List.mapM_append]
  cases (Bytes.chunks u.size b).mapM u.openBlock with
  | error f => rfl
  | ok first =>
      cases (Bytes.chunks u.size c).mapM u.openBlock with
      | error f => rfl
      | ok second => exact congrArg Except.ok List.flatten_append

end Unsealer

/-! ## Sealing -/

namespace Sealer.OpenedBy

variable {s : Sealer} {u : Unsealer}

theorem length_blocks (h : s.OpenedBy u) (seeds : Nat → Oaep.Seed) {messages : List Bytes}
    (hfit : ∀ m ∈ messages, m.length + Oaep.overhead ≤ s.size) :
    (s.blocks seeds messages).length = s.size * messages.length := by
  have hblock : ∀ p ∈ messages.zipIdx, (s.encrypt (seeds p.2) p.1).length = s.size :=
    fun p hp => h.length _ _ (hfit p.1 (List.fst_mem_of_mem_zipIdx hp))
  rw [blocks, List.length_flatMap, List.map_congr_left hblock]
  simp only [List.map_const', List.sum_replicate, List.length_zipIdx, smul_eq_mul, Nat.mul_comm]

/-- A body is always sealed if a block has room, and fills as many blocks as are needed. -/
theorem exists_sealBody (h : s.OpenedBy u) (hroom : Oaep.overhead < s.size)
    (seeds : Nat → Oaep.Seed) (body : Bytes) :
    ∃ b, s.sealBody seeds body = .ok b ∧
      b.length = s.size * (body.length ⌈/⌉ (s.size - Oaep.overhead)) := by
  have hsize : s.size - Oaep.overhead ≠ 0 := by omega
  have hfit : ∀ m ∈ Bytes.chunks (s.size - Oaep.overhead) body,
      m.length + Oaep.overhead ≤ s.size := by
    intro m hm
    have hlength := Bytes.length_le_of_mem_chunks hm
    omega
  refine ⟨_, if_neg (Nat.not_le.mpr hroom), ?_⟩
  rw [h.length_blocks seeds hfit, Bytes.length_chunks hsize]

/-- Sealing under a key with room in its blocks, and opening with its private key.  Every body is
sealed in just the blocks that it needs, under whatever seeds, and opens again.  What opens is
whole blocks that all open, to their messages one after the other, so forms of whole blocks that
are joined open to what they open to, joined; everything else is a bad request. -/
theorem sealed_opens (h : s.OpenedBy u) (hroom : Oaep.overhead < s.size) :
    (∀ seeds body, ∃ b, s.sealBody seeds body = .ok b ∧
        b.length = s.size * (body.length ⌈/⌉ (s.size - Oaep.overhead)) ∧
        u.openBody b = .ok body) ∧
      (∀ b body, u.openBody b = .ok body ↔
        ∃ messages, u.Opened b messages ∧ messages.flatten = body) ∧
      (∀ b, (∃ body, u.openBody b = .ok body) ↔ s.size ∣ b.length ∧
        ∀ i < b.length / s.size, ∃ m, u.decrypt ((b.drop (i * s.size)).take s.size) = some m) ∧
      (∀ b, (∃ body, u.openBody b = .ok body) ∨
        ∃ text, u.openBody b = .error (.badRequest text)) ∧
      ∀ b c, s.size ∣ b.length → s.size ∣ c.length →
        u.openBody (b ++ c) =
          (u.openBody b).bind fun first => (u.openBody c).map (first ++ ·) := by
  have hsize : u.size ≠ 0 := by
    rw [h.size]
    omega
  refine ⟨fun seeds body => ?_, fun b body => Unsealer.openBody_eq_ok_iff hsize, fun b => ?_,
    fun b => ?_, fun b c hb hc => ?_⟩
  · obtain ⟨b, hseal, hlength⟩ := h.exists_sealBody hroom seeds body
    exact ⟨b, hseal, hlength, h.openBody_sealBody hseal⟩
  · rw [← h.size]
    exact Unsealer.exists_openBody_iff hsize
  · cases hb : u.openBody b with
    | ok body => exact .inl ⟨body, rfl⟩
    | error f =>
        obtain ⟨text, rfl⟩ := Unsealer.eq_badRequest_of_openBody hb
        exact .inr ⟨text, rfl⟩
  · rw [← h.size] at hb hc
    exact Unsealer.openBody_append hsize hb hc

/-- Five octets are sealed in three blocks of a key whose blocks have room for two, and open. -/
theorem sealed_opens_pair :
    (Sealer.ofKey Rsa.pair.publicKey).OpenedBy (Unsealer.ofKey Rsa.pair) ∧
      Oaep.overhead < (Sealer.ofKey Rsa.pair.publicKey).size ∧
      ∀ seeds, ∃ b, (Sealer.ofKey Rsa.pair.publicKey).sealBody seeds [1, 2, 3, 4, 5] = .ok b ∧
        b.length = 204 ∧ (Unsealer.ofKey Rsa.pair).openBody b = .ok [1, 2, 3, 4, 5] := by
  have hsize : (Sealer.ofKey Rsa.pair.publicKey).size = Oaep.overhead + 2 := Rsa.size_pair
  have hroom : Oaep.overhead < (Sealer.ofKey Rsa.pair.publicKey).size := by
    rw [hsize]
    exact Nat.lt_add_of_pos_right (by decide)
  refine ⟨Sealer.openedBy_pair, hroom, fun seeds => ?_⟩
  obtain ⟨b, hseal, hlength, hopen⟩ :=
    (sealed_opens Sealer.openedBy_pair hroom).1 seeds [1, 2, 3, 4, 5]
  refine ⟨b, hseal, ?_, hopen⟩
  rw [hlength, hsize]
  rfl

end Sealer.OpenedBy

end Telemetry
