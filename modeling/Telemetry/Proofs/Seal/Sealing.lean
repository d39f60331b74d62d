/-
Sealed bodies open again.

Cutting a body into messages, sealing these one by one and joining the blocks is undone by cutting
the whole into blocks and opening these, because every block has the same size.  All that is
needed of a cipher is that it opens what it sealed (`Sealer.OpenedBy`).
-/
import Telemetry.Proofs.Fault
import Telemetry.Proofs.Gzip.Octets
import Telemetry.Seal.Sealing

namespace Telemetry

theorem Bytes.chunks_flatten {size : Nat} (hsize : size ≠ 0) {bs : List Bytes}
    (hbs : ∀ b ∈ bs, b.length = size) : chunks size bs.flatten = bs := by
  induction bs with
  | nil => rw [List.flatten_nil, chunks, dif_pos (.inr rfl)]
  | cons b bs ih =>
      have hb := hbs b List.mem_cons_self
      have hne : (b :: bs).flatten ≠ [] := by
        intro h
        have hlength := congrArg List.length h
        rw [List.flatten_cons, List.length_append, List.length_nil] at hlength
        omega
      rw [chunks, dif_neg (not_or.mpr ⟨hsize, hne⟩), List.flatten_cons, ← hb, List.take_left,
        List.drop_left, hb, ih fun c hc => hbs c (List.mem_cons_of_mem b hc)]

theorem Bytes.length_flatten_dvd {size : Nat} {bs : List Bytes} (hbs : ∀ b ∈ bs, b.length = size) :
    bs.flatten.length % size = 0 := by
  induction bs with
  | nil => rfl
  | cons b bs ih =>
      rw [List.flatten_cons, List.length_append, hbs b List.mem_cons_self, Nat.add_mod_left,
        ih fun c hc => hbs c (List.mem_cons_of_mem b hc)]

/-- An unsealer that opens what a sealer seals: their blocks have one size, and a block opens to
the message that was sealed in it, under whatever seed. -/
structure Sealer.OpenedBy (s : Sealer) (u : Unsealer) : Prop where
  size : u.size = s.size
  length : ∀ seed message, message.length + Oaep.overhead ≤ s.size →
    (s.encrypt seed message).length = s.size
  opens : ∀ seed message, message.length + Oaep.overhead ≤ s.size →
    u.decrypt (s.encrypt seed message) = some message

namespace Sealer.OpenedBy

variable {s : Sealer} {u : Unsealer} (h : s.OpenedBy u)

include h

theorem mapM_openBlock {messages : List Bytes} (seeds : Nat → Oaep.Seed) (first : Nat)
    (hfit : ∀ m ∈ messages, m.length + Oaep.overhead ≤ s.size) :
    ((messages.zipIdx first).map fun (m, i) => s.encrypt (seeds i) m).mapM u.openBlock =
      .ok messages := by
  induction messages generalizing first with
  | nil => rfl
  | cons m messages ih =>
      have hopen : u.openBlock (s.encrypt (seeds first) m) = .ok m := by
        rw [Unsealer.openBlock, h.opens _ _ (hfit m List.mem_cons_self)]
      rw [List.zipIdx_cons, List.map_cons, List.mapM_cons, hopen,
        ih (first + 1) fun n hn => hfit n (List.mem_cons_of_mem m hn)]
      rfl

/-- A body that was sealed opens to what it was. -/
theorem openBody_sealBody {seeds : Nat → Oaep.Seed} {body b : Bytes}
    (hseal : s.sealBody seeds body = .ok b) : u.openBody b = .ok body := by
  rw [sealBody] at hseal
  split at hseal
  · cases hseal
  · rename_i hsize
    cases hseal
    have hfit : ∀ m ∈ Bytes.chunks (s.size - Oaep.overhead) body,
        m.length + Oaep.overhead ≤ s.size := by
      intro m hm
      have hlength := Bytes.length_le_of_mem_chunks hm
      omega
    have hbody : (Bytes.chunks (s.size - Oaep.overhead) body).flatten = body :=
      Bytes.flatten_chunks (by omega) body
    generalize Bytes.chunks (s.size - Oaep.overhead) body = messages at hfit hbody
    have hopened := h.mapM_openBlock seeds 0 hfit
    have hblocks : ∀ b ∈ (messages.zipIdx.map fun (m, i) => s.encrypt (seeds i) m),
        b.length = s.size := by
      intro b hb
      obtain ⟨⟨m, i⟩, hm, rfl⟩ := List.mem_map.mp hb
      exact h.length _ _ (hfit m (List.fst_mem_of_mem_zipIdx hm))
    rw [blocks, List.flatMap_def]
    generalize (messages.zipIdx.map fun (m, i) => s.encrypt (seeds i) m) = bs at hopened hblocks
    have hwhole : ¬(u.size = 0 ∨ bs.flatten.length % u.size ≠ 0) := by
      rw [h.size]
      exact not_or.mpr ⟨by omega, not_not_intro (Bytes.length_flatten_dvd hblocks)⟩
    rw [Unsealer.openBody, if_neg hwhole, h.size, Bytes.chunks_flatten (by omega) hblocks, hopened,
      Result.map_ok, hbody]

end Sealer.OpenedBy

end Telemetry
