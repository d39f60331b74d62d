/-
Octets in pieces and in arrays.

Content is cut into pieces before it is compressed or sealed, and the pieces put together are the
content again.  What is read of a stream is pushed octet by octet to an array, whose octets are
listed by a loop from its first one on.
-/
import Telemetry.Bytes

namespace Telemetry

namespace Bytes

theorem flatten_chunks {size : Nat} (hsize : size ≠ 0) (b : Bytes) :
    (chunks size b).flatten = b := by
  induction b using chunks.induct size with
  | case1 b h =>
      obtain rfl := h.resolve_left hsize
      rw [chunks, dif_pos h]
      rfl
  | case2 b h ih =>
      rw [chunks, dif_neg h, List.flatten_cons, ih, List.take_append_drop]

theorem length_le_of_mem_chunks {size : Nat} {b c : Bytes} (h : c ∈ chunks size b) :
    c.length ≤ size := by
  induction b using chunks.induct size with
  | case1 b hb =>
      rw [chunks, dif_pos hb] at h
      exact absurd h List.not_mem_nil
  | case2 b hb ih =>
      rw [chunks, dif_neg hb] at h
      rcases List.mem_cons.mp h with rfl | hmem
      · exact List.length_take_le _ _
      · exact ih hmem

theorem chunks_eq_singleton {size : Nat} {b : Bytes} (hne : b ≠ []) (h : b.length ≤ size) :
    chunks size b = [b] := by
  have hsize : size ≠ 0 := by
    have hpos := List.length_pos_iff.mpr hne
    omega
  have hmore : ¬(size = 0 ∨ b = []) := fun hnone => hnone.elim hsize hne
  rw [chunks, dif_neg hmore, List.take_of_length_le h, List.drop_of_length_le h, chunks,
    dif_pos (.inr rfl)]

theorem length_ofNatLE (width n : Nat) : (ofNatLE width n).length = width := by
  simp [ofNatLE]

end Bytes

namespace Gzip

theorem toList_loop (out : ByteArray) (i : Nat) (done : Bytes) :
    ByteArray.toList.loop out i done = done.reverse ++ out.data.toList.drop i := by
  induction i, done using ByteArray.toList.loop.induct out with
  | case1 i done h ih =>
      have hi : i < out.data.toList.length := h
      have hget : out.get! i = out.data.toList[i] := getElem!_pos out.data i h
      rw [ByteArray.toList.loop, if_pos h, ih, hget, List.reverse_cons, List.append_assoc,
        List.singleton_append, ← List.drop_eq_getElem_cons hi]
  | case2 i done h =>
      have hsize : out.data.toList.length ≤ i := Nat.not_lt.mp h
      rw [ByteArray.toList.loop, if_neg h, List.drop_eq_nil_of_le hsize, List.append_nil]

theorem toList_eq (out : ByteArray) : out.toList = out.data.toList := toList_loop out 0 []

theorem toList_push (out : ByteArray) (x : UInt8) : (out.push x).toList = out.toList ++ [x] := by
  rw [toList_eq, toList_eq]
  exact Array.toList_push

theorem length_toList (out : ByteArray) : out.toList.length = out.size := by
  rw [toList_eq]
  rfl

end Gzip

end Telemetry
