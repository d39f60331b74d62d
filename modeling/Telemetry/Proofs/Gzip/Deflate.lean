/-
What is compressed opens again.

Content becomes blocks, each of one piece.  A block of codes begins with the codes, which are fixed
or written there (`Gzip.exists_openBlock_coded`), and goes on with items that lie on the piece; a
stored block is the piece itself.  Either way reading the block adds the piece to the content and
ends where the next block begins (`Gzip.exists_reads_block`), so that all blocks give all pieces
(`Gzip.exists_inflates_blocks`), and what was compressed is a member of its content
(`Gzip.member_compress`).  It opens within every limit that leaves room for it
(`Gzip.gunzip_compress_le`).

A block is stored where this is shorter, so content is not much longer when it is compressed
(`Gzip.length_compress_le`).
-/
import Telemetry.Proofs.Gzip.Repeats
import Telemetry.Proofs.Gzip.WrittenCodes

namespace Telemetry.Gzip

open CodeLengths (words)

/-! ## Codes for items -/

/-- Items of content that is one block: copies are in range. -/
def Item.InRange : Item → Prop
  | .nothing => False
  | .literal _ => True
  | .copy length distance => 3 ≤ length ∧ length ≤ 258 ∧ 1 ≤ distance ∧ distance ≤ 32768

theorem inRange_of_lies {data : Array UInt8} {items : List Item} {i j : Nat}
    (h : Repeats.Lies data items i j) (hsize : data.size ≤ 32768) {item : Item}
    (hitem : item ∈ items) : item.InRange := by
  induction h with
  | nil => exact absurd hitem List.not_mem_nil
  | literal _ _ ih =>
      rcases List.mem_cons.mp hitem with rfl | hmem
      · trivial
      · exact ih hmem
  | copy hc _ ih =>
      rcases List.mem_cons.mp hitem with rfl | hmem
      · have hback := hc.back
        have hwithin := hc.within
        exact ⟨hc.minLength, hc.maxLength, hc.distance, by omega⟩
      · exact ih hmem

theorem named_fixedLiterals {symbol : Nat} (h : symbol < 288) :
    Named Cursor.fixedLiterals symbol := by
  have hall : ∀ l ∈ Cursor.fixedLiterals, l ≠ 0 ∧ l ≤ CodeTree.maxLength := by
    intro l hl
    simp only [Cursor.fixedLiterals, List.mem_append, List.mem_replicate] at hl
    rw [CodeTree.maxLength]
    omega
  have hlength : Cursor.fixedLiterals.length = 288 := by
    simp only [Cursor.fixedLiterals, List.length_append, List.length_replicate]
  have hlt : symbol < Cursor.fixedLiterals.length := hlength.symm ▸ h
  exact ⟨_, List.getElem?_eq_getElem hlt, hall _ (List.getElem_mem hlt)⟩

theorem named_fixedDistances {symbol : Nat} (h : symbol < 32) :
    Named Cursor.fixedDistances symbol := by
  have hall : ∀ l ∈ Cursor.fixedDistances, l ≠ 0 ∧ l ≤ CodeTree.maxLength := by decide
  have hlt : symbol < Cursor.fixedDistances.length := h
  exact ⟨_, List.getElem?_eq_getElem hlt, hall _ (List.getElem_mem hlt)⟩

theorem writable_fixed {item : Item} (h : item.InRange) :
    item.Writable Cursor.fixedLiterals Cursor.fixedDistances := by
  cases item with
  | nothing => exact h.elim
  | literal x => exact named_fixedLiterals (Nat.lt_trans x.toNat_lt (by decide))
  | copy length distance =>
      obtain ⟨hleast, hmost, hnear, hfar⟩ := h
      have hlength := (lengthSymbol_spec hleast hmost).2.1
      have hdistance := (distanceSymbol_spec hnear hfar).1
      exact ⟨hleast, hmost, hnear, hfar, named_fixedLiterals (by omega),
        named_fixedDistances (by omega)⟩

theorem exists_fixedCodes : ∃ literalTree distanceTree,
    CodeTree.ofLengths Cursor.fixedLiterals = .ok literalTree ∧
      CodeTree.ofLengths Cursor.fixedDistances = .ok distanceTree :=
  ⟨_, _, CodeTree.ofLengths_eq_ok_iff.mpr ⟨.inl (by decide +kernel), rfl⟩,
    CodeTree.ofLengths_eq_ok_iff.mpr ⟨.inl (by decide +kernel), rfl⟩⟩

/-- The code of literals and lengths that is made for items. -/
def literalCode (items : List Item) : List Nat :=
  CodeLengths.ofUses 15 (tally 286 (literalSymbols items))

/-- The code of distances that is made for items. -/
def distanceCode (items : List Item) : List Nat :=
  CodeLengths.ofUses 15 (tally 30 (distanceSymbols items))

theorem codeFor_literalCode (items : List Item) :
    CodeFor 15 286 (literalSymbols items) (literalCode items) :=
  codeFor_ofUses _ (by decide) (by decide) (by decide)

theorem codeFor_distanceCode (items : List Item) :
    CodeFor 15 30 (distanceSymbols items) (distanceCode items) :=
  codeFor_ofUses _ (by decide) (by decide) (by decide)

theorem writable_own {items : List Item} {item : Item} (hitem : item ∈ items) (h : item.InRange) :
    item.Writable (literalCode items) (distanceCode items) := by
  cases item with
  | nothing => exact h.elim
  | literal x =>
      have hmem : x.toNat ∈ literalSymbols items :=
        List.mem_cons_of_mem _ (List.mem_filterMap.mpr ⟨_, hitem, rfl⟩)
      exact (codeFor_literalCode items).named _ hmem (Nat.lt_trans x.toNat_lt (by decide))
  | copy length distance =>
      obtain ⟨hleast, hmost, hnear, hfar⟩ := h
      have hlength := (lengthSymbol_spec hleast hmost).2.1
      have hdistance := (distanceSymbol_spec hnear hfar).1
      have hmem : lengthSymbol length ∈ literalSymbols items :=
        List.mem_cons_of_mem _ (List.mem_filterMap.mpr ⟨_, hitem, rfl⟩)
      have hmem' : distanceSymbol distance ∈ distanceSymbols items :=
        List.mem_filterMap.mpr ⟨_, hitem, rfl⟩
      exact ⟨hleast, hmost, hnear, hfar, (codeFor_literalCode items).named _ hmem (by omega),
        (codeFor_distanceCode items).named _ hmem' (by omega)⟩

/-! ## Blocks under codes -/

/-- A block of codes begins with them, and they fit the items behind them. -/
theorem exists_openBlock_coded (final : Bool) {b : Bytes} (h : b.length ≤ 32768) :
    ∃ literals distances literalTree distanceTree bits,
      blockBits final b = bits ++ contentBits literals distances (Repeats.items b) ∧
      CodeTree.ofLengths literals = .ok literalTree ∧
      CodeTree.ofLengths distances = .ok distanceTree ∧ Named literals endSymbol ∧
      (∀ item ∈ Repeats.items b, item.Writable literals distances) ∧
      ∀ {s t : Bits}, Bits.Gives bits s t →
        Cursor.openBlock s = .ok (final, .coded literalTree distanceTree, t) := by
  have hrange : ∀ item ∈ Repeats.items b, item.InRange := fun item hitem =>
    inRange_of_lies (Repeats.lies_items b) (by rwa [List.size_toArray]) hitem
  by_cases hshort : b.length < ownCodeLength
  · obtain ⟨literalTree, distanceTree, hliterals, hdistances⟩ := exists_fixedCodes
    refine ⟨_, _, literalTree, distanceTree, final :: lowBits 2 1, ?_, hliterals, hdistances,
      named_fixedLiterals (by decide), fun item hitem => writable_fixed (hrange item hitem), ?_⟩
    · rw [blockBits, if_pos hshort]
    · rintro s t ⟨u, hnext, hkind⟩
      rw [Cursor.openBlock, hnext]
      dsimp only [bind, Except.bind]
      rw [Bits.number_of_gives_lt hkind (by decide)]
      dsimp only
      rw [if_neg (by decide), if_pos rfl, Cursor.fixedCodes, hliterals]
      dsimp only [bind, Except.bind]
      rw [hdistances]
  · have hliteralCode := codeFor_literalCode (Repeats.items b)
    have hdistanceCode := codeFor_distanceCode (Repeats.items b)
    obtain ⟨literalTree, hliterals⟩ := hliteralCode.usable
    obtain ⟨distanceTree, hdistances⟩ := hdistanceCode.usable
    have hend := hliteralCode.named endSymbol List.mem_cons_self (by decide)
    have hwords : ∀ l ∈ literalCode (Repeats.items b) ++ distanceCode (Repeats.items b),
        l < 16 := by
      intro l hl
      rcases List.mem_append.mp hl with hl | hl
      · exact Nat.lt_succ_of_le (hliteralCode.le l hl)
      · exact Nat.lt_succ_of_le (hdistanceCode.le l hl)
    refine ⟨_, _, literalTree, distanceTree, final :: lowBits 2 2 ++
      codeBits (literalCode (Repeats.items b)) (distanceCode (Repeats.items b)), ?_, hliterals,
      hdistances, hend, fun item hitem => writable_own hitem (hrange item hitem), ?_⟩
    · rw [blockBits, if_neg hshort]
      rfl
    · intro s t hgives
      obtain ⟨u, hhead, hcodes⟩ := Bits.gives_append.mp hgives
      obtain ⟨v, hnext, hkind⟩ := hhead
      rw [Cursor.openBlock, hnext]
      dsimp only [bind, Except.bind]
      rw [Bits.number_of_gives_lt hkind (by decide)]
      dsimp only
      rw [if_neg (by decide), if_neg (by decide), if_pos rfl, writtenCodes_of_gives
        hliteralCode.length hdistanceCode.length hwords hend hliterals hdistances hcodes]

/-! ## Reading on -/

/-- Reading comes from one place in a stream to another, and adds to the content on the way. -/
def Reads (c : Cursor) (out : ByteArray) (d : Cursor) (out' : ByteArray) : Prop :=
  ∀ (content : ByteArray) (behind : Bytes),
    Inflates d out' content behind → Inflates c out content behind

theorem Reads.trans {c d e : Cursor} {out out' out'' : ByteArray} (h : Reads c out d out')
    (h' : Reads d out' e out'') : Reads c out e out'' :=
  fun content behind hrest => h content behind (h' content behind hrest)

theorem reads_header {s t : Bits} {last final : Bool} {mode : Mode} {out : ByteArray}
    (h : Cursor.openBlock s = .ok (final, mode, t)) :
    Reads ⟨s, last, .header⟩ out ⟨t, final, mode⟩ out := by
  have hread : Cursor.read ⟨s, last, .header⟩ = .ok (.nothing, ⟨t, final, mode⟩) := by
    rw [Cursor.read_header, h]
    rfl
  exact fun _ _ hrest => .item rfl hread hrest

/-- A block of codes adds what its items lie on. -/
theorem exists_reads_coded (final last : Bool) {b : Bytes} (h : b.length ≤ 32768) {s t : Bits}
    (hgives : Bits.Gives (blockBits final b) s t) (out : ByteArray) :
    ∃ out', out'.toList = out.toList ++ b ∧
      Reads ⟨s, last, .header⟩ out ⟨t, final, Cursor.blockEnd final⟩ out' := by
  obtain ⟨literals, distances, literalTree, distanceTree, bits, hbits, hliterals, hdistances, hend,
    hitems, hopen⟩ := exists_openBlock_coded final h
  rw [hbits] at hgives
  obtain ⟨u, hcodes, hcontent⟩ := Bits.gives_append.mp hgives
  have hbefore : out.toList = out.toList ++ b.toArray.toList.take 0 := by
    rw [List.take_zero, List.append_nil]
  have hwritten := (Repeats.lies_items b).write hbefore
  rw [List.take_of_length_le (Nat.le_refl _)] at hwritten
  exact ⟨_, hwritten, (reads_header (hopen hcodes)).trans fun _ _ hrest =>
    inflates_items hliterals hdistances hend hitems hcontent hrest⟩

/-! ## Stored blocks -/

theorem gives_ofNatLE (n : Nat) (rest : Bytes) :
    Bits.Gives (lowBits 16 n) ⟨Bytes.ofNatLE 2 n ++ rest, 0⟩ ⟨rest, 0⟩ := by
  have hoctets : Bytes.ofNatLE 2 n = [UInt8.ofNat (n % 256), UInt8.ofNat (n / 256 % 256)] := by
    simp [Bytes.ofNatLE, List.range_succ, Nat.shiftRight_eq_div_pow]
  have hoctet : ∀ (x : Nat) (rest : Bytes),
      Bits.Gives (lowBits 8 x) ⟨UInt8.ofNat (x % 256) :: rest, 0⟩ ⟨rest, 0⟩ := by
    intro x rest
    have hgives := Bits.gives_octet (UInt8.ofNat (x % 256)) rest
    rwa [UInt8.toNat_ofNat', lowBits_mod, show 256 = 2 ^ 8 from rfl, lowBits_mod] at hgives
  rw [hoctets, show 16 = 8 + 8 from rfl, lowBits_add]
  exact (hoctet n _).append (hoctet (n / 256) rest)

/-- A stored block begins with its length, behind the bits that are left of an octet. -/
theorem openBlock_stored {final : Bool} {n : Nat} (hn : n < 65536) {s t : Bits} {rest : Bytes}
    (hgives : Bits.Gives (final :: lowBits 2 0) s t)
    (hrest : t.rest = Bytes.ofNatLE 2 n ++ (Bytes.ofNatLE 2 (65535 - n) ++ rest)) :
    Cursor.openBlock s = .ok (final, .stored n, ⟨rest, 0⟩) := by
  obtain ⟨u, hnext, hkind⟩ := hgives
  have hcheck : n + (65535 - n) = 65535 := by omega
  have hlength : Cursor.storedLength t = .ok (n, ⟨rest, 0⟩) := by
    rw [Cursor.storedLength, Bits.align, hrest, Bits.number_of_gives_lt (gives_ofNatLE n _) hn]
    dsimp only [bind, Except.bind]
    rw [Bits.number_of_gives_lt (gives_ofNatLE (65535 - n) rest) (by omega)]
    dsimp only
    rw [if_pos hcheck]
  rw [Cursor.openBlock, hnext]
  dsimp only [bind, Except.bind]
  rw [Bits.number_of_gives_lt hkind (by decide)]
  dsimp only
  rw [if_pos rfl, hlength]

theorem exists_reads_octets (final : Bool) (b rest : Bytes) (out : ByteArray) :
    ∃ out', out'.toList = out.toList ++ b ∧
      Reads ⟨⟨b ++ rest, 0⟩, final, .stored b.length⟩ out
        ⟨⟨rest, 0⟩, final, Cursor.blockEnd final⟩ out' := by
  induction b generalizing out with
  | nil => exact ⟨out, (List.append_nil _).symm, fun _ _ hrest => .item rfl rfl hrest⟩
  | cons x b ih =>
      obtain ⟨out', hout, hreads⟩ := ih (out.push x)
      rw [toList_push, List.append_assoc, List.singleton_append] at hout
      exact ⟨out', hout, fun content behind hrest =>
        .item rfl rfl (hreads content behind hrest)⟩

theorem storedBlock_eq (final : Bool) (b : Bytes) :
    storedBlock final b = pack (final :: lowBits 2 0) ++
      (Bytes.ofNatLE 2 b.length ++ (Bytes.ofNatLE 2 (65535 - b.length) ++ b)) := by
  rw [storedBlock, List.append_assoc]
  cases final <;> rfl

/-! ## Blocks -/

/-- A block adds its piece of the content; the next one begins with the octets behind it. -/
theorem exists_reads_block (final last : Bool) {b : Bytes} (h : b.length ≤ blockLength)
    (rest : Bytes) (out : ByteArray) :
    ∃ t out', t.rest = rest ∧ (final = false → t = ⟨rest, 0⟩) ∧
      out'.toList = out.toList ++ b ∧
      Reads ⟨⟨block final b ++ rest, 0⟩, last, .header⟩ out
        ⟨t, final, Cursor.blockEnd final⟩ out' := by
  have hshort : b.length ≤ 32768 := Nat.le_trans h (by decide)
  rw [block]
  split
  · obtain ⟨t, hgives, hrest⟩ := Bits.gives_pack (final :: lowBits 2 0)
      (Bytes.ofNatLE 2 b.length ++ (Bytes.ofNatLE 2 (65535 - b.length) ++ (b ++ rest)))
    have hopen := openBlock_stored (Nat.lt_of_le_of_lt hshort (by decide)) hgives hrest
    obtain ⟨out', hout, hreads⟩ := exists_reads_octets final b rest out
    refine ⟨⟨rest, 0⟩, out', rfl, fun _ => rfl, hout, ?_⟩
    rw [storedBlock_eq]
    simp only [List.append_assoc]
    exact (reads_header hopen).trans hreads
  · cases final with
    | true =>
        obtain ⟨t, hgives, hrest⟩ := Bits.gives_pack (blockBits true b) rest
        obtain ⟨out', hout, hreads⟩ := exists_reads_coded true last hshort hgives out
        exact ⟨t, out', hrest, nofun, hout, hreads⟩
    | false =>
        -- An empty stored block follows, and takes what is left of the last octet.
        obtain ⟨t, hgives, hrest⟩ := Bits.gives_pack (blockBits false b ++ false :: lowBits 2 0)
          ([0, 0, 255, 255] ++ rest)
        obtain ⟨u, hgives, hempty⟩ := Bits.gives_append.mp hgives
        obtain ⟨out', hout, hreads⟩ := exists_reads_coded false last hshort hgives out
        have hopen := openBlock_stored (n := 0) (by decide) hempty hrest
        refine ⟨⟨rest, 0⟩, out', rfl, fun _ => rfl, hout, ?_⟩
        rw [closed, if_neg (by decide), List.append_assoc]
        exact hreads.trans ((reads_header hopen).trans fun _ _ hnext => .item rfl rfl hnext)

/-- Blocks add all pieces, and leave what is behind the last one. -/
theorem exists_inflates_blocks {bs : List Bytes} (h : ∀ b ∈ bs, b.length ≤ blockLength)
    (last : Bool) (rest : Bytes) (out : ByteArray) :
    ∃ content, content.toList = out.toList ++ bs.flatten ∧
      Inflates ⟨⟨blocks bs ++ rest, 0⟩, last, .header⟩ out content rest := by
  have hlast : ∀ {b : Bytes} (last : Bool) (out : ByteArray), b.length ≤ blockLength →
      ∃ content, content.toList = out.toList ++ b ∧
        Inflates ⟨⟨block true b ++ rest, 0⟩, last, .header⟩ out content rest := by
    intro b last out hb
    obtain ⟨t, out', hrest, -, hout, hreads⟩ := exists_reads_block true last hb rest out
    exact ⟨out', hout, hreads _ _ (hrest ▸ .done rfl)⟩
  induction bs using blocks.induct generalizing last out with
  | case1 => exact hlast last out (Nat.zero_le _)
  | case2 b =>
      rw [List.flatten_cons, List.flatten_nil, List.append_nil]
      exact hlast last out (h b List.mem_cons_self)
  | case3 b c bs ih =>
      obtain ⟨t, out', -, hnext, hout, hreads⟩ := exists_reads_block false last
        (h b List.mem_cons_self) (blocks (c :: bs) ++ rest) out
      obtain rfl := hnext rfl
      obtain ⟨content, hcontent, hinflates⟩ :=
        ih (fun x hx => h x (List.mem_cons_of_mem b hx)) false out'
      refine ⟨content, ?_, ?_⟩
      · rw [hcontent, hout, List.append_assoc]
        rfl
      · rw [blocks, List.append_assoc]
        exact hreads _ _ hinflates

/-! ## Members -/

theorem member_eq (deflated b : Bytes) :
    member deflated b = plainHeader ++ (deflated ++ trailerOf b) := by
  simp only [member, trailerOf, List.append_assoc]

/-- What was compressed is a member of its content, with nothing behind it. -/
theorem member_compress (b : Bytes) : Member (compress b) b [] := by
  have hpieces : ∀ c ∈ Bytes.chunks blockLength b, c.length ≤ blockLength :=
    fun c hc => Bytes.length_le_of_mem_chunks hc
  obtain ⟨content, hcontent, hinflates⟩ :=
    exists_inflates_blocks hpieces false (trailerOf b) ⟨#[]⟩
  have hempty : (⟨#[]⟩ : ByteArray).toList = [] := toList_eq _
  rw [Bytes.flatten_chunks (by decide), hempty, List.nil_append] at hcontent
  refine ⟨deflate b ++ trailerOf b, content, ?_, ?_, hcontent⟩
  · rw [compress, member_eq]
    rfl
  · rw [List.append_nil]
    exact hinflates

/-- What was compressed opens within every limit that leaves room for it. -/
theorem gunzip_compress_le {limit : Nat} {b : Bytes} (h : b.length ≤ limit) :
    gunzip limit (compress b) = .ok b :=
  gunzip_eq_ok_iff.mpr ⟨⟨[], member_compress b⟩, h⟩

theorem gunzip_compress (b : Bytes) : gunzip b.length (compress b) = .ok b :=
  gunzip_compress_le (Nat.le_refl _)

/-! ## Lengths -/

theorem length_pack_le (bits : List Bool) : (pack bits).length ≤ bits.length / 8 + 1 := by
  induction bits using pack.induct with
  | case1 a b c d e f g h more ih =>
      rw [pack, List.length_cons]
      simp only [List.length_cons]
      omega
  | case2 => exact Nat.zero_le _
  | case3 few hfew hne =>
      rw [pack, List.length_singleton]
      · exact Nat.le_add_left 1 _
      · exact hfew
      · exact hne

theorem length_storedBlock (final : Bool) (b : Bytes) :
    (storedBlock final b).length = b.length + 5 := by
  simp only [storedBlock, List.length_append, List.length_cons, Bytes.length_ofNatLE]
  omega

theorem length_block_le (final : Bool) {b : Bytes} (h : literalLength < b.length) :
    (block final b).length ≤ b.length + 5 := by
  rw [block]
  split
  · exact Nat.le_of_eq (length_storedBlock final b)
  · rename_i hcoded
    have hbits : (blockBits final b).length / 8 + 1 < b.length :=
      Nat.lt_of_not_le fun hmany => hcoded ⟨h, hmany⟩
    rw [closed]
    split
    · have hpacked := length_pack_le (blockBits final b)
      omega
    · have hpacked := length_pack_le (blockBits final b ++ false :: lowBits 2 0)
      have hlength : (blockBits final b ++ false :: lowBits 2 0).length =
          (blockBits final b).length + 3 := by
        rw [List.length_append]
        rfl
      rw [hlength] at hpacked
      rw [List.length_append]
      simp only [List.length_cons, List.length_nil]
      omega

theorem length_member (deflated b : Bytes) : (member deflated b).length = deflated.length + 18 := by
  rw [member_eq, List.length_append, List.length_append, length_trailerOf]
  have hheader : plainHeader.length = 10 := rfl
  omega

/-- Content of one block that is long enough to be stored takes at most 23 octets more when it is
compressed. -/
theorem length_compress_le {b : Bytes} (hlong : literalLength < b.length)
    (hshort : b.length ≤ blockLength) : (compress b).length ≤ b.length + 23 := by
  have hne : b ≠ [] := List.ne_nil_of_length_pos (Nat.lt_of_le_of_lt (Nat.zero_le _) hlong)
  have hblock := length_block_le true hlong
  rw [compress, length_member, deflate, Bytes.chunks_eq_singleton hne hshort, blocks]
  omega

end Telemetry.Gzip
