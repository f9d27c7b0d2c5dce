import YulToolchain.Proofs.Text.Bytes

/-!
# Texts and Positions in Them

What the bytes of a text say about positions in it.

A position is a number of bytes. It splits a text between two characters exactly if the
text before it has that many bytes, so a text that is put together from three has a
position on either side of the middle one, and cutting between the two gives the middle
one back. No byte of a longer encoding is a line end, so line ends can be counted among
the bytes as well as among the characters.

## Main definitions

* `Text.lineFeed`: The byte of a line end.
* `Cut`: A text is cut out of another one between two positions.

## Theorems

* `Text.count_bytes_lineFeed`: The line ends among the bytes of a text.
* `cut_of_append`: Where a text is cut out of one that it is a part of.
-/

namespace YulToolchain

/-- A text stands in the source between two positions, counted in bytes, at which characters
    start or the source ends. -/
def Cut (source : String) (start stop : Nat) (text : String) : Prop :=
  ∃ first last : source.Pos, first.offset.byteIdx = start ∧ last.offset.byteIdx = stop ∧
    first ≤ last ∧ source.extract first last = text

namespace Text

section Bytes

theorem bytes_append (cs more : List Char) : bytes (cs ++ more) = bytes cs ++ bytes more :=
  List.flatMap_append

theorem bytes_cons (c : Char) (cs : List Char) :
    bytes (c :: cs) = String.utf8EncodeChar c ++ bytes cs := List.flatMap_cons

/-- A text is written with as many bytes as it has by definition. -/
theorem length_bytes (s : String) : (bytes s.toList).length = s.utf8ByteSize := by
  rw [← String.size_toByteArray, ← String.utf8Encode_toList, List.utf8Encode, ByteArray.size,
    ← Array.length_toList, List.toList_data_toByteArray]
  rfl

theorem length_bytes_ofList (cs : List Char) :
    (bytes cs).length = (String.ofList cs).utf8ByteSize := by
  rw [← length_bytes, String.toList_ofList]

/-- No character is written with no bytes. -/
theorem bytes_ne_nil {cs : List Char} (h : cs ≠ []) : bytes cs ≠ [] := by
  rcases cs with _ | ⟨c, cs⟩
  · exact absurd rfl h
  · rw [bytes_cons]
    exact fun hnil => String.utf8EncodeChar_ne_nil (List.append_eq_nil_iff.mp hnil).1

end Bytes

section Lines

/-- The byte of a line end. -/
def lineFeed : UInt8 := 10

theorem toNat_lineFeed : lineFeed.toNat = 10 := rfl

/-- The bytes of all longer characters are above 127. -/
theorem lineFeed_ne_ofNat {n : Nat} (h : 128 ≤ n ∧ n < 256) : lineFeed ≠ UInt8.ofNat n := by
  intro heq
  have hvalue := congrArg UInt8.toNat heq
  rw [toNat_ofNat h.2, toNat_lineFeed] at hvalue
  omega

-- All bytes of a longer encoding are at least 128.
/-- A line end is among the bytes of no other character. -/
theorem lineFeed_mem_utf8EncodeChar {c : Char} :
    lineFeed ∈ String.utf8EncodeChar c ↔ c = '\n' := by
  -- For each number of bytes, the first case is the only one in which a byte may be below 128.
  refine ⟨fun h => ?_, by rintro rfl; decide⟩
  have hback : Char.ofNat c.val.toNat = c := Char.ofNat_toNat c
  have hvalid : c.val.toNat < 0xd800 ∨ 0xdfff < c.val.toNat ∧ c.val.toNat < 0x110000 := c.valid
  unfold String.utf8EncodeChar at h
  dsimp only at h
  generalize c.val.toNat = v at h hback hvalid
  split at h
  · have hvalue := congrArg UInt8.toNat (List.mem_singleton.mp h)
    rw [toNat_ofNat (by omega), toNat_lineFeed] at hvalue
    rw [← hback, ← hvalue]
  · split at h
    · simp only [List.mem_cons, List.not_mem_nil, or_false] at h
      rcases h with h | h <;> exact absurd h (lineFeed_ne_ofNat (by omega))
    · split at h
      · simp only [List.mem_cons, List.not_mem_nil, or_false] at h
        rcases h with h | h | h <;> exact absurd h (lineFeed_ne_ofNat (by omega))
      · simp only [List.mem_cons, List.not_mem_nil, or_false] at h
        rcases h with h | h | h | h <;> exact absurd h (lineFeed_ne_ofNat (by omega))

/-- A character has a line feed among its bytes as often as it is one. -/
theorem count_utf8EncodeChar_lineFeed (c : Char) :
    (String.utf8EncodeChar c).count lineFeed = [c].count '\n' := by
  by_cases hc : c = '\n'
  · subst hc
    decide
  · rw [List.count_eq_zero.mpr fun h => hc (lineFeed_mem_utf8EncodeChar.mp h),
      List.count_eq_zero.mpr fun h => hc (List.mem_singleton.mp h).symm]

/-- The line ends among the bytes of a text. -/
theorem count_bytes_lineFeed (cs : List Char) : (bytes cs).count lineFeed = cs.count '\n' := by
  induction cs with
  | nil => rfl
  | cons c cs ih =>
      rw [bytes_cons, List.count_append, ih, count_utf8EncodeChar_lineFeed, ← List.count_append]
      rfl

theorem lineFeed_mem_bytes {cs : List Char} : lineFeed ∈ bytes cs ↔ '\n' ∈ cs := by
  rw [← List.count_pos_iff, count_bytes_lineFeed, List.count_pos_iff]

end Lines

end Text

section Cutting

/-- A part of a text is cut out of the bytes between the sizes of what is before it and up to its
    end. -/
theorem toByteArray_extract_middle {source before text after : String}
    (h : source = before ++ (text ++ after)) :
    source.toByteArray.extract before.utf8ByteSize (before ++ text).utf8ByteSize
      = text.toByteArray := by
  rw [h, String.toByteArray_append, String.toByteArray_append, String.utf8ByteSize_append,
    ← String.size_toByteArray, ← String.size_toByteArray]
  exact (ByteArray.extract_append_size_add (i := 0)).trans (ByteArray.extract_append_eq_left rfl)

/-- Where a text is cut out of one that it is a part of. -/
theorem cut_of_append {source text : String} {before after : List Char}
    (h : source.toList = before ++ (text.toList ++ after)) :
    Cut source (Text.bytes before).length (Text.bytes (before ++ text.toList)).length text := by
  have hsource : source = String.ofList before ++ (text ++ String.ofList after) := by
    apply String.toList_injective
    rw [h, String.toList_append, String.toList_append, String.toList_ofList, String.toList_ofList]
  have hsource' : source = (String.ofList before ++ text) ++ String.ofList after := by
    rw [String.append_assoc, hsource]
  -- Either part before a cut is a text, so no character is split.
  have hfirst : String.Pos.Raw.IsValid source (String.ofList before).rawEndPos :=
    String.Pos.Raw.isValid_iff_exists_append.mpr ⟨_, _, hsource, rfl⟩
  have hlast : String.Pos.Raw.IsValid source (String.ofList before ++ text).rawEndPos :=
    String.Pos.Raw.isValid_iff_exists_append.mpr ⟨_, _, hsource', rfl⟩
  have hsize : (Text.bytes (before ++ text.toList)).length
      = (String.ofList before ++ text).utf8ByteSize := by
    rw [Text.length_bytes_ofList, String.ofList_append, String.ofList_toList]
  refine ⟨⟨_, hfirst⟩, ⟨_, hlast⟩, (Text.length_bytes_ofList before).symm, hsize.symm, ?_, ?_⟩
  · show (String.ofList before).utf8ByteSize ≤ (String.ofList before ++ text).utf8ByteSize
    rw [String.utf8ByteSize_append]
    exact Nat.le_add_right _ _
  · exact String.toByteArray_inj.mp (toByteArray_extract_middle hsource)

end Cutting

end YulToolchain
