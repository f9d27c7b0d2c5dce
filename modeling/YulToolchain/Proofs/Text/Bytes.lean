import YulToolchain.Text.Bytes

/-!
# Characters from Bytes

What the bytes of a text say about its characters.

Reading the encoding of some characters gives the characters back. Of any other bytes
not much can be said in general, as a byte may be read together with up to three more. But
no more characters come from some bytes than there are from all but the first of them, and
one. That takes a look at the bytes behind the first one. If they are read together with
it, then without it each of them is a replacement character of its own.

## Theorems

* `Text.length_ofBytes_cons_le`: A byte makes up one character at most.
* `Text.ofBytes_encode`: A character is read back from its encoding.
* `Text.ofBytes_toByteArray`: So is a text.
-/

namespace YulToolchain

namespace Text

section Bytes

variable {a b : UInt8}

theorem isContinuation_iff : isContinuation b = true ↔ 0x80 ≤ b.toNat ∧ b.toNat ≤ 0xbf := by
  simp only [isContinuation, Bool.and_eq_true, decide_eq_true_eq, UInt8.le_iff_toNat_le,
    UInt8.reduceToNat]

/-- The second byte of three leaves out what would fit into two bytes, and the surrogates. -/
theorem isSecondOfThree_iff : isSecondOfThree a b = true ↔
    isContinuation b = true ∧ (a.toNat = 0xe0 → 0xa0 ≤ b.toNat) ∧
      (a.toNat = 0xed → b.toNat ≤ 0x9f) := by
  simp only [isSecondOfThree, isContinuation_iff, ← UInt8.toNat_inj, UInt8.reduceToNat]
  split
  · simp only [Bool.and_eq_true, decide_eq_true_eq, UInt8.le_iff_toNat_le, UInt8.reduceToNat]
    omega
  · split
    · simp only [Bool.and_eq_true, decide_eq_true_eq, UInt8.le_iff_toNat_le, UInt8.reduceToNat]
      omega
    · rw [isContinuation_iff]
      omega

/-- The second byte of four leaves out what would fit into three bytes, and what is beyond
    Unicode. -/
theorem isSecondOfFour_iff : isSecondOfFour a b = true ↔
    isContinuation b = true ∧ (a.toNat = 0xf0 → 0x90 ≤ b.toNat) ∧
      (a.toNat = 0xf4 → b.toNat ≤ 0x8f) := by
  simp only [isSecondOfFour, isContinuation_iff, ← UInt8.toNat_inj, UInt8.reduceToNat]
  split
  · simp only [Bool.and_eq_true, decide_eq_true_eq, UInt8.le_iff_toNat_le, UInt8.reduceToNat]
    omega
  · split
    · simp only [Bool.and_eq_true, decide_eq_true_eq, UInt8.le_iff_toNat_le, UInt8.reduceToNat]
      omega
    · rw [isContinuation_iff]
      omega

end Bytes

section Reading

variable {a b c d : UInt8} {rest : List UInt8}

/-- What a first byte begins is decided by its value. -/
theorem ofBytes_cons : ofBytes (a :: rest) =
    if a.toNat < 0x80 then Char.ofNat a.toNat :: ofBytes rest
    else if 0xc2 ≤ a.toNat ∧ a.toNat ≤ 0xdf then
      match rest with
      | b :: rest' =>
        if isContinuation b then Char.ofNat (a.toNat % 32 * 64 + payload b) :: ofBytes rest'
        else replacement :: ofBytes rest
      | [] => [replacement]
    else if 0xe0 ≤ a.toNat ∧ a.toNat ≤ 0xef then
      match rest with
      | b :: c :: rest' =>
        if isSecondOfThree a b then
          if isContinuation c then
            Char.ofNat ((a.toNat % 16 * 64 + payload b) * 64 + payload c) :: ofBytes rest'
          else replacement :: ofBytes (c :: rest')
        else replacement :: ofBytes rest
      | [b] => if isSecondOfThree a b then [replacement] else replacement :: ofBytes rest
      | [] => [replacement]
    else if 0xf0 ≤ a.toNat ∧ a.toNat ≤ 0xf4 then
      match rest with
      | b :: c :: d :: rest' =>
        if isSecondOfFour a b then
          if isContinuation c then
            if isContinuation d then
              Char.ofNat (((a.toNat % 8 * 64 + payload b) * 64 + payload c) * 64 + payload d)
                :: ofBytes rest'
            else replacement :: ofBytes (d :: rest')
          else replacement :: ofBytes (c :: d :: rest')
        else replacement :: ofBytes rest
      | [b, c] =>
        if isSecondOfFour a b then
          if isContinuation c then [replacement] else replacement :: ofBytes [c]
        else replacement :: ofBytes rest
      | [b] => if isSecondOfFour a b then [replacement] else replacement :: ofBytes rest
      | [] => [replacement]
    else replacement :: ofBytes rest := by
  rw [ofBytes.eq_def]
  simp only [UInt8.lt_iff_toNat_lt, UInt8.le_iff_toNat_le, UInt8.reduceToNat, Bool.and_eq_true,
    decide_eq_true_eq]
  rcases rest with _ | ⟨b, _ | ⟨c, _ | ⟨d, rest⟩⟩⟩ <;> rfl

/-- A byte of the middle of a character is no beginning of one. -/
theorem ofBytes_continuation (h : isContinuation b = true) :
    ofBytes (b :: rest) = replacement :: ofBytes rest := by
  rw [isContinuation_iff] at h
  rw [ofBytes_cons, if_neg (by omega), if_neg (by omega), if_neg (by omega), if_neg (by omega)]

-- Wherever bytes behind the first are read together with it, they continue a
-- character, and are replaced one by one if they are read without it.
/-- A byte makes up one character at most. -/
theorem length_ofBytes_cons_le (a : UInt8) (rest : List UInt8) :
    (ofBytes (a :: rest)).length ≤ (ofBytes rest).length + 1 := by
  -- One case for each number of bytes that the first one announces.
  rw [ofBytes_cons]
  split
  · exact Nat.le_refl _
  · split
    · rcases rest with _ | ⟨b, rest⟩
      · exact Nat.le_refl _
      · dsimp only
        split
        -- The byte that is taken along is no beginning itself, so it counts at most for one
        -- character.
        · rename_i hb
          rw [ofBytes_continuation hb, List.length_cons, List.length_cons]
          omega
        · exact Nat.le_refl _
    · split
      · rcases rest with _ | ⟨b, _ | ⟨c, rest⟩⟩
        · exact Nat.le_refl _
        · dsimp only
          split
          · exact Nat.le_add_left _ _
          · exact Nat.le_refl _
        · dsimp only
          split
          · rename_i hb
            rw [ofBytes_continuation (isSecondOfThree_iff.mp hb).1]
            split
            · rename_i hc
              rw [ofBytes_continuation hc]
              simp only [List.length_cons]
              omega
            · simp only [List.length_cons]
              omega
          · exact Nat.le_refl _
      · split
        · rcases rest with _ | ⟨b, _ | ⟨c, _ | ⟨d, rest⟩⟩⟩
          · exact Nat.le_refl _
          · dsimp only
            split
            · exact Nat.le_add_left _ _
            · exact Nat.le_refl _
          · dsimp only
            split
            · rename_i hb
              rw [ofBytes_continuation (isSecondOfFour_iff.mp hb).1]
              split
              · exact Nat.le_add_left _ _
              · simp only [List.length_cons]
                omega
            · exact Nat.le_refl _
          · dsimp only
            split
            · rename_i hb
              rw [ofBytes_continuation (isSecondOfFour_iff.mp hb).1]
              split
              · rename_i hc
                rw [ofBytes_continuation hc]
                split
                · rename_i hd
                  rw [ofBytes_continuation hd]
                  simp only [List.length_cons]
                  omega
                · simp only [List.length_cons]
                  omega
              · simp only [List.length_cons]
                omega
            · exact Nat.le_refl _
        · exact Nat.le_refl _

theorem toNat_ofNat {n : Nat} (h : n < 256) : (UInt8.ofNat n).toNat = n := by
  rw [UInt8.toNat_ofNat', Nat.mod_eq_of_lt h]

theorem isContinuation_encode (n : Nat) : isContinuation (UInt8.ofNat (n % 64 + 128)) = true := by
  rw [isContinuation_iff, toNat_ofNat (by omega)]
  omega

theorem payload_encode (n : Nat) : payload (UInt8.ofNat (n % 64 + 128)) = n % 64 := by
  rw [payload, toNat_ofNat (by omega)]
  omega

/-- A character is read back from its encoding. -/
theorem ofBytes_encode (c : Char) (rest : List UInt8) :
    ofBytes (String.utf8EncodeChar c ++ rest) = c :: ofBytes rest := by
  have hvalid : c.val.toNat < 0xd800 ∨ 0xdfff < c.val.toNat ∧ c.val.toNat < 0x110000 := c.valid
  have hback : Char.ofNat c.val.toNat = c := Char.ofNat_toNat c
  unfold String.utf8EncodeChar
  dsimp only
  -- From here on it is about numbers, in the range of one, two, three or four bytes.
  generalize c.val.toNat = v at hvalid hback ⊢
  split
  · rw [List.singleton_append, ofBytes_cons, toNat_ofNat (by omega), if_pos (by omega), hback]
  · split
    · rw [List.cons_append, List.singleton_append, ofBytes_cons, toNat_ofNat (by omega),
        if_neg (by omega), if_pos (by omega)]
      dsimp only
      rw [if_pos (isContinuation_encode v), payload_encode, ← hback]
      congr 2
      omega
    · split
      · -- The narrower ranges leave out what is no character of three bytes.
        have hsecond : isSecondOfThree (UInt8.ofNat (v / 4096 % 16 + 224))
            (UInt8.ofNat (v / 64 % 64 + 128)) = true := by
          rw [isSecondOfThree_iff, toNat_ofNat (by omega), toNat_ofNat (by omega)]
          exact ⟨isContinuation_encode (v / 64), by omega, by omega⟩
        rw [List.cons_append, List.cons_append, List.singleton_append, ofBytes_cons,
          toNat_ofNat (by omega), if_neg (by omega), if_neg (by omega), if_pos (by omega)]
        dsimp only
        rw [if_pos hsecond, if_pos (isContinuation_encode v), payload_encode, payload_encode,
          ← hback]
        congr 2
        omega
      · have hsecond : isSecondOfFour (UInt8.ofNat (v / 262144 % 8 + 240))
            (UInt8.ofNat (v / 4096 % 64 + 128)) = true := by
          rw [isSecondOfFour_iff, toNat_ofNat (by omega), toNat_ofNat (by omega)]
          exact ⟨isContinuation_encode (v / 4096), by omega, by omega⟩
        rw [List.cons_append, List.cons_append, List.cons_append, List.singleton_append,
          ofBytes_cons, toNat_ofNat (by omega), if_neg (by omega), if_neg (by omega),
          if_neg (by omega), if_pos (by omega)]
        dsimp only
        rw [if_pos hsecond, if_pos (isContinuation_encode (v / 64)),
          if_pos (isContinuation_encode v), payload_encode, payload_encode, payload_encode, ← hback]
        congr 2
        omega

/-- Reading is an inverse of writing. -/
theorem ofBytes_bytes : ∀ cs : List Char, ofBytes (bytes cs) = cs
  | [] => rfl
  | c :: cs => by
      rw [bytes, List.flatMap_cons, ofBytes_encode]
      exact congrArg (c :: ·) (ofBytes_bytes cs)

/-- A text is read back from its bytes. -/
theorem ofBytes_toByteArray (s : String) : ofBytes s.toByteArray.data.toList = s.toList := by
  have hbytes : s.toByteArray.data.toList = bytes s.toList := by
    rw [← String.utf8Encode_toList, List.utf8Encode, List.toList_data_toByteArray]
    rfl
  rw [hbytes]
  exact ofBytes_bytes s.toList

end Reading

end Text

end YulToolchain
