import YulToolchain.Proofs.Assembly.Decoding
import YulToolchain.Proofs.Syntax.Numbers
import YulToolchain.Proofs.Syntax.Reread

/-!
# Reading a Listing Back

A listing of some bytes says what the bytes are.

A line has two or three words. The first is the offset, the second the name of an
instruction, and the third shows bytes. Usually these are the immediate bytes of the
instruction and come behind its opcode. A byte that is no opcode is shown behind the name
of the instruction `invalid`, which carries no immediate bytes; so if this name is followed
by a byte then the byte stands for itself, and if it is followed by nothing the line is
the real instruction. A push at the end of the bytes shows as many as there are, down to
none, and is read back like any other.

Each line takes the bytes that it shows from the front of what is left, so the offset of a
line is the number of bytes that the lines before it stand for.

## Main definitions

* `readLine`: The offset and the bytes that a line shows.
* `Decoded.bytes`: The bytes that were read as an instruction.

## Theorems

* `Instruction.ofMnemonic?_mnemonic`: Names tell instructions apart.
* `readOffset_offsetText`: Offsets are read back.
* `readLine_line`: A line is read back.
* `decodeFrom_bytes`: Decoding leaves nothing out.
* `disassemble_is_lossless`: The lines determine the bytes.
-/

namespace YulToolchain

/-- An offset from its hexadecimal digits. -/
def readOffset (digits : List Char) : Option Nat :=
  digits.foldlM (fun n c => (Hex.digit? c).map (n * 16 + ·)) 0

/-- Bytes from their hexadecimal digits behind a prefix. -/
def readImmediate : List Char → Option (List UInt8)
  | '0' :: 'x' :: digits => Hex.decode? digits
  | _ => none

/-- The bytes that the name of an instruction and the word behind it show. -/
def readCode (name : List Char) : List (List Char) → Option (List UInt8)
  | [] => (Instruction.ofMnemonic? (String.ofList name)).map fun i => [i.opcode]
  | [shown] =>
    if name = Instruction.invalid.mnemonic.toList then readImmediate shown
    else (Instruction.ofMnemonic? (String.ofList name)).bind fun i =>
      (readImmediate shown).map (i.opcode :: ·)
  | _ => none

/-- The offset and the bytes that a line shows. -/
def readLine (line : String) : Option (Nat × List UInt8) :=
  match line.toList.splitOn ' ' with
  | offset :: name :: rest =>
    (readOffset offset).bind fun n => (readCode name rest).map fun bytes => (n, bytes)
  | _ => none

/-- The bytes that were read as an instruction or as none. -/
def Decoded.bytes : Decoded → List UInt8
  | .instruction i immediate => i.opcode :: immediate
  | .unknown b => [b]

/-- Only a push has immediate bytes. -/
def Decoded.WellFormed : Decoded → Prop
  | .instruction i immediate => i.isPush = false → immediate = []
  | .unknown _ => True

section Names

/-- The bytes of a text as one number, so that texts can be compared as numbers. -/
def spelling (s : String) : Nat :=
  s.toByteArray.data.toList.foldl (fun n b => n * 256 + b.toNat) 0

theorem Instruction.spellings_nodup :
    (Instruction.all.map fun i => spelling i.mnemonic).Nodup := by
  decide +kernel

/-- Names tell instructions apart. -/
theorem Instruction.mnemonic_injective : Function.Injective Instruction.mnemonic :=
  fun i j h =>
    List.inj_on_of_nodup_map spellings_nodup i.mem_all j.mem_all (congrArg spelling h)

/-- A mnemonic leads back to its instruction. -/
theorem Instruction.ofMnemonic?_mnemonic (i : Instruction) :
    Instruction.ofMnemonic? i.mnemonic = some i := by
  rcases hfound : Instruction.ofMnemonic? i.mnemonic with _ | j
  · exact absurd (beq_self_eq_true i.mnemonic) (List.find?_eq_none.mp hfound i i.mem_all)
  · have hname : j.mnemonic = i.mnemonic :=
      eq_of_beq (List.find?_some (p := fun k : Instruction => k.mnemonic == i.mnemonic) hfound)
    rw [mnemonic_injective hname]

/-- A blank in a text is a byte of it. -/
theorem blank_mem_bytes {s : String} (h : ' ' ∈ s.toList) : 32 ∈ s.toByteArray.data.toList := by
  rw [← String.utf8Encode_toList, List.utf8Encode, List.toList_data_toByteArray]
  exact List.mem_flatMap.mpr ⟨' ', h, by decide⟩

/-- Mnemonics have no blanks. -/
theorem Instruction.blank_not_mem_mnemonic (i : Instruction) : ' ' ∉ i.mnemonic.toList := by
  have hall : (Instruction.all.all fun i =>
      !i.mnemonic.toByteArray.data.toList.contains 32) = true := by decide +kernel
  have hi := List.all_eq_true.mp hall i i.mem_all
  intro hblank
  rw [List.contains_iff_mem.mpr (blank_mem_bytes hblank)] at hi
  exact absurd hi (by decide)

end Names

section Words

theorem blank_not_mem_of_hexDigit {cs : List Char} (h : ∀ c ∈ cs, isHexDigit c = true) :
    ' ' ∉ cs := fun hmem => absurd (h ' ' hmem) (by decide)

/-- Encoded bytes are hexadecimal digits. -/
theorem isHexDigit_encode (bytes : List UInt8) :
    ∀ c ∈ (Hex.encode bytes).toList, isHexDigit c = true := by
  intro c hc
  rw [Hex.encode, String.toList_ofList] at hc
  rcases List.mem_flatMap.mp hc with ⟨b, -, hb⟩
  have hlt := b.toNat_lt
  simp only [Hex.byteChars, List.mem_cons, List.not_mem_nil, or_false] at hb
  rcases hb with rfl | rfl
  · exact isHexDigit_digitChar (by omega)
  · exact isHexDigit_digitChar (by omega)

/-- Offsets are written in hexadecimal digits. -/
theorem isHexDigit_offsetText (offset : Nat) :
    ∀ c ∈ (offsetText offset).toList, isHexDigit c = true := by
  intro c hc
  rw [offsetText, String.toList_ofList] at hc
  rcases List.mem_append.mp hc with hc | hc
  · rw [List.eq_of_mem_replicate hc]
    decide
  · exact isHexDigit_toDigits offset c hc

/-- Digits are read as the number that they were written for. -/
theorem readOffset_toDigits (n : Nat) : readOffset (Nat.toDigits 16 n) = some n := by
  induction n using Nat.strong_induction_on with
  | _ n ih =>
      rw [Nat.toDigits_eq_if (by decide)]
      split
      · rename_i hlt
        simp [readOffset, digit?_natDigit hlt]
      · rename_i hge
        have hbefore := ih (n / 16) (Nat.div_lt_self (by omega) (by decide))
        rw [readOffset] at hbefore ⊢
        -- All digits but the last are those of the quotient, and the last is the remainder.
        rw [List.foldlM_append, hbefore]
        simp only [Option.bind_eq_bind, Option.bind_some, List.foldlM_cons, List.foldlM_nil,
          digit?_natDigit (Nat.mod_lt n (by decide)), Option.map_some, Option.pure_def]
        rw [Nat.div_add_mod']

/-- Zeros in front do not change an offset. -/
theorem readOffset_zeros (k : Nat) (cs : List Char) :
    readOffset (List.replicate k '0' ++ cs) = readOffset cs := by
  induction k with
  | zero => rfl
  | succ k ih => exact ih

/-- Offsets are read back. -/
theorem readOffset_offsetText (offset : Nat) :
    readOffset (offsetText offset).toList = some offset := by
  rw [offsetText, String.toList_ofList, readOffset_zeros, readOffset_toDigits]

theorem readImmediate_encode (bytes : List UInt8) :
    readImmediate ('0' :: 'x' :: (Hex.encode bytes).toList) = some bytes := decode?_encode bytes

end Words

section Lines

/-- A line is read word by word. -/
theorem readLine_words {line : String} {offset : Nat} {name : List Char}
    {rest : List (List Char)} {bytes : List UInt8} (hname : ' ' ∉ name)
    (hrest : ∀ word ∈ rest, ' ' ∉ word)
    (hline : line.toList = [' '].intercalate ((offsetText offset).toList :: name :: rest))
    (hcode : readCode name rest = some bytes) : readLine line = some (offset, bytes) := by
  have hwords : ∀ word ∈ (offsetText offset).toList :: name :: rest, ' ' ∉ word := by
    intro word hword
    rcases List.mem_cons.mp hword with rfl | hword
    · exact blank_not_mem_of_hexDigit (isHexDigit_offsetText offset)
    · rcases List.mem_cons.mp hword with rfl | hword
      · exact hname
      · exact hrest word hword
  rw [readLine, hline, List.splitOn_intercalate ' ' hwords (List.cons_ne_nil _ _)]
  dsimp only
  rw [readOffset_offsetText, Option.bind_some, hcode, Option.map_some]

/-- The word that shows some bytes. -/
def shownWord (bytes : List UInt8) : List Char := '0' :: 'x' :: (Hex.encode bytes).toList

/-- A word that shows bytes has no blanks. -/
theorem blank_not_mem_shownWord (bytes : List UInt8) : ' ' ∉ shownWord bytes := by
  intro h
  rcases List.mem_cons.mp h with h | h
  · exact absurd h (by decide)
  · rcases List.mem_cons.mp h with h | h
    · exact absurd h (by decide)
    · exact blank_not_mem_of_hexDigit (isHexDigit_encode bytes) h

-- The name `invalid` with bytes behind it is no instruction, but no push has that name.
/-- A line is read back. -/
theorem readLine_line {d : Decoded} (h : d.WellFormed) (offset : Nat) :
    readLine (d.line offset) = some (offset, d.bytes) := by
  have hshown : ∀ bytes, ∀ word ∈ [shownWord bytes], ' ' ∉ word := fun bytes word hword =>
    List.mem_singleton.mp hword ▸ blank_not_mem_shownWord bytes
  -- One case for each form of a line: an unknown byte, a push and any other instruction.
  cases d with
  | unknown b =>
      refine readLine_words Instruction.invalid.blank_not_mem_mnemonic (hshown [b]) ?_ ?_
      · simp [Decoded.line, shownWord, Instruction.mnemonic, List.intercalate]
      · rw [readCode, if_pos rfl]
        exact readImmediate_encode [b]
  | instruction i immediate =>
      by_cases hpush : i.isPush = true
      -- The name of a push is not the one that stands for unknown bytes.
      · have hname : i.mnemonic.toList ≠ Instruction.invalid.mnemonic.toList := by
          intro hname
          have hi := Instruction.mnemonic_injective (String.toList_injective hname)
          rw [hi] at hpush
          exact absurd hpush (by decide)
        refine readLine_words i.blank_not_mem_mnemonic (hshown immediate) ?_ ?_
        · simp [Decoded.line, shownWord, hpush, List.intercalate]
        · rw [readCode, if_neg hname, String.ofList_toList, i.ofMnemonic?_mnemonic,
            Option.bind_some, shownWord, readImmediate_encode, Option.map_some, Decoded.bytes]
      -- Without a push there are no immediate bytes, so the line has one word.
      · have hnone : immediate = [] := h (Bool.eq_false_iff.mpr hpush)
        have hnoWords : ∀ word ∈ ([] : List (List Char)), ' ' ∉ word := fun _ h =>
          absurd h List.not_mem_nil
        refine readLine_words i.blank_not_mem_mnemonic hnoWords ?_ ?_
        · simp [Decoded.line, hpush, List.intercalate]
        · rw [readCode, String.ofList_toList, i.ofMnemonic?_mnemonic, Option.map_some,
            Decoded.bytes, hnone]

end Lines

section Listing

/-- Dropping as many as were taken is dropping the number, even at the end. -/
theorem drop_length_take (rest : List UInt8) (k : Nat) :
    rest.drop (rest.take k).length = rest.drop k := by
  rw [List.length_take]
  rcases Nat.le_total k rest.length with hle | hle
  · rw [Nat.min_eq_left hle]
  · rw [Nat.min_eq_right hle, List.drop_length, List.drop_of_length_le hle]

/-- What some bytes start with takes bytes from their front. -/
theorem Decoded.first_bytes (b : UInt8) (rest : List UInt8) :
    (Decoded.first b rest).WellFormed ∧
      (Decoded.first b rest).bytes ++ rest.drop ((Decoded.first b rest).size - 1) = b :: rest ∧
      (Decoded.first b rest).bytes.length = (Decoded.first b rest).size := by
  unfold Decoded.first
  split
  · rename_i i hi
    have hopcode : i.opcode = b :=
      eq_of_beq (List.find?_some (p := fun k : Instruction => k.opcode == b) hi)
    refine ⟨fun hpush => ?_, ?_, ?_⟩
    · rw [Instruction.pushSize_of_isPush hpush, List.take_zero]
    -- A push at the end takes fewer bytes than it asks for, and then none are left behind.
    · rw [Decoded.bytes, Decoded.size, hopcode, List.cons_append, Nat.add_sub_cancel_left,
        drop_length_take, List.take_append_drop]
    · rw [Decoded.bytes, Decoded.size, List.length_cons, Nat.add_comm]
  · exact ⟨trivial, rfl, rfl⟩

theorem Decoded.bytes_ne_nil (d : Decoded) : d.bytes ≠ [] := by
  cases d <;> exact List.cons_ne_nil _ _

/-- Only pushes are decoded with immediate bytes. -/
theorem decodeFrom_wellFormed (offset : Nat) (code : List UInt8) :
    ∀ entry ∈ decodeFrom offset code, entry.2.WellFormed := by
  fun_induction decodeFrom offset code with
  | case1 => exact fun entry h => absurd h List.not_mem_nil
  | case2 offset b rest here ih =>
      intro entry hentry
      rcases List.mem_cons.mp hentry with rfl | hentry
      · exact (Decoded.first_bytes b rest).1
      · exact ih entry hentry

/-- Decoding leaves nothing out. -/
theorem decodeFrom_bytes (offset : Nat) (code : List UInt8) :
    (decodeFrom offset code).flatMap (·.2.bytes) = code := by
  fun_induction decodeFrom offset code with
  | case1 => rfl
  | case2 offset b rest here ih =>
      rw [List.flatMap_cons, ih]
      exact (Decoded.first_bytes b rest).2.1

/-- What was read starts behind what was read before it. -/
theorem decodeFrom_offset (offset : Nat) (code : List UInt8) :
    ∀ before position d after,
      decodeFrom offset code = before ++ (position, d) :: after →
        position = offset + (before.map fun entry => entry.2.bytes.length).sum := by
  fun_induction decodeFrom offset code with
  | case1 =>
      intro before position d after h
      exact absurd h.symm (List.append_ne_nil_of_right_ne_nil _ (List.cons_ne_nil _ _))
  | case2 offset b rest here ih =>
      intro before position d after h
      cases before with
      | nil => exact (congrArg Prod.fst (List.cons.inj h).1).symm
      | cons entry before =>
          obtain ⟨rfl, htail⟩ := List.cons.inj h
          rw [ih before position d after htail, List.map_cons, List.sum_cons]
          dsimp only
          rw [(Decoded.first_bytes b rest).2.2, Nat.add_assoc]

/-- The lines determine the bytes. Each line shows its offset, which is the number of bytes
    that the lines before it show, and at least one byte, and all of them together are the
    bytes that were disassembled. -/
theorem disassemble_is_lossless (code : List UInt8) : ∃ parts : List (Nat × List UInt8),
    (disassemble code).map readLine = parts.map some ∧ parts.flatMap (·.2) = code ∧
      ∀ before offset bytes after, parts = before ++ (offset, bytes) :: after →
        offset = (before.map (·.2.length)).sum ∧ bytes ≠ [] := by
  refine ⟨(decodeCode code).map fun entry => (entry.1, entry.2.bytes), ?_, ?_, ?_⟩
  · rw [disassemble, List.map_map, List.map_map]
    refine List.map_congr_left fun entry hentry => ?_
    exact readLine_line (decodeFrom_wellFormed 0 code entry hentry) entry.1
  · rw [List.flatMap_map]
    exact decodeFrom_bytes 0 code
  · intro before offset bytes after h
    rcases List.map_eq_append_iff.mp h with ⟨entries, later, hcode, rfl, hlater⟩
    rcases List.map_eq_cons_iff.mp hlater with ⟨⟨position, d⟩, more, rfl, hentry, -⟩
    obtain ⟨rfl, rfl⟩ := Prod.mk.inj hentry
    refine ⟨?_, d.bytes_ne_nil⟩
    rw [decodeFrom_offset 0 code entries position d more hcode, Nat.zero_add, List.map_map]
    rfl

/-- The real instruction, a byte that is no opcode and a push without its bytes. -/
example : disassemble [0xfe, 0x0c, 0x61] = ["0000 invalid", "0001 invalid 0x0c", "0002 push2 0x"] ∧
    readLine "0000 invalid" = some (0, [0xfe]) ∧
    readLine "0001 invalid 0x0c" = some (1, [0x0c]) := by
  refine ⟨?_, ?_, ?_⟩ <;> cbv

end Listing

end YulToolchain
