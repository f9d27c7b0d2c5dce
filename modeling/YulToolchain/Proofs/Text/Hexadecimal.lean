import YulToolchain.Ast.Literal
import YulToolchain.Proofs.Static.Resolved
import Mathlib.Data.List.Basic

/-!
# Hexadecimal Digits in Texts

Which texts are read as bytes, and as which.

Data attachments and hexadecimal escapes are read two characters at a time, and a pair is read
as a number would be. A number may have a sign, and it may be short. So a plus sign passes for
a first digit, and at the end of a string an escape may have one digit only. Either counts as
if the first digit was a zero. With that zero in its place a text is read strictly: it is made
of pairs of digits, and written out again the bytes give back the digits in lower case.

A text without plus signs that does not end inside an escape has nothing to put in place.

## Main definitions

* `Hex.IsDigit`: The characters that are hexadecimal digits.
* `Hex.signless`: Digits with a zero in place of each sign.
* `Escaped`: A text stands for some bytes if escapes are read strictly.
* `fullEscapes`: A text with two digits in each hexadecimal escape.

## Theorems

* `Hex.decode?_eq_some_iff`: What digits are read as.
* `unescape_eq_ok_iff`: What a text with escapes is read as.
* `hexadecimal_is_read_strictly`: Where reading is strict, and what it does elsewhere.
-/

namespace YulToolchain

namespace Hex

/-- The characters that are hexadecimal digits. -/
def IsDigit (c : Char) : Prop := c ∈ "0123456789abcdefABCDEF".toList

instance (c : Char) : Decidable (IsDigit c) := inferInstanceAs (Decidable (c ∈ _))

section Digits

variable {c d : Char}

/-- What holds of all characters of a range that are listed makes each of them a digit. -/
theorem isDigit_of_between {first last : Char} (hfirst : first ≤ c) (hlast : c ≤ last)
    (hall : ∀ n ∈ List.range' first.toNat (last.toNat + 1 - first.toNat), IsDigit (Char.ofNat n)) :
    IsDigit c := by
  have hlow : first.toNat ≤ c.toNat := hfirst
  have hhigh : c.toNat ≤ last.toNat := hlast
  rw [← Char.ofNat_toNat c]
  exact hall _ (List.mem_range'_1.mpr ⟨hlow, by omega⟩)

/-- Digits have a value, and nothing else has. -/
theorem isSome_digit? : (digit? c).isSome = true ↔ IsDigit c := by
  constructor
  · intro h
    unfold digit? at h
    split at h
    · rename_i hc
      exact isDigit_of_between hc.1 hc.2 (by decide)
    · split at h
      · rename_i hc
        exact isDigit_of_between hc.1 hc.2 (by decide)
      · split at h
        · rename_i hc
          exact isDigit_of_between hc.1 hc.2 (by decide)
        · exact absurd h Bool.noConfusion
  · have hall : ("0123456789abcdefABCDEF".toList.all fun c => (digit? c).isSome) = true := by
      decide
    exact List.all_eq_true.mp hall c

/-- A digit is written in lower case again. -/
theorem digitChar_of_digit? {n : Nat} (h : digit? c = some n) :
    n < 16 ∧ digitChar n = c.toLower := by
  have hall : ("0123456789abcdefABCDEF".toList.all fun c =>
      (digit? c).all fun n => n < 16 && digitChar n == c.toLower) = true := by decide
  have hc := List.all_eq_true.mp hall c (isSome_digit?.mp (by rw [h]; rfl))
  rwa [h, Option.all_some, Bool.and_eq_true, decide_eq_true_eq, beq_iff_eq] at hc

/-- The first character of a pair, with a zero in place of a sign. -/
def unsigned (c : Char) : Char := if c = '+' then '0' else c

theorem digit?_unsigned : (if c = '+' then some 0 else digit? c) = digit? (unsigned c) := by
  unfold unsigned
  split <;> rfl

/-- A pair is read just if it is made of digits, and written out it is in lower case. -/
theorem readByte_eq_ok_iff {byte : UInt8} : readByte [c, d] = .ok byte ↔
    IsDigit (unsigned c) ∧ IsDigit d ∧ byteChars byte = [(unsigned c).toLower, d.toLower] := by
  rw [readByte, digit?_unsigned]
  constructor
  -- The two digits are the two halves of the byte, read and written in the same alphabet.
  · intro h
    split at h
    · rename_i high low hhigh hlow
      cases h
      rcases digitChar_of_digit? hhigh with ⟨hhigh16, hhighChar⟩
      rcases digitChar_of_digit? hlow with ⟨hlow16, hlowChar⟩
      have hnat : (UInt8.ofNat (high * 16 + low)).toNat = high * 16 + low := by
        rw [UInt8.toNat_ofNat']
        omega
      refine ⟨isSome_digit?.mp (by rw [hhigh]; rfl), isSome_digit?.mp (by rw [hlow]; rfl), ?_⟩
      rw [byteChars, hnat, ← hhighChar, ← hlowChar, show (high * 16 + low) / 16 = high by omega,
        show (high * 16 + low) % 16 = low by omega]
    · exact absurd h (by rintro ⟨⟩)
  · rintro ⟨hc, hd, hbyte⟩
    rcases Option.isSome_iff_exists.mp (isSome_digit?.mpr hc) with ⟨high, hhigh⟩
    rcases Option.isSome_iff_exists.mp (isSome_digit?.mpr hd) with ⟨low, hlow⟩
    rcases digitChar_of_digit? hhigh with ⟨hhigh16, hhighChar⟩
    rcases digitChar_of_digit? hlow with ⟨hlow16, hlowChar⟩
    have hinj : ∀ n < 16, ∀ m < 16, digitChar n = digitChar m → n = m := by decide
    have hlt := byte.toNat_lt
    rw [byteChars, ← hhighChar, ← hlowChar, List.cons.injEq, List.cons.injEq] at hbyte
    have hdiv := hinj _ (by omega) _ hhigh16 hbyte.1
    have hmod := hinj _ (by omega) _ hlow16 hbyte.2.1
    rw [hhigh, hlow]
    dsimp only
    rw [← hdiv, ← hmod, Nat.div_add_mod', UInt8.ofNat_toNat]

/-- Two digits are read as some byte. -/
theorem exists_readByte (hc : IsDigit (unsigned c)) (hd : IsDigit d) :
    ∃ byte, readByte [c, d] = .ok byte := by
  rcases Option.isSome_iff_exists.mp (isSome_digit?.mpr hc) with ⟨high, hhigh⟩
  rcases Option.isSome_iff_exists.mp (isSome_digit?.mpr hd) with ⟨low, hlow⟩
  rw [readByte, digit?_unsigned, hhigh, hlow]
  exact ⟨_, rfl⟩

end Digits

/-- Digits with a zero in place of each sign that stands in front of a pair. -/
def signless : List Char → List Char
  | c :: d :: rest => unsigned c :: d :: signless rest
  | cs => cs

/-- A text without a plus sign is the same without signs. -/
theorem signless_eq {text : List Char} (h : '+' ∉ text) : signless text = text := by
  fun_induction signless text with
  | case1 c d rest ih =>
      have hc : c ≠ '+' := fun hc => h (hc ▸ List.mem_cons_self)
      have hrest : '+' ∉ rest := fun hrest =>
        h (List.mem_cons_of_mem _ (List.mem_cons_of_mem _ hrest))
      rw [unsigned, if_neg hc, ih hrest]
  | case2 => rfl

/-- Text is read as some bytes just if it is made of pairs of digits, which the bytes give in
    lower case when they are written out. -/
theorem decode?_eq_some_iff {text : List Char} {bytes : List UInt8} :
    decode? text = some bytes ↔ text.length % 2 = 0 ∧ (∀ c ∈ signless text, IsDigit c) ∧
      bytes.flatMap byteChars = (signless text).map Char.toLower := by
  -- The digits are taken in pairs, as the text is read.
  fun_induction decode? text generalizing bytes with
  | case1 =>
      constructor
      · rintro ⟨⟩
        exact ⟨rfl, nofun, rfl⟩
      · rintro ⟨-, -, hwritten⟩
        cases bytes with
        | nil => rfl
        | cons byte rest => exact absurd hwritten (List.cons_ne_nil _ _)
  | case2 => exact iff_of_false nofun fun h => absurd h.1 Nat.one_ne_zero
  | case3 c d rest byte hbyte ih =>
      rcases readByte_eq_ok_iff.mp hbyte with ⟨hc, hd, hchars⟩
      rw [Option.map_eq_some_iff, signless, List.forall_mem_cons, List.forall_mem_cons,
        List.map_cons, List.map_cons, List.length_cons, List.length_cons]
      constructor
      -- A text that is read is made of the first byte and what is read of the rest.
      · rintro ⟨more, hmore, rfl⟩
        rcases ih.mp hmore with ⟨heven, hdigits, hwritten⟩
        refine ⟨by omega, ⟨hc, hd, hdigits⟩, ?_⟩
        rw [List.flatMap_cons, hchars, hwritten]
        rfl
      -- In the other direction the first two characters name the first byte.
      · rintro ⟨heven, ⟨-, -, hdigits⟩, hwritten⟩
        rcases bytes with _ | ⟨byte', more⟩
        · exact absurd hwritten (List.cons_ne_nil _ _).symm
        · rw [List.flatMap_cons, byteChars, List.cons_append, List.cons_append, List.nil_append,
            List.cons.injEq, List.cons.injEq] at hwritten
          have hsame : readByte [c, d] = .ok byte' := readByte_eq_ok_iff.mpr
            ⟨hc, hd, by rw [byteChars, hwritten.1, hwritten.2.1]⟩
          rw [hbyte] at hsame
          cases hsame
          exact ⟨more, ih.mpr ⟨by omega, hdigits, hwritten.2.2⟩, rfl⟩
  | case4 c d rest why hfault =>
      -- A pair that is no byte is no pair of digits.
      refine iff_of_false nofun fun h => ?_
      rw [signless, List.forall_mem_cons, List.forall_mem_cons] at h
      rcases exists_readByte h.2.1.1 h.2.1.2.1 with ⟨byte, hbyte⟩
      rw [hfault] at hbyte
      exact absurd hbyte (by rintro ⟨⟩)

/-- Pairs of digits are read. -/
theorem exists_decode? {text : List Char} (heven : text.length % 2 = 0)
    (hdigits : ∀ c ∈ signless text, IsDigit c) : ∃ bytes, decode? text = some bytes := by
  fun_induction signless text with
  | case1 c d rest ih =>
      rw [List.forall_mem_cons, List.forall_mem_cons] at hdigits
      rw [List.length_cons, List.length_cons] at heven
      rcases exists_readByte hdigits.1 hdigits.2.1 with ⟨byte, hbyte⟩
      rcases ih (by omega) hdigits.2.2 with ⟨more, hmore⟩
      refine ⟨byte :: more, ?_⟩
      rw [decode?, hbyte, hmore]
      rfl
  | case2 text hpair =>
      rcases text with _ | ⟨c, _ | ⟨d, rest⟩⟩
      · exact ⟨[], rfl⟩
      · exact absurd heven Nat.one_ne_zero
      · exact absurd rfl (hpair c d rest)

end Hex

/-- A text stands for some bytes if escapes are read strictly: one of a letter for the byte that
    belongs to the letter, and a hexadecimal one for the byte that its two digits give. -/
inductive Escaped : List Char → List UInt8 → Prop where
  | nil : Escaped [] []
  | plain {c : Char} {rest : List Char} {bytes : List UInt8} (hc : c ≠ '\\')
      (h : Escaped rest bytes) : Escaped (c :: rest) (String.utf8EncodeChar c ++ bytes)
  | letter {c : Char} {byte : UInt8} {rest : List Char} {bytes : List UInt8}
      (hc : simpleEscape? c = some byte) (h : Escaped rest bytes) :
      Escaped ('\\' :: c :: rest) (byte :: bytes)
  | hex {c d : Char} {byte : UInt8} {rest : List Char} {bytes : List UInt8} (hc : Hex.IsDigit c)
      (hd : Hex.IsDigit d) (hbyte : Hex.byteChars byte = [c.toLower, d.toLower])
      (h : Escaped rest bytes) : Escaped ('\\' :: 'x' :: c :: d :: rest) (byte :: bytes)

/-- A text with two digits in each hexadecimal escape: a zero takes the place of a sign, and of
    a first digit that is missing where the text ends. -/
def fullEscapes : List Char → List Char
  | ['\\', 'x', d] => ['\\', 'x', '0', d]
  | '\\' :: 'x' :: c :: d :: rest => '\\' :: 'x' :: Hex.unsigned c :: d :: fullEscapes rest
  | '\\' :: c :: rest => '\\' :: c :: fullEscapes rest
  | c :: rest => c :: fullEscapes rest
  | [] => []

section Escapes

theorem utf8Size_of_isDigit {c : Char} (h : Hex.IsDigit c) : c.utf8Size = 1 := by
  have hall : ("0123456789abcdefABCDEF".toList.all fun c => c.utf8Size == 1) = true := by decide
  exact beq_iff_eq.mp (List.all_eq_true.mp hall c h)

/-- A digit with or without a sign is a character of one byte. -/
theorem utf8Size_of_unsigned {c : Char} (h : Hex.IsDigit (Hex.unsigned c)) : c.utf8Size = 1 := by
  by_cases hc : c = '+'
  · rw [hc]
    rfl
  · rw [Hex.unsigned, if_neg hc] at h
    exact utf8Size_of_isDigit h

/-- A single digit is read as a byte whose upper half is zero. -/
theorem readByte_single_eq_ok_iff {c : Char} {byte : UInt8} : Hex.readByte [c] = .ok byte ↔
    Hex.IsDigit c ∧ Hex.byteChars byte = ['0', c.toLower] := by
  have hzero : Hex.readByte ['0', c] = .ok byte ↔ Hex.IsDigit (Hex.unsigned '0') ∧
      Hex.IsDigit c ∧ Hex.byteChars byte = ['0', c.toLower] := Hex.readByte_eq_ok_iff
  have hsame : Hex.readByte [c] = Hex.readByte ['0', c] := by
    rw [Hex.readByte, Hex.readByte]
    cases Hex.digit? c with
    | none => rfl
    | some n => exact congrArg (fun n => Except.ok (UInt8.ofNat n)) (Nat.zero_add n).symm
  rw [hsame, hzero]
  exact and_iff_right (by decide)

/-- What follows an escape sign is read as its digits are. -/
theorem hexEscape_of_digits {cs digits : List Char} {byte : UInt8}
    (h : escapeDigits cs = .ok digits) :
    hexEscape cs = .ok byte ↔ Hex.readByte digits = .ok byte := by
  have hescape : hexEscape cs
      = (Hex.readByte digits).mapError (.badHexEscape (String.ofList digits)) := by
    rw [hexEscape, h]
    rfl
  rw [hescape]
  cases Hex.readByte digits with
  | ok b => exact ⟨by rintro ⟨⟩; rfl, by rintro ⟨⟩; rfl⟩
  | error why => exact iff_of_false (by rintro ⟨⟩) (by rintro ⟨⟩)

/-- A fault in the digits of an escape is a fault of the escape. -/
theorem hexEscape_of_fault {cs : List Char} {why : LiteralFault} {byte : UInt8}
    (h : escapeDigits cs = .error why) : hexEscape cs ≠ .ok byte := by
  rw [hexEscape, h]
  rintro ⟨⟩

/-- An escape of one character has a value just if that is a digit. -/
theorem hexEscape_single_eq_ok_iff {c : Char} {byte : UInt8} : hexEscape [c] = .ok byte ↔
    Hex.IsDigit c ∧ Hex.byteChars byte = ['0', c.toLower] := by
  by_cases hc : c.utf8Size ≤ 2
  · have hdigits : escapeDigits [c] = .ok [c] := by rw [escapeDigits, if_pos hc]
    rw [hexEscape_of_digits hdigits, readByte_single_eq_ok_iff]
  · refine iff_of_false (hexEscape_of_fault (by rw [escapeDigits, if_neg hc])) fun h => hc ?_
    rw [utf8Size_of_isDigit h.1]
    decide

/-- An escape of two characters has a value just if they are digits. The two bytes may also be
    those of a single character, which is no digit then. -/
theorem hexEscape_eq_ok_iff {c d : Char} {byte : UInt8} : hexEscape [c, d] = .ok byte ↔
    Hex.IsDigit (Hex.unsigned c) ∧ Hex.IsDigit d ∧
      Hex.byteChars byte = [(Hex.unsigned c).toLower, d.toLower] := by
  by_cases hc : c.utf8Size = 1
  · by_cases hd : d.utf8Size = 1
    · have hdigits : escapeDigits [c, d] = .ok [c, d] := by
        rw [escapeDigits, if_pos hc, if_pos hd]
      rw [hexEscape_of_digits hdigits, Hex.readByte_eq_ok_iff]
    · exact iff_of_false (hexEscape_of_fault (by rw [escapeDigits, if_pos hc, if_neg hd]))
        fun h => hd (utf8Size_of_isDigit h.2.1)
  · refine iff_of_false ?_ fun h => hc (utf8Size_of_unsigned h.1)
    by_cases hpair : c.utf8Size = 2
    · have hdigits : escapeDigits [c, d] = .ok [c] := by
        rw [escapeDigits, if_neg hc, if_pos hpair]
      rw [hexEscape_of_digits hdigits, readByte_single_eq_ok_iff]
      exact fun h => hc (utf8Size_of_isDigit h.1)
    · exact hexEscape_of_fault (by rw [escapeDigits, if_neg hc, if_neg hpair])

/-- What is said of an escape with two digits. -/
theorem Escaped.hex_iff {c d : Char} {rest : List Char} {bytes : List UInt8} :
    Escaped ('\\' :: 'x' :: c :: d :: rest) bytes ↔ ∃ byte more, bytes = byte :: more ∧
      (Hex.IsDigit c ∧ Hex.IsDigit d ∧ Hex.byteChars byte = [c.toLower, d.toLower]) ∧
        Escaped rest more := by
  constructor
  · intro h
    cases h with
    | plain hc => exact absurd rfl hc
    | letter hc => cases hc
    | hex hc hd hbyte h => exact ⟨_, _, rfl, ⟨hc, hd, hbyte⟩, h⟩
  · rintro ⟨byte, more, rfl, ⟨hc, hd, hbyte⟩, h⟩
    exact .hex hc hd hbyte h

/-- What is said of an escape by a letter. -/
theorem Escaped.letter_iff {c : Char} {rest : List Char} {bytes : List UInt8} (hx : c ≠ 'x') :
    Escaped ('\\' :: c :: rest) bytes ↔ ∃ byte more, bytes = byte :: more ∧
      simpleEscape? c = some byte ∧ Escaped rest more := by
  constructor
  · intro h
    cases h with
    | plain hc => exact absurd rfl hc
    | letter hc h => exact ⟨_, _, rfl, hc, h⟩
    | hex => exact absurd rfl hx
  · rintro ⟨byte, more, rfl, hc, h⟩
    exact .letter hc h

/-- What is said of a character that is no escape. -/
theorem Escaped.plain_iff {c : Char} {rest : List Char} {bytes : List UInt8} (hc : c ≠ '\\') :
    Escaped (c :: rest) bytes ↔
      ∃ more, bytes = String.utf8EncodeChar c ++ more ∧ Escaped rest more := by
  constructor
  · intro h
    cases h with
    | plain _ h => exact ⟨_, rfl, h⟩
    | letter => exact absurd rfl hc
    | hex => exact absurd rfl hc
  · rintro ⟨more, rfl, h⟩
    exact .plain hc h

/-- Escapes by a letter have all their characters. -/
theorem fullEscapes_letter {c : Char} (hx : c ≠ 'x') (rest : List Char) :
    fullEscapes ('\\' :: c :: rest) = '\\' :: c :: fullEscapes rest := by
  rw [fullEscapes]
  · exact fun d h _ => hx h
  · exact fun d e rest h _ => hx h

/-- Characters that are no escapes stay as they are. -/
theorem fullEscapes_plain {c : Char} (hc : c ≠ '\\') (rest : List Char) :
    fullEscapes (c :: rest) = c :: fullEscapes rest := by
  rw [fullEscapes]
  · exact fun d h _ => hc h
  · exact fun d e rest h _ => hc h
  · exact fun d rest h _ => hc h

-- Reading a piece and then the rest.
/-- A byte followed by bytes is read if both are. -/
theorem bind_cons_eq_ok_iff {m : Except LiteralFault UInt8}
    {rest : Except LiteralFault (List UInt8)} {bytes : List UInt8} :
    (do return (← m) :: (← rest)) = (.ok bytes : Except LiteralFault (List UInt8)) ↔
      ∃ byte more, bytes = byte :: more ∧ m = .ok byte ∧ rest = .ok more := by
  constructor
  · intro h
    rcases bind_eq_ok h with ⟨byte, hbyte, h⟩
    rcases bind_eq_ok h with ⟨more, hmore, h⟩
    cases h
    exact ⟨byte, more, rfl, hbyte, hmore⟩
  · rintro ⟨byte, more, rfl, rfl, rfl⟩
    rfl

/-- A text is read as some bytes just if it stands for them with its escapes filled up. -/
theorem unescape_eq_ok_iff {text : List Char} {bytes : List UInt8} :
    unescape text = .ok bytes ↔ Escaped (fullEscapes text) bytes := by
  -- One case for each form that the text can begin with, as in the definition.
  fun_induction unescape text generalizing bytes with
  | case1 =>
      constructor
      · rintro ⟨⟩
        exact .nil
      · rintro ⟨⟩
        rfl
  | case2 =>
      refine iff_of_false (by rintro ⟨⟩) fun h => ?_
      rcases h with _ | ⟨hc, _⟩
      exact hc rfl
  | case3 =>
      refine iff_of_false (by rintro ⟨⟩) fun h => ?_
      rcases h with _ | ⟨hc, _⟩ | ⟨hc, _⟩
      · exact hc rfl
      · cases hc
  -- An escape that is cut off after its first digit has a zero in front of it.
  | case4 d =>
      have hzero : Hex.IsDigit '0' ∧ '0'.toLower = '0' := by decide
      rw [fullEscapes, Escaped.hex_iff, hzero.2]
      constructor
      · intro h
        rcases bind_eq_ok h with ⟨byte, hbyte, h⟩
        cases h
        exact ⟨byte, [], rfl, ⟨hzero.1, hexEscape_single_eq_ok_iff.mp hbyte⟩, .nil⟩
      · rintro ⟨byte, more, rfl, ⟨-, hd⟩, ⟨⟩⟩
        rw [hexEscape_single_eq_ok_iff.mpr hd]
        rfl
  | case5 c d rest ih =>
      rw [bind_cons_eq_ok_iff, fullEscapes, Escaped.hex_iff]
      simp only [hexEscape_eq_ok_iff, ih]
  -- Any other escape has a single letter, since the forms with digits were tried before.
  | case6 c rest hnone hone htwo byte hescape ih =>
      have hx : c ≠ 'x' := fun hx => by
        rcases rest with _ | ⟨d, _ | ⟨e, rest⟩⟩
        · exact hnone hx rfl
        · exact hone d hx rfl
        · exact htwo d e rest hx rfl
      rw [fullEscapes_letter hx, Escaped.letter_iff hx, hescape]
      constructor
      · intro h
        rcases bind_eq_ok h with ⟨more, hmore, h⟩
        cases h
        exact ⟨byte, more, rfl, rfl, ih.mp hmore⟩
      · rintro ⟨_, more, rfl, ⟨⟩, hmore⟩
        rw [ih.mpr hmore]
        rfl
  | case7 c rest hnone hone htwo hescape =>
      have hx : c ≠ 'x' := fun hx => by
        rcases rest with _ | ⟨d, _ | ⟨e, rest⟩⟩
        · exact hnone hx rfl
        · exact hone d hx rfl
        · exact htwo d e rest hx rfl
      rw [fullEscapes_letter hx, Escaped.letter_iff hx, hescape]
      exact iff_of_false (by rintro ⟨⟩) (by rintro ⟨_, _, _, ⟨⟩, _⟩)
  -- What is left is no escape.
  | case8 c rest hend _ _ _ hescape ih =>
      have hc : c ≠ '\\' := fun hc => by
        rcases rest with _ | ⟨d, rest⟩
        · exact hend hc rfl
        · exact hescape d rest hc rfl
      rw [fullEscapes_plain hc, Escaped.plain_iff hc]
      constructor
      · intro h
        rcases bind_eq_ok h with ⟨more, hmore, h⟩
        cases h
        exact ⟨more, rfl, ih.mp hmore⟩
      · rintro ⟨more, rfl, hmore⟩
        rw [ih.mpr hmore]
        rfl

/-- A text without plus signs and without an escape that is cut off is left as it is. -/
theorem fullEscapes_eq {text : List Char} (hsign : '+' ∉ text)
    (hend : ∀ d, ¬ ['\\', 'x', d] <:+ text) : fullEscapes text = text := by
  -- Both conditions hold of every end of the text as well.
  have hbehind : ∀ {cs rest : List Char}, rest <:+ cs → '+' ∉ cs →
      (∀ d, ¬ ['\\', 'x', d] <:+ cs) → '+' ∉ rest ∧ ∀ d, ¬ ['\\', 'x', d] <:+ rest :=
    fun hsuffix hsign hend => ⟨fun h => hsign (hsuffix.mem h), fun d h => hend d (h.trans hsuffix)⟩
  fun_induction fullEscapes text with
  | case1 d => exact absurd (List.suffix_refl _) (hend d)
  | case2 c d rest ih =>
      rcases hbehind ⟨['\\', 'x', c, d], rfl⟩ hsign hend with ⟨hsign', hend'⟩
      have hc : c ≠ '+' := fun hc => hsign (by rw [hc]; simp only [List.mem_cons, true_or, or_true])
      rw [ih hsign' hend', Hex.unsigned, if_neg hc]
  | case3 c rest _ _ ih =>
      rcases hbehind ⟨['\\', c], rfl⟩ hsign hend with ⟨hsign', hend'⟩
      rw [ih hsign' hend']
  | case4 c rest _ _ _ ih =>
      rcases hbehind ⟨[c], rfl⟩ hsign hend with ⟨hsign', hend'⟩
      rw [ih hsign' hend']
  | case5 => rfl

end Escapes

/-- Text is read as bytes just if it is made of pairs of hexadecimal digits, and the bytes are
    those that are written with these digits in lower case, and a text with escapes is read just
    if each hexadecimal escape has two digits, as the byte that they give. A plus sign in front
    of a digit is read as a zero all the same, and so is the first digit that is missing when the
    text ends behind the second one. Nothing else is read that is not a digit. -/
theorem hexadecimal_is_read_strictly (text : List Char) :
    ((∃ bytes, Hex.decode? text = some bytes) ↔
      text.length % 2 = 0 ∧ ∀ c ∈ Hex.signless text, Hex.IsDigit c) ∧
    (∀ bytes, Hex.decode? text = some bytes →
      (Hex.encode bytes).toList = (Hex.signless text).map Char.toLower) ∧
    (∀ bytes, unescape text = .ok bytes ↔ Escaped (fullEscapes text) bytes) ∧
    ('+' ∉ text → Hex.signless text = text ∧
      ((∀ d, ¬ ['\\', 'x', d] <:+ text) → fullEscapes text = text)) := by
  refine ⟨⟨?_, ?_⟩, fun bytes h => ?_, fun bytes => unescape_eq_ok_iff,
    fun hsign => ⟨Hex.signless_eq hsign, fullEscapes_eq hsign⟩⟩
  · rintro ⟨bytes, h⟩
    rcases Hex.decode?_eq_some_iff.mp h with ⟨heven, hdigits, -⟩
    exact ⟨heven, hdigits⟩
  · rintro ⟨heven, hdigits⟩
    exact Hex.exists_decode? heven hdigits
  · rw [Hex.encode, String.toList_ofList]
    exact (Hex.decode?_eq_some_iff.mp h).2.2

/-- Digits of either case, and an escape among other text. -/
theorem hexadecimal_is_read_strictly_mixed :
    Hex.decode? "0aF9".toList = some [0x0a, 0xf9] ∧
    (Hex.encode [0x0a, 0xf9]).toList = "0aF9".toList.map Char.toLower ∧
    '+' ∉ "é\\xC3\\\\xab".toList ∧ (∀ d, ¬ ['\\', 'x', d] <:+ "é\\xC3\\\\xab".toList) ∧
    Escaped "é\\xC3\\\\xab".toList [0xc3, 0xa9, 0xc3, 0x5c, 0x78, 0x61, 0x62] := by
  have hdecode : Hex.decode? "0aF9".toList = some [0x0a, 0xf9] := by decide
  have hend : ∀ d, ¬ ['\\', 'x', d] <:+ "é\\xC3\\\\xab".toList := by
    intro d h
    have hlast := List.suffix_iff_eq_drop.mp h
    simp at hlast
  refine ⟨hdecode, ?_, by decide, hend, ?_⟩
  · rcases hexadecimal_is_read_strictly "0aF9".toList with ⟨-, hbytes, -, hsignless⟩
    rw [hbytes _ hdecode, (hsignless (by decide)).1]
  · rcases hexadecimal_is_read_strictly "é\\xC3\\\\xab".toList with ⟨-, -, hread, hsignless⟩
    rw [← (hsignless (by decide)).2 hend]
    exact (hread _).mp (by decide)

/-- A sign is read as a digit, and an escape that the text ends in as if it was whole. -/
theorem sign_is_read_as_digit :
    Hex.decode? "+f".toList = some [0x0f] ∧ (¬ ∀ c ∈ "+f".toList, Hex.IsDigit c) ∧
    unescape "\\x+f".toList = .ok [0x0f] ∧ (¬ ∃ bytes, Escaped "\\x+f".toList bytes) ∧
    unescape "\\xf".toList = .ok [0x0f] ∧ ¬ ∃ bytes, Escaped "\\xf".toList bytes := by
  refine ⟨by decide, fun h => absurd (h '+' (by decide)) (by decide), by decide, ?_, by decide, ?_⟩
  · rintro ⟨bytes, h⟩
    rcases Escaped.hex_iff.mp h with ⟨byte, more, -, ⟨hsign, -⟩, -⟩
    exact absurd hsign (by decide)
  · rintro ⟨bytes, h⟩
    rcases h with _ | ⟨hc, _⟩ | ⟨hc, _⟩
    · exact hc rfl
    · cases hc

end YulToolchain
