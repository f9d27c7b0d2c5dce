import Mathlib.Tactic.IntervalCases
import YulToolchain.Proofs.Syntax.Written

/-!
# Produced Numbers

The literal that a pass writes for a word denotes that word and can be written down.

Digits are written from the highest to the lowest, so both readings are followed along the
way in which digits come about: the last one is the remainder by the base, and those in
front of it are the digits of the quotient. Decimal digits are read from the front, so the
statement is about what is read behind the digits of a number, with any text following.
Hexadecimal ones are read from the back, so there the digits still to come stand for the
quotient, at sixteen times the place value.

## Theorems

* `readDecimal_toDigits`, `readHexadecimal_toDigits`: Digits are read as the number that they
  were written for.
* `Literal.numberText_toList`, `readNumber_numberText`: The digits of a word, and what is
  read from them.
* `Literal.value_number`: A produced literal denotes its word.
* `Literal.written_number`: Its text is that of a number.
-/

namespace YulToolchain

theorem digit?_natDigit {n : Nat} (h : n < 16) : Hex.digit? (Nat.digitChar n) = some n := by
  interval_cases n <;> rfl

theorem decimalDigit?_digitChar {n : Nat} (h : n < 10) :
    decimalDigit? (Nat.digitChar n) = some n := by
  rw [decimalDigit?, digit?_natDigit (Nat.lt_trans h (by decide)), Option.filter_some,
    if_pos (decide_eq_true h)]

theorem digitChar_ne_underscore {n : Nat} (h : n < 16) : Nat.digitChar n ≠ '_' := by
  interval_cases n <;> decide

/-- A digit is taken in whether or not it ends a group, as long as the number fits. -/
theorem readDecimal_digitChar {m d : Nat} (hd : d < 10) (hfits : m * 10 + d < Word.count)
    (pending : Nat) (rest : List Char) : ∃ pending',
      readDecimal pending m (Nat.digitChar d :: rest) = readDecimal pending' (m * 10 + d) rest := by
  have hne := digitChar_ne_underscore (Nat.lt_trans hd (by decide))
  simp only [readDecimal, if_neg hne, decimalDigit?_digitChar hd]
  by_cases hpending : pending + 1 < decimalGroup
  · exact ⟨pending + 1, by rw [if_pos hpending]⟩
  · exact ⟨0, by rw [if_neg hpending, if_pos hfits]⟩

/-- The digits of a number in front of some text are read as the number. -/
theorem readDecimal_toDigits (n : Nat) (hn : n < Word.count) : ∀ (pending : Nat)
    (rest : List Char), ∃ pending',
      readDecimal pending 0 (Nat.toDigits 10 n ++ rest) = readDecimal pending' n rest := by
  -- The last digit is read after the number in front of it.
  induction n using Nat.strong_induction_on with
  | _ n ih =>
    intro pending rest
    rw [Nat.toDigits_eq_if (by decide)]
    split
    · rename_i hlt
      have hfits : 0 * 10 + n < Word.count := by omega
      rcases readDecimal_digitChar hlt hfits pending rest with ⟨pending', h⟩
      rw [Nat.zero_mul, Nat.zero_add] at h
      exact ⟨pending', h⟩
    · rename_i hge
      have hquotient : n / 10 < n := Nat.div_lt_self (by omega) (by decide)
      have hnumber : n / 10 * 10 + n % 10 = n := by omega
      -- The quotient's digits are read with the last one still to come.
      rw [List.append_assoc, List.singleton_append]
      rcases ih (n / 10) hquotient (Nat.lt_trans hquotient hn) pending
        (Nat.digitChar (n % 10) :: rest) with ⟨p₁, h₁⟩
      rcases readDecimal_digitChar (m := n / 10) (Nat.mod_lt n (by decide)) (by omega) p₁ rest with
        ⟨p₂, h₂⟩
      rw [hnumber] at h₂
      exact ⟨p₂, h₁.trans h₂⟩

/-- The digits of a number are read from the back as the number, at any place value. -/
theorem readHexadecimal_toDigits (n : Nat) : ∀ (weight m : Nat), m + n * weight < Word.count →
    readHexadecimal weight m (Nat.toDigits 16 n).reverse
      = .ok (BitVec.ofNat 256 (m + n * weight)) := by
  -- Digits are read from the last one on, so the weight grows with each.
  induction n using Nat.strong_induction_on with
  | _ n ih =>
    intro weight m hfits
    rw [Nat.toDigits_eq_if (by decide)]
    split
    · rename_i hlt
      rw [List.reverse_singleton, readHexadecimal, if_neg (digitChar_ne_underscore hlt),
        digit?_natDigit hlt]
      simp only [if_pos hfits, readHexadecimal]
    · rename_i hge
      have hmod : n % 16 < 16 := Nat.mod_lt n (by decide)
      have hquotient : n / 16 < n := Nat.div_lt_self (by omega) (by decide)
      -- The value so far with the last digit and with the weighted quotient is the whole value.
      have hnumber : m + n % 16 * weight + n / 16 * (weight * 16) = m + n * weight := by
        rw [Nat.add_assoc, Nat.mul_comm weight 16, ← Nat.mul_assoc, ← Nat.add_mul, Nat.mod_add_div']
      have hdigit : m + n % 16 * weight < Word.count := by
        refine Nat.lt_of_le_of_lt ?_ hfits
        rw [← hnumber]
        exact Nat.le_add_right _ _
      rw [List.reverse_append, List.reverse_singleton, List.singleton_append, readHexadecimal,
        if_neg (digitChar_ne_underscore hmod), digit?_natDigit hmod]
      simp only [if_pos hdigit]
      rw [ih (n / 16) hquotient (weight * 16) _ (hnumber ▸ hfits), hnumber]

/-- No decimal digit looks like the start of a hexadecimal number. -/
theorem toDigits_ne_hexadecimal (n : Nat) (rest : List Char) :
    Nat.toDigits 10 n ≠ '0' :: 'x' :: rest := by
  intro h
  have hmem : 'x' ∈ Nat.toDigits 10 n := by
    rw [h]
    exact List.mem_cons_of_mem _ List.mem_cons_self
  exact absurd (Nat.isDigit_of_mem_toDigits (by decide) (Nat.le_refl _) hmem) (by decide)

/-- The text written for a word is its digits, hexadecimal ones behind a prefix. -/
theorem Literal.numberText_toList (w : Word) : (Literal.numberText w).toList =
    if w.toNat < 2 ^ 32 then Nat.toDigits 10 w.toNat
    else '0' :: 'x' :: Nat.toDigits 16 w.toNat := by
  rw [Literal.numberText]
  split
  · rename_i hlt
    rw [if_pos (show w.toNat < 2 ^ 32 from hlt)]
    exact Nat.toList_repr
  · rename_i hge
    rw [if_neg (show ¬w.toNat < 2 ^ 32 from hge), Word.toHex, String.toList_append,
      String.toList_ofList, String.toList_ofList]
    rfl

/-- The text written for a word is read as the word. -/
theorem readNumber_numberText (w : Word) : readNumber (Literal.numberText w) = .ok w := by
  have hw : w.toNat < Word.count := w.isLt
  have hdigits := Literal.numberText_toList w
  split at hdigits
  -- Small words are written in decimal.
  · rcases readDecimal_toDigits w.toNat hw 0 [] with ⟨pending, h⟩
    rw [List.append_nil, readDecimal, if_pos hw] at h
    rw [readNumber, hdigits]
    split
    · rename_i rest hrest
      exact absurd hrest (toDigits_ne_hexadecimal _ rest)
    · rw [h]
      simp only [BitVec.ofNat_toNat, BitVec.setWidth_eq]
      rfl
  -- Large words are written in hexadecimal, behind the prefix.
  · have h := readHexadecimal_toDigits w.toNat 1 0 (by omega)
    rw [Nat.mul_one, Nat.zero_add, BitVec.ofNat_toNat, BitVec.setWidth_eq] at h
    rw [readNumber, hdigits]
    simp only [h]
    rfl

/-- The literal written for a word denotes it. -/
theorem Literal.value_number (line : Nat) (w : Word) : (Literal.number line w).value = .ok w :=
  readNumber_numberText w

theorem isHexDigit_digitChar {n : Nat} (h : n < 16) : isHexDigit (Nat.digitChar n) = true := by
  interval_cases n <;> decide

/-- All digits of a number are hexadecimal ones. -/
theorem isHexDigit_toDigits (n : Nat) : ∀ c ∈ Nat.toDigits 16 n, isHexDigit c = true := by
  induction n using Nat.strong_induction_on with
  | _ n ih =>
    intro c hc
    rw [Nat.toDigits_eq_if (by decide)] at hc
    split at hc
    · rename_i hlt
      rw [List.mem_singleton.mp hc]
      exact isHexDigit_digitChar hlt
    · rename_i hge
      rcases List.mem_append.mp hc with hc | hc
      · exact ih (n / 16) (Nat.div_lt_self (by omega) (by decide)) c hc
      · rw [List.mem_singleton.mp hc]
        exact isHexDigit_digitChar (Nat.mod_lt n (by decide))

/-- The text written for a word is that of a number. -/
theorem Literal.isNumber_numberText (w : Word) : IsNumber (Literal.numberText w) := by
  rw [IsNumber]
  have hdigits := Literal.numberText_toList w
  split at hdigits
  · have hall : ∀ c ∈ Nat.toDigits 10 w.toNat, c.isDigit = true := fun c hc =>
      Nat.isDigit_of_mem_toDigits (by decide) (Nat.le_refl _) hc
    rw [hdigits]
    -- There is a first digit, and the run of digits is everything.
    constructor
    · rcases hcs : Nat.toDigits 10 w.toNat with _ | ⟨c, rest⟩
      · exact absurd hcs Nat.toDigits_ne_nil
      · exact ⟨c, rest, rfl, hall c (by rw [hcs]; exact List.mem_cons_self)⟩
    · rw [Lexer.splitNumber]
      · rw [(run_alone hall).1, (run_alone hall).2]
      · exact fun rest => toDigits_ne_hexadecimal _ rest
  · have hall := isHexDigit_toDigits w.toNat
    rw [hdigits]
    refine ⟨⟨'0', _, rfl, by decide⟩, ?_⟩
    rw [Lexer.splitNumber, (run_alone hall).1, (run_alone hall).2]

/-- The literal written for a word can be written down, whatever its type. -/
theorem Literal.written_number {line : Nat} {w : Word} {type : String} (h : TypeWritten type) :
    Literal.Written { Literal.number line w with type } :=
  ⟨h, Literal.isNumber_numberText w⟩

end YulToolchain
