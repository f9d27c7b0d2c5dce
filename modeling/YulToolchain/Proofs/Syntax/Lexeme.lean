import YulToolchain.Token.Lexer
import Mathlib.Data.List.Basic

/-!
# Texts of Tokens

What is known of the text of a token from its kind, whatever source it was read
from.

An identifier is a word that is no keyword, a number is all digits, and what stands
between the quotes of a string is read to the closing quote and no further. Each of
the three is a property of the text alone, so a text that has it is read the same way
in any other source, as long as what follows does not run into it (`Clear`).

## Main definitions

* `IsName`, `IsNumber`, `IsQuoted`: The texts of identifiers, numbers and strings.
* `Token.Genuine`: The text of a token is what its kind says.
* `Clear`: What follows does not run into a word or a number.

## Theorems

* `tokens_genuine`: The tokens of a source are genuine.
* `scanString_quoted`, `splitNumber_number`, `takeWhile_run`: A genuine text is read
  back.
-/

namespace YulToolchain

/-- A text is a word: a letter followed by letters, digits and the like. -/
def IsWord (s : String) : Prop :=
  ∃ c rest, s.toList = c :: rest ∧ isIdentifierStart c = true ∧
    ∀ x ∈ rest, isIdentifierPart x = true

/-- A text is an identifier. -/
def IsName (s : String) : Prop := IsWord s ∧ keyword? s = none

/-- A text is a number. -/
def IsNumber (s : String) : Prop :=
  (∃ c rest, s.toList = c :: rest ∧ c.isDigit = true) ∧
    Lexer.splitNumber s.toList = (s.toList, [])

/-- A text can stand between quotes. -/
def IsQuoted (s : String) : Prop :=
  scanString (s.toList ++ ['"']) = .closed (s.toList ++ ['"']) []

/-- Some characters do not run into a word or a number before them. -/
def Clear (cs : List Char) : Prop :=
  ∀ c, cs.head? = some c → isIdentifierPart c = false ∧ c ≠ '"'

/-- The text of a token is what its kind says. -/
def Token.Genuine (t : Token) : Prop :=
  match t.kind with
  | .identifier => IsName t.text
  | .number => IsNumber t.text
  | .string => ∃ s, t.text = "\"" ++ s ++ "\"" ∧ IsQuoted s
  | .trueWord => t.text = "true"
  | .falseWord => t.text = "false"
  | _ => True

/-- Tokens of the other kinds carry no text that matters. -/
theorem Token.genuine_of_other {kind : TokenKind} {text : String} {line : Nat}
    (h : kind ≠ .identifier ∧ kind ≠ .number ∧ kind ≠ .string ∧ kind ≠ .trueWord ∧
      kind ≠ .falseWord) : (⟨kind, text, line⟩ : Token).Genuine := by
  unfold Token.Genuine
  split
  · exact absurd ‹_› h.1
  · exact absurd ‹_› h.2.1
  · exact absurd ‹_› h.2.2.1
  · exact absurd ‹_› h.2.2.2.1
  · exact absurd ‹_› h.2.2.2.2
  · trivial

section Strings

/-- A string that is closed behind a character was open in front of it. -/
theorem cons_eq_closed {c : Char} {e : StringEnd} {text rest : List Char}
    (h : e.cons c = .closed text rest) : ∃ text', e = .closed text' rest ∧ text = c :: text' := by
  cases e with
  | closed t r =>
      simp only [StringEnd.cons, StringEnd.closed.injEq] at h
      exact ⟨t, by rw [h.2], h.1.symm⟩
  | newline r => exact absurd h (by simp only [StringEnd.cons, reduceCtorEq, not_false_eq_true])
  | endOfInput => exact absurd h (by simp only [StringEnd.cons, reduceCtorEq, not_false_eq_true])
  | overrun => exact absurd h (by simp only [StringEnd.cons, reduceCtorEq, not_false_eq_true])

/-- A string that was read to its closing quote is read the same whatever follows. -/
theorem scanString_closed (cs : List Char) : ∀ {text rest : List Char},
    scanString cs = .closed text rest →
      ∃ inner, text = inner ++ ['"'] ∧
        ∀ more, scanString (inner ++ '"' :: more) = .closed (inner ++ ['"']) more := by
  fun_induction scanString cs with
  | case1 => intro text rest h; exact absurd h (by rintro ⟨⟩)
  | case2 rest' =>
      intro text rest h
      cases h
      exact ⟨[], rfl, fun more => rfl⟩
  | case3 => intro text rest h; exact absurd h (by rintro ⟨⟩)
  | case4 => intro text rest h; exact absurd h (by rintro ⟨⟩)
  | case5 c rest' ih =>
      -- A backslash and the character it hides go together.
      intro text rest h
      rcases cons_eq_closed h with ⟨text₁, h₁, rfl⟩
      rcases cons_eq_closed h₁ with ⟨text₂, h₂, rfl⟩
      rcases ih h₂ with ⟨inner, rfl, hinner⟩
      refine ⟨'\\' :: c :: inner, rfl, fun more => ?_⟩
      show scanString ('\\' :: c :: (inner ++ '"' :: more)) = _
      rw [scanString, hinner]
      rfl
  | case6 c rest' hquote hline hlast hescape ih =>
      intro text rest h
      rcases cons_eq_closed h with ⟨text₁, h₁, rfl⟩
      rcases ih h₁ with ⟨inner, rfl, hinner⟩
      have hbackslash : c ≠ '\\' := by
        intro hc
        cases rest' with
        | nil => exact hlast hc rfl
        | cons c' rest'' => exact hescape c' rest'' hc rfl
      refine ⟨c :: inner, rfl, fun more => ?_⟩
      show scanString (c :: (inner ++ '"' :: more)) = _
      rw [scanString, hinner]
      · rfl
      · exact hquote
      · exact hline
      · exact fun hc _ => hbackslash hc
      · exact fun _ _ hc _ => hbackslash hc

/-- A quoted text is read up to its closing quote, whatever follows. -/
theorem scanString_quoted {s : String} (h : IsQuoted s) (more : List Char) :
    scanString (s.toList ++ '"' :: more) = .closed (s.toList ++ ['"']) more := by
  rcases scanString_closed _ h with ⟨inner, hinner, hread⟩
  rw [List.append_cancel_right hinner]
  exact hread more

end Strings

section Runs

variable {p : Char → Bool} {cs rest : List Char}

/-- A run of characters ends where another one begins. -/
theorem takeWhile_run (hcs : ∀ x ∈ cs, p x = true)
    (hrest : ∀ c, rest.head? = some c → p c = false) :
    (cs ++ rest).takeWhile p = cs ∧ (cs ++ rest).dropWhile p = rest := by
  have hstop : rest.takeWhile p = [] ∧ rest.dropWhile p = rest := by
    cases rest with
    | nil => exact ⟨rfl, rfl⟩
    | cons c rest =>
        have hc := hrest c rfl
        simp only [List.takeWhile_cons, List.dropWhile_cons, hc, Bool.false_eq_true, if_false,
          and_self]
  rw [List.takeWhile_append_of_pos hcs, List.dropWhile_append_of_pos hcs, hstop.1, hstop.2,
    List.append_nil]
  exact ⟨rfl, rfl⟩

theorem run_alone (hcs : ∀ x ∈ cs, p x = true) : cs.takeWhile p = cs ∧ cs.dropWhile p = [] := by
  have h := takeWhile_run hcs fun c (hc : [].head? = some c) => absurd hc (by rintro ⟨⟩)
  rwa [List.append_nil] at h

theorem mem_takeWhile {c : Char} (h : c ∈ cs.takeWhile p) : p c = true :=
  List.all_eq_true.mp List.all_takeWhile c h

end Runs

section Words

theorem isIdentifierPart_of_start {c : Char} (h : isIdentifierStart c = true) :
    isIdentifierPart c = true := by
  rw [isIdentifierPart, h, Bool.true_or, Bool.true_or]

theorem isIdentifierPart_of_digit {c : Char} (h : c.isDigit = true) :
    isIdentifierPart c = true := by
  rw [isIdentifierPart, h, Bool.or_true, Bool.true_or]

/-- Hexadecimal digits can be in names. -/
theorem isIdentifierPart_of_hexDigit {c : Char} (h : isHexDigit c = true) :
    isIdentifierPart c = true := by
  unfold isIdentifierPart isIdentifierStart Char.isAlpha Char.isUpper Char.isLower
  simp only [isHexDigit, Bool.or_eq_true, Bool.and_eq_true, decide_eq_true_eq, beq_iff_eq] at h ⊢
  rcases h with (h | h) | h
  · exact Or.inl (Or.inr h)
  · refine Or.inl (Or.inl (Or.inl (Or.inl (Or.inr ⟨h.1, ?_⟩))))
    exact Nat.le_trans h.2 (by decide)
  · refine Or.inl (Or.inl (Or.inl (Or.inl (Or.inl ⟨h.1, ?_⟩))))
    exact Nat.le_trans h.2 (by decide)

/-- No digit begins a name. -/
theorem isIdentifierStart_of_digit {c : Char} (h : c.isDigit = true) :
    isIdentifierStart c = false := by
  rw [Bool.eq_false_iff]
  intro hstart
  unfold isIdentifierStart Char.isAlpha Char.isUpper Char.isLower at hstart
  simp only [Char.isDigit, Bool.or_eq_true, Bool.and_eq_true, decide_eq_true_eq, beq_iff_eq,
    ge_iff_le, UInt32.le_iff_toNat_le] at h hstart
  rcases hstart with ((hc | hc) | rfl) | rfl
  · exact absurd (Nat.le_trans hc.1 h.2) (by decide)
  · exact absurd (Nat.le_trans hc.1 h.2) (by decide)
  · exact absurd h (by decide)
  · exact absurd h (by decide)

/-- All characters of a word can be in names. -/
theorem IsWord.parts {s : String} (h : IsWord s) : ∀ x ∈ s.toList, isIdentifierPart x = true := by
  rcases h with ⟨c, rest, hs, hc, hrest⟩
  intro x hx
  rw [hs] at hx
  rcases List.mem_cons.mp hx with rfl | hx
  · exact isIdentifierPart_of_start hc
  · exact hrest x hx

/-- The longest word at the start of some characters is a word. -/
theorem isWord_takeWhile {c : Char} {cs : List Char} (hc : isIdentifierStart c = true) :
    IsWord (String.ofList ((c :: cs).takeWhile isIdentifierPart)) := by
  refine ⟨c, cs.takeWhile isIdentifierPart, ?_, hc, fun x hx => mem_takeWhile hx⟩
  rw [String.toList_ofList, List.takeWhile_cons, if_pos (isIdentifierPart_of_start hc)]

end Words

section Numbers

/-- Without the hexadecimal prefix a number is its run of digits. -/
theorem splitNumber_decimal {cs : List Char} (h : ∀ tail, cs ≠ '0' :: 'x' :: tail) :
    Lexer.splitNumber cs = (cs.takeWhile Char.isDigit, cs.dropWhile Char.isDigit) := by
  unfold Lexer.splitNumber
  split
  · exact absurd rfl (h _)
  · rfl

/-- Where nothing ends the run, all characters are of its kind. -/
theorem all_of_dropWhile_nil {p : Char → Bool} {cs : List Char} (h : cs.dropWhile p = []) :
    ∀ x ∈ cs, p x = true := by
  intro x hx
  rw [← List.takeWhile_append_dropWhile (p := p) (l := cs), h, List.append_nil] at hx
  exact mem_takeWhile hx

/-- A number in decimal is a run of digits, one in hexadecimal a run behind its prefix. -/
theorem splitNumber_number {s : String} (h : IsNumber s) {rest : List Char}
    (hrest : ∀ c, rest.head? = some c → isIdentifierPart c = false) :
    Lexer.splitNumber (s.toList ++ rest) = (s.toList, rest) := by
  rcases h with ⟨⟨c, more, hs, hc⟩, hall⟩
  by_cases hhex : ∃ tail, s.toList = '0' :: 'x' :: tail
  · rcases hhex with ⟨tail, htail⟩
    rw [htail] at hall ⊢
    have hdigits := all_of_dropWhile_nil (congrArg Prod.snd hall)
    have hrun := takeWhile_run hdigits fun c hc =>
      Bool.eq_false_iff.mpr fun hd => absurd (isIdentifierPart_of_hexDigit hd)
        (Bool.eq_false_iff.mp (hrest c hc))
    show ('0' :: 'x' :: (tail ++ rest).takeWhile isHexDigit, (tail ++ rest).dropWhile isHexDigit)
      = _
    rw [hrun.1, hrun.2]
  · rw [splitNumber_decimal fun tail htail => hhex ⟨tail, htail⟩] at hall
    have hdigits := all_of_dropWhile_nil (congrArg Prod.snd hall)
    have hrun := takeWhile_run hdigits fun c hc =>
      Bool.eq_false_iff.mpr fun hd => absurd (isIdentifierPart_of_digit hd)
        (Bool.eq_false_iff.mp (hrest c hc))
    rw [splitNumber_decimal, hrun.1, hrun.2]
    -- What follows can not turn a zero into a prefix.
    intro tail htail
    rw [hs] at htail hdigits
    cases more with
    | nil =>
        rw [List.cons_append, List.nil_append, List.cons.injEq] at htail
        have hx := hrest 'x' (by rw [htail.2]; rfl)
        exact absurd hx (by decide)
    | cons b more =>
        rw [List.cons_append, List.cons_append, List.cons.injEq, List.cons.injEq] at htail
        have hb := hdigits b (List.mem_cons_of_mem _ List.mem_cons_self)
        rw [htail.2.1] at hb
        exact absurd hb (by decide)

/-- What is split off as a number is a number by itself. -/
theorem isNumber_splitNumber {c : Char} {cs : List Char} (hc : c.isDigit = true) :
    IsNumber (String.ofList (Lexer.splitNumber (c :: cs)).1) := by
  by_cases hhex : ∃ tail, c :: cs = '0' :: 'x' :: tail
  · rcases hhex with ⟨tail, htail⟩
    rw [htail]
    refine ⟨⟨'0', _, String.toList_ofList, by decide⟩, ?_⟩
    rw [String.toList_ofList]
    show ('0' :: 'x' :: (tail.takeWhile isHexDigit).takeWhile isHexDigit,
      (tail.takeWhile isHexDigit).dropWhile isHexDigit) = _
    -- The run is taken twice here, the second time from the run alone.
    have hrun := run_alone (p := isHexDigit) fun x (hx : x ∈ tail.takeWhile isHexDigit) =>
      mem_takeWhile hx
    rw [hrun.1, hrun.2]
    rfl
  · rw [splitNumber_decimal fun tail htail => hhex ⟨tail, htail⟩]
    have hhead : (c :: cs).takeWhile Char.isDigit = c :: cs.takeWhile Char.isDigit := by
      rw [List.takeWhile_cons, if_pos hc]
    have hdigits : ∀ x ∈ (c :: cs).takeWhile Char.isDigit, x.isDigit = true :=
      fun x hx => mem_takeWhile hx
    refine ⟨⟨c, _, by rw [String.toList_ofList, hhead], hc⟩, ?_⟩
    rw [String.toList_ofList, splitNumber_decimal]
    · have hrun := run_alone hdigits
      rw [hrun.1, hrun.2]
    -- A digit is not the letter behind the prefix.
    · intro tail htail
      dsimp only at htail
      have hx := hdigits 'x' (by rw [htail]; exact List.mem_cons_of_mem _ List.mem_cons_self)
      exact absurd hx (by decide)

end Numbers

section Tokens

theorem keyword?_true {s : String} (h : keyword? s = some .trueWord) : s = "true" := by
  unfold keyword? at h
  split at h <;> first | rfl | exact absurd h (by rintro ⟨⟩)

theorem keyword?_false {s : String} (h : keyword? s = some .falseWord) : s = "false" := by
  unfold keyword? at h
  split at h <;> first | rfl | exact absurd h (by rintro ⟨⟩)

/-- Keywords are neither names nor numbers nor strings. -/
theorem keyword?_cases {s : String} {kind : TokenKind} (h : keyword? s = some kind) :
    kind ≠ .identifier ∧ kind ≠ .number ∧ kind ≠ .string := by
  unfold keyword? at h
  split at h <;> first | (cases h; decide) | exact absurd h (by rintro ⟨⟩)

/-- A string token has the text of a quoted string, or its kind carries none. -/
theorem Lexer.stringToken_genuine {kind : TokenKind} (hkind : kind = .string ∨ kind = .hexString)
    (rest : List Char) (line : Nat) (opening : List Char)
    (hopening : kind = .string → opening = ['"']) :
    (Lexer.stringToken kind opening rest line).1.Genuine := by
  unfold Lexer.stringToken
  split
  · rename_i text more hread
    -- Only of strings in quotes is the text looked at later.
    rcases hkind with rfl | rfl
    · rcases scanString_closed rest hread with ⟨inner, rfl, hinner⟩
      refine ⟨String.ofList inner, ?_, ?_⟩
      · rw [hopening rfl]
        apply String.toList_injective
        simp only [String.toList_ofList, String.toList_append]
        rfl
      · rw [IsQuoted, String.toList_ofList]
        exact hinner []
    · exact Token.genuine_of_other (by decide)
  · exact Token.genuine_of_other (by decide)
  · exact Token.genuine_of_other (by decide)
  · exact Token.genuine_of_other (by decide)

/-- A word is a keyword or a name, and in front of a quote it opens a hexadecimal string. -/
theorem Lexer.wordToken_genuine {c : Char} {cs : List Char} (hc : isIdentifierStart c = true)
    (line : Nat) : (Lexer.wordToken (c :: cs) line).1.Genuine := by
  unfold Lexer.wordToken
  dsimp only
  split
  · exact Lexer.stringToken_genuine (.inr rfl) _ _ _ fun h => absurd h (by decide)
  · have hword : IsWord (String.ofList ((c :: cs).takeWhile isIdentifierPart)) :=
      isWord_takeWhile hc
    rcases hk : keyword? (String.ofList ((c :: cs).takeWhile isIdentifierPart)) with _ | kind
    · exact ⟨hword, hk⟩
    · rcases keyword?_cases hk with ⟨h₁, h₂, h₃⟩
      by_cases htrue : kind = .trueWord
      · subst htrue
        exact keyword?_true hk
      · by_cases hfalse : kind = .falseWord
        · subst hfalse
          exact keyword?_false hk
        · exact Token.genuine_of_other ⟨h₁, h₂, h₃, htrue, hfalse⟩

/-- Marks carry no text of their own. -/
theorem Lexer.mark?_genuine {cs rest : List Char} {kind : TokenKind} {text : String} {line : Nat}
    (h : Lexer.mark? cs = some (kind, text, rest)) : (⟨kind, text, line⟩ : Token).Genuine := by
  unfold Lexer.mark? at h
  split at h <;>
    first
    | (cases h; done)
    | (cases h; exact Token.genuine_of_other (by decide))

/-- Whatever the lexer reads next is a genuine token. -/
theorem Lexer.tokenAt_genuine (lx : Lexer) : lx.tokenAt.1.Genuine := by
  unfold Lexer.tokenAt
  split
  · exact Token.genuine_of_other (by decide)
  · rename_i c rest _
    -- The order in which the lexer tries what may be there.
    split
    · exact Token.genuine_of_other (by decide)
    · split
      · exact Lexer.wordToken_genuine ‹_› _
      · split
        · rename_i hdigit
          unfold Lexer.numberToken
          dsimp only
          split
          · exact Token.genuine_of_other (by decide)
          · exact isNumber_splitNumber hdigit
        · split
          · exact Lexer.stringToken_genuine (.inl rfl) _ _ _ fun _ => rfl
          · split
            · exact Lexer.mark?_genuine ‹_›
            · exact Token.genuine_of_other (by decide)

/-- All tokens of a scan are genuine. -/
theorem Lexer.scanAll_genuine : ∀ (fuel : Nat) (lx : Lexer), ∀ t ∈ Lexer.scanAll fuel lx, t.Genuine
  | 0, _, t, ht => absurd ht (List.not_mem_nil)
  | fuel + 1, lx, t, ht => by
      -- Each scan gives the token where the lexer stands, behind gaps and faults.
      have hscan : ∀ t' next, lx.scan = some (t', next) → t'.Genuine := by
        intro t' next h
        unfold Lexer.scan at h
        split at h
        · exact absurd h (by rintro ⟨⟩)
        · split at h
          · rw [← (Prod.mk.inj (Option.some.inj h)).1]
            exact Lexer.tokenAt_genuine lx
          · dsimp only at h
            split at h
            · cases h
              exact Token.genuine_of_other (by decide)
            · rw [← (Prod.mk.inj (Option.some.inj h)).1]
              exact Lexer.tokenAt_genuine _
      rw [Lexer.scanAll] at ht
      split at ht
      · exact absurd ht (List.not_mem_nil)
      · rename_i t' next hnext
        split at ht
        · rw [List.mem_singleton.mp ht]
          exact hscan t' next hnext
        · rcases List.mem_cons.mp ht with rfl | ht
          · exact hscan t next hnext
          · exact Lexer.scanAll_genuine fuel next t ht

/-- The tokens of a source are genuine. -/
theorem tokens_genuine (source : String) : ∀ t ∈ tokens source, t.Genuine :=
  Lexer.scanAll_genuine _ _

end Tokens

end YulToolchain
