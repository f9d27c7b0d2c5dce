import YulToolchain.Proofs.Syntax.Lexeme
import YulToolchain.Proofs.Token.Gap

/-!
# One Call of the Lexer

Everything that a call of the lexer can do, said once.

A call first passes over a gap (`Lexer.Skips`) and then takes a token from what comes next
(`Lexer.Takes`). Both are relations with one constructor for each outcome, and each
constructor says what was read: the unread characters before the call are the gap, the
text of the token and the unread characters after it. `Lexer.scan_cases` puts the two
together, and nothing that is proved of calls later opens the lexer again.

Strings need the most care. What is read behind the opening quote is a body, in which a
backslash goes together with the character it hides, and the body is followed by one of
four ends. Body and end are determined by the characters (`IsStringBody.unique`), so a
string that is seen in the source is the string that is read.

Some states of the lexer are never met. `Lexer.Orderly` says which are: the character of
which some bytes were reported is there and has more bytes than that.

## Main definitions

* `IsStringBody`, `EndsString`: What stands between quotes, and what stops its reader.
* `IsOpening`: What opens a string.
* `Lexer.Skips`, `Lexer.Takes`: What the two halves of a call do.
* `Lexer.Orderly`: The states that are met.

## Theorems

* `scanString_read`: A string is read as a body with its end.
* `IsStringBody.unique`: Body and end are determined by the characters.
* `Lexer.tokenAt_takes`: What taking a token does.
* `Lexer.scan_cases`: What a call does.
* `Lexer.scan_orderly`: Calls lead from orderly states to orderly states.
-/

namespace YulToolchain

section Strings

/-- What can stand behind an opening quote, as far as it is read: a backslash goes together
    with the character that it hides. -/
inductive IsStringBody : List Char → Prop where
  | nil : IsStringBody []
  | plain {c : Char} {body : List Char} (hquote : c ≠ '"') (hbackslash : c ≠ '\\')
      (hline : c ≠ '\n') (hbody : IsStringBody body) : IsStringBody (c :: body)
  | hidden (c : Char) {body : List Char} (hbody : IsStringBody body) :
      IsStringBody ('\\' :: c :: body)

/-- What stops the reader of a string: a quote, a line end, the end of the source, or a
    backslash there. -/
inductive EndsString : List Char → Prop where
  | quote (rest : List Char) : EndsString ('"' :: rest)
  | newline (rest : List Char) : EndsString ('\n' :: rest)
  | endOfInput : EndsString []
  | backslash : EndsString ['\\']

/-- What the reader of a string did to the characters behind the opening quote. -/
inductive StringRead (cs : List Char) : StringEnd → Prop where
  | closed {body rest : List Char} (hcs : cs = body ++ '"' :: rest) (hbody : IsStringBody body) :
      StringRead cs (.closed (body ++ ['"']) rest)
  | newline {body rest : List Char} (hcs : cs = body ++ '\n' :: rest)
      (hbody : IsStringBody body) : StringRead cs (.newline ('\n' :: rest))
  | endOfInput (hbody : IsStringBody cs) : StringRead cs .endOfInput
  | overrun {body : List Char} (hcs : cs = body ++ ['\\']) (hbody : IsStringBody body) :
      StringRead cs .overrun

/-- A character that means nothing special in a string is part of it. -/
theorem StringRead.plain {c : Char} {cs : List Char} {e : StringEnd} (hquote : c ≠ '"')
    (hbackslash : c ≠ '\\') (hline : c ≠ '\n') (h : StringRead cs e) :
    StringRead (c :: cs) (e.cons c) := by
  cases h with
  | closed hcs hbody =>
      exact .closed (congrArg (c :: ·) hcs) (.plain hquote hbackslash hline hbody)
  | newline hcs hbody =>
      exact .newline (congrArg (c :: ·) hcs) (.plain hquote hbackslash hline hbody)
  | endOfInput hbody => exact .endOfInput (.plain hquote hbackslash hline hbody)
  | overrun hcs hbody =>
      exact .overrun (congrArg (c :: ·) hcs) (.plain hquote hbackslash hline hbody)

/-- What is behind a backslash is part of the string, whatever it is. -/
theorem StringRead.hidden {c : Char} {cs : List Char} {e : StringEnd} (h : StringRead cs e) :
    StringRead ('\\' :: c :: cs) ((e.cons c).cons '\\') := by
  cases h with
  | closed hcs hbody => exact .closed (congrArg ('\\' :: c :: ·) hcs) (.hidden c hbody)
  | newline hcs hbody => exact .newline (congrArg ('\\' :: c :: ·) hcs) (.hidden c hbody)
  | endOfInput hbody => exact .endOfInput (.hidden c hbody)
  | overrun hcs hbody => exact .overrun (congrArg ('\\' :: c :: ·) hcs) (.hidden c hbody)

/-- A string is read as a body with its end. -/
theorem scanString_read (cs : List Char) : StringRead cs (scanString cs) := by
  fun_induction scanString cs with
  | case1 => exact .endOfInput .nil
  | case2 rest => exact @StringRead.closed _ [] rest rfl .nil
  | case3 rest => exact @StringRead.newline _ [] rest rfl .nil
  | case4 => exact @StringRead.overrun _ [] rfl .nil
  | case5 c rest ih => exact ih.hidden
  | case6 c rest hquote hline hlast hhidden ih =>
      refine ih.plain hquote ?_ hline
      intro hc
      rcases rest with _ | ⟨d, rest⟩
      · exact hlast hc rfl
      · exact hhidden d rest hc rfl

/-- What is read of a string begins with every body that stands there. -/
theorem IsStringBody.exists_append {body rest body' rest' : List Char} (hbody : IsStringBody body)
    (hbody' : IsStringBody body') (hrest' : EndsString rest')
    (h : body ++ rest = body' ++ rest') : ∃ more, body' = body ++ more := by
  induction hbody generalizing body' with
  | nil => exact ⟨body', rfl⟩
  | @plain c body hquote hbackslash hline hbody ih =>
      cases hbody' with
      -- The other one would end where this one goes on, and no end begins like this.
      | nil => cases hrest' with
        | quote => exact absurd (List.cons.inj h).1 hquote
        | newline => exact absurd (List.cons.inj h).1 hline
        | endOfInput => exact absurd h (by rintro ⟨⟩)
        | backslash => exact absurd (List.cons.inj h).1 hbackslash
      | plain _ _ _ hbody' =>
          obtain ⟨rfl, htail⟩ := List.cons.inj h
          rcases ih hbody' htail with ⟨more, rfl⟩
          exact ⟨more, rfl⟩
      | hidden => exact absurd (List.cons.inj h).1 hbackslash
  | @hidden c body hbody ih =>
      cases hbody' with
      | nil => cases hrest' with
        | quote => exact absurd (List.cons.inj h).1 (by decide)
        | newline => exact absurd (List.cons.inj h).1 (by decide)
        | endOfInput => exact absurd h (by rintro ⟨⟩)
        | backslash => exact absurd (List.cons.inj h).2 (by rintro ⟨⟩)
      | plain _ hbackslash => exact absurd (List.cons.inj h).1.symm hbackslash
      | hidden _ hbody' =>
          obtain ⟨rfl, htail⟩ := List.cons.inj (List.cons.inj h).2
          rcases ih hbody' htail with ⟨more, rfl⟩
          exact ⟨more, rfl⟩

/-- Body and end of a string are determined by the characters. -/
theorem IsStringBody.unique {body rest body' rest' : List Char} (hbody : IsStringBody body)
    (hrest : EndsString rest) (hbody' : IsStringBody body') (hrest' : EndsString rest')
    (h : body ++ rest = body' ++ rest') : body = body' ∧ rest = rest' := by
  rcases hbody.exists_append hbody' hrest' h with ⟨more, hmore⟩
  rcases hbody'.exists_append hbody hrest h.symm with ⟨more', hmore'⟩
  -- Each is the other with something behind it, so there is nothing behind it.
  have hlength := congrArg List.length hmore
  have hlength' := congrArg List.length hmore'
  rw [List.length_append] at hlength hlength'
  obtain rfl : more = [] := List.eq_nil_of_length_eq_zero (by omega)
  rw [List.append_nil] at hmore
  exact ⟨hmore.symm, List.append_cancel_left (hmore ▸ h)⟩

end Strings

section Openings

/-- What opens a string or a hex string. -/
def IsOpening (cs : List Char) : Prop := cs = ['"'] ∨ cs = ['h', 'e', 'x', '"']

/-- The opening of a string stands at the front of some characters. -/
def Opens (cs : List Char) : Prop := ∃ opening rest, IsOpening opening ∧ cs = opening ++ rest

/-- A text opens a string in one way at most. -/
theorem IsOpening.unique {opening rest opening' rest' : List Char} (h : IsOpening opening)
    (h' : IsOpening opening') (heq : opening ++ rest = opening' ++ rest') :
    opening = opening' ∧ rest = rest' := by
  rcases h with rfl | rfl <;> rcases h' with rfl | rfl
  · exact ⟨rfl, (List.cons.inj heq).2⟩
  · exact absurd (List.cons.inj heq).1 (by decide)
  · exact absurd (List.cons.inj heq).1 (by decide)
  · exact ⟨rfl, List.append_cancel_left heq⟩

theorem IsOpening.ne_nil {opening : List Char} (h : IsOpening opening) : opening ≠ [] := by
  rcases h with rfl | rfl <;> exact List.cons_ne_nil _ _

theorem IsOpening.no_newline {opening : List Char} (h : IsOpening opening) : '\n' ∉ opening := by
  rcases h with rfl | rfl <;> decide

theorem not_opens_nil : ¬ Opens [] := by
  rintro ⟨opening, rest, hopening, h⟩
  exact hopening.ne_nil (List.append_eq_nil_iff.mp h.symm).1

/-- An opening starts with a character of one byte. -/
theorem Opens.utf8Size {cs : List Char} (h : Opens cs) :
    ∃ c, cs.head? = some c ∧ c.utf8Size = 1 := by
  rcases h with ⟨opening, rest, rfl | rfl, rfl⟩
  · exact ⟨'"', rfl, rfl⟩
  · exact ⟨'h', rfl, rfl⟩

/-- A string with this body and this end stands at the front of some characters. -/
def StringAt (cs body stop : List Char) : Prop :=
  IsStringBody body ∧ EndsString stop ∧
    ∃ opening, IsOpening opening ∧ cs = opening ++ (body ++ stop)

theorem StringAt.opens {cs body stop : List Char} (h : StringAt cs body stop) : Opens cs := by
  rcases h with ⟨-, -, opening, hopening, hcs⟩
  exact ⟨opening, body ++ stop, hopening, hcs⟩

/-- There is one string at most at a place. -/
theorem StringAt.unique {cs body stop body' stop' : List Char} (h : StringAt cs body stop)
    (h' : StringAt cs body' stop') : body = body' ∧ stop = stop' := by
  rcases h with ⟨hbody, hstop, opening, hopening, hcs⟩
  rcases h' with ⟨hbody', hstop', opening', hopening', hcs'⟩
  have hrest := (hopening.unique hopening' (hcs.symm.trans hcs')).2
  exact hbody.unique hstop hbody' hstop' hrest

end Openings

section Kinds

/-- The kinds of tokens that are a run of letters and digits. -/
def TokenKind.isWord : TokenKind → Bool
  | .identifier | .number | .letWord | .functionWord | .ifWord | .switchWord | .caseWord => true
  | .defaultWord | .forWord | .breakWord | .continueWord | .trueWord | .falseWord => true
  | .objectWord | .codeWord | .dataWord => true
  | _ => false

/-- A kind of token with a text. -/
def TokenKind.HasText (kind : TokenKind) : Prop :=
  kind ≠ .endOfInput ∧ ∀ why, kind ≠ .fault why

/-- Words are tokens with a text. -/
theorem TokenKind.hasText_of_isWord {kind : TokenKind} (h : kind.isWord = true) :
    kind.HasText := by
  constructor
  · rintro rfl
    exact absurd h (by decide)
  · rintro why rfl
    exact absurd h (by simp only [TokenKind.isWord, Bool.false_eq_true, not_false_eq_true])

theorem keyword?_isWord {s : String} {kind : TokenKind} (h : keyword? s = some kind) :
    kind.isWord = true := by
  unfold keyword? at h
  split at h <;> first | (cases h; rfl) | exact absurd h (by rintro ⟨⟩)

end Kinds

namespace Lexer

variable {lx next : Lexer} {t : Token}

/-- What the first half of a call does. A character outside ASCII of which some bytes were
    reported is no gap. -/
inductive Skips (lx : Lexer) : Lexer → Prop where
  | inside (hreported : 0 < lx.reported) : Skips lx lx
  | gap {gap rest : List Char} (hreported : lx.reported = 0) (hrest : lx.rest = gap ++ rest)
      (hgap : IsGap gap) (hstop : ∀ c, rest.head? = some c → ¬ IsSpace c) :
      Skips lx (.reading rest (lx.line + gap.count '\n'))
  | lineComment {gap text : List Char} (hreported : lx.reported = 0)
      (hrest : lx.rest = gap ++ '/' :: '/' :: text) (hgap : IsGap gap) (htext : '\n' ∉ text) :
      Skips lx (.reading [] (lx.line + gap.count '\n'))

/-- What the second half of a call does, from the first character that belongs to no gap. -/
inductive Takes (lx : Lexer) : Token → Lexer → Prop where
  | finish (hrest : lx.rest = []) : Takes lx ⟨.endOfInput, "", lx.line⟩ lx
  | lexeme {kind : TokenKind} {text : String} {after : List Char} (hreported : lx.reported = 0)
      (hrest : lx.rest = text.toList ++ after) (hopens : ¬ Opens lx.rest)
      (hkind : kind.HasText) (hne : text.toList ≠ []) (hline : '\n' ∉ text.toList)
      (hafter : kind.isWord = true → ∀ c, after.head? = some c → isIdentifierPart c = false) :
      Takes lx ⟨kind, text, lx.line⟩ (.reading after lx.line)
  | string {kind : TokenKind} {opening body after : List Char} (hreported : lx.reported = 0)
      (hrest : lx.rest = opening ++ (body ++ '"' :: after)) (hopening : IsOpening opening)
      (hbody : IsStringBody body) (hkind : kind = .string ∨ kind = .hexString) :
      Takes lx ⟨kind, String.ofList (opening ++ (body ++ ['"'])), lx.line⟩
        (.reading after lx.line)
  | openString {opening body stop : List Char} (hreported : lx.reported = 0)
      (hrest : lx.rest = opening ++ (body ++ stop)) (hopening : IsOpening opening)
      (hbody : IsStringBody body) (hstop : stop = [] ∨ ∃ rest, stop = '\n' :: rest) :
      Takes lx ⟨.fault .unterminatedString, "", lx.line⟩ (.reading stop lx.line)
  | overrun {opening body : List Char} (hreported : lx.reported = 0)
      (hrest : lx.rest = opening ++ (body ++ ['\\'])) (hopening : IsOpening opening)
      (hbody : IsStringBody body) :
      Takes lx ⟨.fault .unterminatedString, "", lx.line⟩ ⟨[], 0, true, lx.line⟩
  | badNumber {digits after : List Char} (hreported : lx.reported = 0)
      (hrest : lx.rest = digits ++ after) (hopens : ¬ Opens lx.rest) (hne : digits ≠ [])
      (hline : '\n' ∉ digits) :
      Takes lx ⟨.fault .badNumber, "", lx.line⟩ (.reading after lx.line)
  | byte {c : Char} {after : List Char} (hrest : lx.rest = c :: after)
      (hopens : ¬ Opens lx.rest) :
      Takes lx ⟨.fault .unexpectedCharacter, "", lx.line⟩ lx.reportByte

section Tokens

/-- What opens a string is read as a string. -/
theorem tokenAt_opening {opening rest : List Char} (hreported : lx.reported = 0)
    (hopening : IsOpening opening) (hrest : lx.rest = opening ++ rest) :
    ∃ kind, (kind = .string ∨ kind = .hexString) ∧
      lx.tokenAt = stringToken kind opening rest lx.line := by
  rcases lx with ⟨cs, reported, overrun, line⟩
  obtain rfl : reported = 0 := hreported
  obtain rfl : cs = opening ++ rest := hrest
  rcases hopening with rfl | rfl
  · exact ⟨.string, .inl rfl, rfl⟩
  · exact ⟨.hexString, .inr rfl, rfl⟩

/-- A call behind the opening of a string reads the string, up to whatever ends it. -/
theorem stringToken_takes {kind : TokenKind} {opening rest : List Char}
    (hreported : lx.reported = 0) (hopening : IsOpening opening)
    (hrest : lx.rest = opening ++ rest) (hkind : kind = .string ∨ kind = .hexString) :
    lx.Takes (stringToken kind opening rest lx.line).1
      (stringToken kind opening rest lx.line).2 := by
  have hread := scanString_read rest
  unfold stringToken
  -- One case for each of the four ways in which a string can end.
  cases hend : scanString rest with
  | closed text after =>
      rw [hend] at hread
      cases hread with
      | closed hcs hbody => exact .string hreported (hcs ▸ hrest) hopening hbody hkind
  | newline after =>
      rw [hend] at hread
      cases hread with
      | newline hcs hbody =>
          exact .openString hreported (hcs ▸ hrest) hopening hbody (.inr ⟨_, rfl⟩)
  | endOfInput =>
      rw [hend] at hread
      cases hread with
      | endOfInput hbody =>
          refine .openString hreported ?_ hopening hbody (.inl rfl)
          rw [hrest, List.append_nil]
  | overrun =>
      rw [hend] at hread
      cases hread with
      | overrun hcs hbody => exact .overrun hreported (hcs ▸ hrest) hopening hbody

theorem not_newline_of_identifierPart {cs : List Char}
    (h : ∀ c ∈ cs, isIdentifierPart c = true) : '\n' ∉ cs :=
  fun hmem => absurd (h _ hmem) (by decide)

/-- The first character that is not taken along does not fit. -/
theorem head_dropWhile {p : Char → Bool} {cs : List Char} {c : Char}
    (h : (cs.dropWhile p).head? = some c) : p c = false := by
  have hstop := List.head?_dropWhile_not p cs
  rwa [h] at hstop

-- The word `hex` with a quote behind it opens a string, so it does not come up here.
/-- A call at the beginning of a word reads the word. -/
theorem wordToken_takes {c : Char} {cs : List Char} (hreported : lx.reported = 0)
    (hrest : lx.rest = c :: cs) (hopens : ¬ Opens lx.rest) (hc : isIdentifierStart c = true) :
    lx.Takes (wordToken (c :: cs) lx.line).1 (wordToken (c :: cs) lx.line).2 := by
  have hsplit := List.takeWhile_append_dropWhile (p := isIdentifierPart) (l := c :: cs)
  unfold wordToken
  dsimp only
  split
  -- A word that would open a string was tried before.
  · rename_i rest hword hquote
    rw [eq_of_beq hword, hquote] at hsplit
    refine absurd ⟨['h', 'e', 'x', '"'], rest, .inr rfl, ?_⟩ hopens
    rw [hrest, ← hsplit]
    rfl
  · have hkind : ((keyword? (String.ofList ((c :: cs).takeWhile isIdentifierPart))).getD
        .identifier).isWord = true := by
      rcases hkeyword : keyword? (String.ofList ((c :: cs).takeWhile isIdentifierPart)) with _ | k
      · rfl
      · exact keyword?_isWord hkeyword
    refine .lexeme hreported ?_ hopens (TokenKind.hasText_of_isWord hkind) ?_ ?_
      fun _ d hd => head_dropWhile hd
    · rw [String.toList_ofList, hsplit, hrest]
    · rw [String.toList_ofList, List.takeWhile_cons, if_pos (isIdentifierPart_of_start hc)]
      exact List.cons_ne_nil _ _
    · rw [String.toList_ofList]
      exact not_newline_of_identifierPart fun d hd => mem_takeWhile hd

/-- A number and what is behind it are the whole text. -/
theorem splitNumber_append (cs : List Char) :
    (splitNumber cs).1 ++ (splitNumber cs).2 = cs := by
  unfold splitNumber
  split
  · exact congrArg ('0' :: 'x' :: ·) List.takeWhile_append_dropWhile
  · exact List.takeWhile_append_dropWhile

/-- Numbers are made of characters that words can have too. -/
theorem identifierPart_of_mem_splitNumber {cs : List Char} :
    ∀ c ∈ (splitNumber cs).1, isIdentifierPart c = true := by
  unfold splitNumber
  split
  · intro c hc
    rcases List.mem_cons.mp hc with rfl | hc
    · decide
    · rcases List.mem_cons.mp hc with rfl | hc
      · decide
      · exact isIdentifierPart_of_hexDigit (mem_takeWhile hc)
  · exact fun c hc => isIdentifierPart_of_digit (mem_takeWhile hc)

/-- A call at a digit reads a number, or finds that it goes on like a word. -/
theorem numberToken_takes {c : Char} {cs : List Char} (hreported : lx.reported = 0)
    (hrest : lx.rest = c :: cs) (hopens : ¬ Opens lx.rest) (hc : c.isDigit = true) :
    lx.Takes (numberToken (c :: cs) lx.line).1 (numberToken (c :: cs) lx.line).2 := by
  have hsplit := splitNumber_append (c :: cs)
  have hnumber : IsNumber (String.ofList (splitNumber (c :: cs)).1) := isNumber_splitNumber hc
  have hne : (splitNumber (c :: cs)).1 ≠ [] := by
    rcases hnumber.1 with ⟨d, more, hd, _⟩
    rw [String.toList_ofList] at hd
    rw [hd]
    exact List.cons_ne_nil _ _
  have hline : '\n' ∉ (splitNumber (c :: cs)).1 :=
    not_newline_of_identifierPart identifierPart_of_mem_splitNumber
  unfold numberToken
  dsimp only
  -- Behind a number there may be no character that words can have.
  split
  · exact .badNumber hreported (by rw [hsplit, hrest]) hopens hne hline
  · rename_i hafter
    refine .lexeme hreported ?_ hopens (TokenKind.hasText_of_isWord rfl) ?_ ?_ fun _ d hd => ?_
    · rw [String.toList_ofList, hsplit, hrest]
    · rwa [String.toList_ofList]
    · rwa [String.toList_ofList]
    · rw [hd, Option.any_some] at hafter
      exact Bool.eq_false_iff.mpr hafter

/-- A call at a mark reads the mark. -/
theorem mark?_takes {cs after : List Char} {kind : TokenKind} {text : String}
    (hreported : lx.reported = 0) (hrest : lx.rest = cs) (hopens : ¬ Opens lx.rest)
    (h : mark? cs = some (kind, text, after)) :
    lx.Takes ⟨kind, text, lx.line⟩ (.reading after lx.line) := by
  have hmark : cs = text.toList ++ after ∧ kind.HasText ∧ text.toList ≠ [] ∧
      '\n' ∉ text.toList ∧ kind.isWord = false := by
    unfold mark? at h
    split at h <;>
      first
      | (cases h; done)
      | (cases h; exact ⟨rfl, ⟨by decide, fun why => by rintro ⟨⟩⟩, by decide, by decide, rfl⟩)
  rcases hmark with ⟨hcs, hkind, hne, hline, hword⟩
  exact .lexeme hreported (hrest.trans hcs) hopens hkind hne hline
    fun h => absurd h (by rw [hword]; decide)

/-- What taking a token does. -/
theorem tokenAt_takes (h : 0 < lx.reported → ¬ Opens lx.rest) :
    lx.Takes lx.tokenAt.1 lx.tokenAt.2 := by
  -- The word `hex` is a word of its own unless a quote follows, so openings come first.
  by_cases hopens : Opens lx.rest
  · have hreported : lx.reported = 0 := Nat.eq_zero_of_not_pos fun hpos => h hpos hopens
    rcases hopens with ⟨opening, rest, hopening, hrest⟩
    rcases tokenAt_opening hreported hopening hrest with ⟨kind, hkind, htoken⟩
    rw [htoken]
    exact stringToken_takes hreported hopening hrest hkind
  · unfold tokenAt
    split
    · exact .finish ‹_›
    · rename_i c rest hrest
      split
      · exact .byte hrest hopens
      · have hreported : lx.reported = 0 := Nat.eq_zero_of_not_pos ‹_›
        split
        · exact wordToken_takes hreported hrest hopens ‹_›
        · split
          · exact numberToken_takes hreported hrest hopens ‹_›
          · split
            · rename_i hquote
              exact absurd ⟨['"'], rest, .inl rfl, by rw [hrest, hquote]; rfl⟩ hopens
            · split
              · exact mark?_takes hreported hrest hopens ‹_›
              · exact .byte hrest hopens

end Tokens

section Calls

/-- The states of the lexer that are met. Bytes were reported only of a character that has
    more of them, and nothing is left to read behind the end of the source. -/
structure Orderly (lx : Lexer) : Prop where
  reported_lt : ∀ c, lx.rest.head? = some c → lx.reported < c.utf8Size
  reported_nil : lx.rest = [] → lx.reported = 0
  rest_nil : lx.overrun = true → lx.rest = []

/-- A lexer in front of a text has read nothing of its first character. -/
theorem orderly_reading (rest : List Char) (line : Nat) : (reading rest line).Orderly where
  reported_lt := fun c _ => c.utf8Size_pos
  reported_nil := fun _ => rfl
  rest_nil := fun h => absurd h Bool.false_ne_true

/-- Inside a character no string is opened. -/
theorem Orderly.not_opens (h : lx.Orderly) (hreported : 0 < lx.reported) : ¬ Opens lx.rest := by
  intro hopens
  rcases hopens.utf8Size with ⟨c, hc, hsize⟩
  have hlt := h.reported_lt c hc
  omega

/-- Reporting a byte reads at most one character and nothing else. -/
theorem reportByte_frame (lx : Lexer) : lx.reportByte.line = lx.line ∧
    lx.reportByte.overrun = lx.overrun ∧ lx.reportByte.rest <:+ lx.rest := by
  unfold Lexer.reportByte
  split
  · exact ⟨rfl, rfl, List.suffix_refl _⟩
  · rename_i c rest hrest
    split
    · exact ⟨rfl, rfl, List.suffix_refl _⟩
    · exact ⟨rfl, rfl, hrest ▸ List.suffix_cons c rest⟩

/-- A byte that is reported leaves the lexer in order. -/
theorem Orderly.reportByte (h : lx.Orderly) : lx.reportByte.Orderly := by
  unfold Lexer.reportByte
  split
  · exact h
  · rename_i c rest hrest
    have hrunning : lx.overrun ≠ true := fun hover => by
      rw [h.rest_nil hover] at hrest
      exact absurd hrest (by rintro ⟨⟩)
    split
    · rename_i hlt
      refine ⟨fun d hd => ?_, fun hnil => ?_, fun hover => absurd hover hrunning⟩
      · rw [hrest] at hd
        exact Option.some.inj hd ▸ hlt
      · exact absurd (hrest.symm.trans hnil) (List.cons_ne_nil _ _)
    · exact ⟨fun d _ => d.utf8Size_pos, fun _ => rfl, fun hover => absurd hover hrunning⟩

/-- A token leaves the lexer in order. -/
theorem Takes.orderly (h : lx.Orderly) (htakes : lx.Takes t next) : next.Orderly := by
  cases htakes with
  | finish => exact h
  | byte => exact h.reportByte
  | overrun =>
      exact ⟨fun c hc => absurd hc (by rintro ⟨⟩), fun _ => rfl, fun _ => rfl⟩
  | _ => exact orderly_reading _ _

/-- The lexer behind the gap at its cursor, where the next token starts. -/
def behindGap (lx : Lexer) : Lexer :=
  if 0 < lx.reported then lx
  else .reading (skipGap .between lx.line lx.rest).rest (skipGap .between lx.line lx.rest).line

/-- A gap leaves the lexer in order. -/
theorem behindGap_orderly (h : lx.Orderly) : lx.behindGap.Orderly := by
  unfold behindGap
  split
  · exact h
  · exact orderly_reading _ _

/-- The call comes to the end of the source inside a block comment. -/
def LeavesComment (lx : Lexer) : Prop :=
  lx.reported = 0 ∧ ∃ gap text, IsGap gap ∧ ¬ ['*', '/'] <:+: text ∧
    lx.rest = gap ++ '/' :: '*' :: text

/-- There is no next token only behind the end of the source. -/
theorem exists_scan (h : lx.overrun = false) : ∃ t next, lx.scan = some (t, next) := by
  unfold scan
  rw [if_neg (by rw [h]; exact Bool.false_ne_true)]
  split
  · exact ⟨_, _, rfl⟩
  · dsimp only
    split <;> exact ⟨_, _, rfl⟩

/-- What a call does. -/
theorem scan_cases (horderly : lx.Orderly) (h : lx.scan = some (t, next)) :
    lx.overrun = false ∧
      ((lx.LeavesComment ∧ lx.behindGap.rest = [] ∧
          t = ⟨.fault .unterminatedComment, "", next.line⟩ ∧
          next = .reading [] (lx.line + lx.rest.count '\n')) ∨
        (lx.Skips lx.behindGap ∧ lx.behindGap.Takes t next)) := by
  have htakes : ∀ mid : Lexer, mid.Orderly → mid.tokenAt = (t, next) → mid.Takes t next := by
    intro mid hmid htoken
    have := tokenAt_takes hmid.not_opens
    rwa [htoken] at this
  unfold scan at h
  split at h
  · exact absurd h (by rintro ⟨⟩)
  · rename_i hrunning
    refine ⟨Bool.eq_false_iff.mpr hrunning, ?_⟩
    split at h
    · -- Within a character there is no gap to pass over.
      rename_i hreported
      have hbehind : lx.behindGap = lx := if_pos hreported
      rw [hbehind]
      exact .inr ⟨.inside hreported, htakes lx horderly (Option.some.inj h)⟩
    · rename_i hreported
      have hzero : lx.reported = 0 := Nat.eq_zero_of_not_pos hreported
      have hbehind : lx.behindGap = .reading (skipGap .between lx.line lx.rest).rest
          (skipGap .between lx.line lx.rest).line := if_neg hreported
      have hread := skipGap_read lx.line lx.rest
      dsimp only at h
      rw [hbehind]
      -- From here on only what the reader of gaps did is known of it.
      generalize skipGap .between lx.line lx.rest = g at h hread ⊢
      cases hread with
      | @stopped gap rest hcs hgap hstop =>
          exact .inr ⟨.gap hzero hcs hgap hstop, htakes _ (orderly_reading _ _) (Option.some.inj h)⟩
      | lineComment hcs hgap htext =>
          exact .inr ⟨.lineComment hzero hcs hgap htext,
            htakes _ (orderly_reading _ _) (Option.some.inj h)⟩
      | blockComment hcs hgap htext =>
          cases h
          exact .inl ⟨⟨hzero, _, _, hgap, htext, hcs⟩, rfl, rfl, rfl⟩

/-- Calls lead from orderly states to orderly states. -/
theorem scan_orderly (horderly : lx.Orderly) (h : lx.scan = some (t, next)) : next.Orderly := by
  rcases scan_cases horderly h with ⟨-, ⟨-, -, -, rfl⟩ | ⟨-, htakes⟩⟩
  · exact orderly_reading _ _
  · exact htakes.orderly (behindGap_orderly horderly)

end Calls

end Lexer

end YulToolchain
