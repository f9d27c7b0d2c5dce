import YulToolchain.Proofs.Token.Position

/-!
# How Tokens Lie in a Source

A source without faults is its tokens and the gaps around them, and nothing else.

Each call takes a gap and a token from the front of what is left, and the next call goes on
right behind that token. So the source is a gap, the text of a token, a gap, and so on up
to the last gap, whatever comment marks, quotes and other marks stand inside comments and
strings. A word or a number is as long as it can be: what follows it would not belong to
it. For a number this is where most faults come from, as a letter behind its digits is
not left to the next token.

## Main definitions

* `LaidOut`: Some characters are gaps and the texts of tokens.

## Theorems

* `Lexer.scan_layout`: What a call takes from the front.
* `source_is_laid_out`: A source without faults is laid out by its tokens.
-/

namespace YulToolchain

/-- Some characters are a gap, the text of a token, and so on up to the last gap, with the
    token for the end of the input behind it. Behind a word or a number stands nothing that
    could belong to it. -/
inductive LaidOut : List Char → List Token → Prop where
  | last {gap : List Char} {line : Nat} (hgap : IsLastGap gap) :
      LaidOut gap [⟨.endOfInput, "", line⟩]
  | cons {gap after : List Char} {t : Token} {ts : List Token} (hgap : IsGap gap)
      (hkind : t.kind.HasText) (hne : t.lexeme ≠ "")
      (hafter : t.kind.isWord = true → ∀ c, after.head? = some c → isIdentifierPart c = false)
      (hrest : LaidOut after ts) : LaidOut (gap ++ (t.lexeme.toList ++ after)) (t :: ts)

/-- The lexeme of a token that is no fault is its text. -/
theorem Token.lexeme_eq {t : Token} (h : ∀ why, t.kind ≠ .fault why) : t.lexeme = t.text := by
  unfold Token.lexeme
  split
  · exact absurd ‹_› (h _)
  · rfl

namespace Lexer

variable {lx mid next : Lexer} {t : Token}

/-- What is in front of the cursor when a token is taken: nothing, or the text of the token
    with something that it does not extend to. -/
theorem Takes.layout (h : mid.Takes t next) (hfault : ∀ why, t.kind ≠ .fault why) :
    t = ⟨.endOfInput, "", mid.line⟩ ∧ mid.rest = [] ∨
      t.kind.HasText ∧ t.text.toList ≠ [] ∧ next = .reading next.rest next.line ∧
        (t.kind.isWord = true → ∀ c, next.rest.head? = some c → isIdentifierPart c = false) ∧
        mid.rest = t.text.toList ++ next.rest := by
  -- Faults apart, there are the end, lexemes and closed strings.
  cases h with
  | finish hrest => exact .inl ⟨rfl, hrest⟩
  | lexeme hreported hrest hopens hkind hne hline hafter =>
      exact .inr ⟨hkind, hne, rfl, hafter, hrest⟩
  | @string kind opening body after hreported hrest hopening hbody hkind =>
      have htext : TokenKind.HasText kind ∧ kind.isWord = false := by
        rcases hkind with rfl | rfl <;> exact ⟨⟨by rintro ⟨⟩, fun why => by rintro ⟨⟩⟩, rfl⟩
      refine .inr ⟨htext.1, ?_, rfl, fun h => absurd h (by rw [htext.2]; decide), ?_⟩
      · rw [String.toList_ofList]
        exact List.append_ne_nil_of_left_ne_nil hopening.ne_nil _
      · rw [hrest, String.toList_ofList, List.append_assoc, List.append_assoc]
        rfl
  | _ => exact absurd rfl (hfault _)

/-- What a call takes from the front, if it reports no fault: the last gap, or a gap and the
    text of a token. -/
theorem scan_layout {cs : List Char} {line : Nat}
    (h : (reading cs line).scan = some (t, next)) (hfault : ∀ why, t.kind ≠ .fault why) :
    (∃ line', t = ⟨.endOfInput, "", line'⟩ ∧ IsLastGap cs) ∨
      t.kind.HasText ∧ t.text.toList ≠ [] ∧ next = .reading next.rest next.line ∧
        (t.kind.isWord = true → ∀ c, next.rest.head? = some c → isIdentifierPart c = false) ∧
        ∃ gap, IsGap gap ∧ cs = gap ++ (t.text.toList ++ next.rest) := by
  rcases scan_cases (orderly_reading cs line) h with ⟨-, ⟨-, -, rfl, -⟩ | ⟨hskips, htakes⟩⟩
  · exact absurd rfl (hfault _)
  · have htoken := htakes.layout hfault
    generalize (reading cs line).behindGap = mid at hskips htoken
    cases hskips with
    | inside hinside => exact absurd hinside (Nat.lt_irrefl 0)
    | @gap gap rest _ hrest hgap =>
        rcases htoken with ⟨ht, hnil⟩ | ⟨hkind, hne, hnext, hafter, htext⟩
        · obtain rfl : rest = [] := hnil
          have hcs : cs = gap := hrest.trans (List.append_nil gap)
          exact .inl ⟨_, ht, .inl (hcs ▸ hgap)⟩
        · exact .inr ⟨hkind, hne, hnext, hafter, gap, hgap, hrest.trans (congrArg _ htext)⟩
    | @lineComment gap text _ hrest hgap hcomment =>
        -- Such a comment goes on to the end of the source, so no text follows.
        rcases htoken with ⟨ht, -⟩ | ⟨-, hne, -, -, htext⟩
        · exact .inl ⟨_, ht, .inr ⟨gap, text, hgap, hcomment, hrest⟩⟩
        · exact absurd (List.append_eq_nil_iff.mp htext.symm).1 hne

-- By induction on the number of calls that may be made, which is more than there are unread
-- bytes; so the calls end with the source and not before.
/-- Without faults, what is left to read is laid out by the tokens to come. -/
theorem scanAll_laidOut (fuel : Nat) : ∀ (cs : List Char) (line : Nat),
    (Text.bytes cs).length < fuel →
    (∀ t ∈ scanAll fuel (reading cs line), ∀ why, t.kind ≠ .fault why) →
    LaidOut cs (scanAll fuel (reading cs line)) := by
  -- The fuel is more than there are bytes, so it does not run out.
  induction fuel with
  | zero => exact fun cs line hfuel => absurd hfuel (Nat.not_lt_zero _)
  | succ fuel ih =>
      intro cs line hfuel hfault
      have hreads : ∃ t next, (reading cs line).scan = some (t, next) := exists_scan rfl
      rcases hreads with ⟨t, next, hscan⟩
      rw [scanAll, hscan] at hfault ⊢
      dsimp only at hfault ⊢
      have hmem : t ∈ if t.kind = .endOfInput then [t] else t :: scanAll fuel next := by
        split <;> exact List.mem_cons_self
      have ht := hfault t hmem
      -- Either this is the end, or a token with a text behind a gap.
      rcases scan_layout hscan ht with
        ⟨line', rfl, hgap⟩ | ⟨hkind, hne, hnext, hafter, gap, hgap, hrest⟩
      · exact .last hgap
      · rw [if_neg hkind.1] at hfault ⊢
        have hlt := scan_unread_lt (orderly_reading cs line) hscan hkind.1
        rw [hnext, unread_eq rfl, unread_eq rfl] at hlt
        rw [hnext] at hfault ⊢
        have hlater := ih next.rest next.line (Nat.lt_of_lt_of_le hlt (Nat.le_of_lt_succ hfuel))
          fun t' ht' => hfault t' (List.mem_cons_of_mem _ ht')
        rw [hrest, ← Token.lexeme_eq ht]
        refine .cons hgap hkind (fun h => hne ?_) hafter hlater
        rw [← Token.lexeme_eq ht, h]
        rfl

end Lexer

/-- A source without faults is laid out by its tokens. -/
theorem source_is_laid_out (source : String)
    (h : ∀ t ∈ tokens source, ∀ why, t.kind ≠ .fault why) :
    LaidOut source.toList (tokens source) :=
  Lexer.scanAll_laidOut _ source.toList 1
    (Nat.lt_succ_of_le (Nat.le_of_eq (Text.length_bytes source))) h

/-- Marks of comments and strings inside one another, and a line comment at the end. -/
theorem source_is_laid_out_nested :
    tokens "hex\"/*\"/*\"*/hex//" = [⟨.hexString, "hex\"/*\"", 1⟩, ⟨.identifier, "hex", 1⟩,
      ⟨.endOfInput, "", 1⟩] ∧
    LaidOut "hex\"/*\"/*\"*/hex//".toList (tokens "hex\"/*\"/*\"*/hex//") := by
  have htokens : tokens "hex\"/*\"/*\"*/hex//" = [⟨.hexString, "hex\"/*\"", 1⟩,
      ⟨.identifier, "hex", 1⟩, ⟨.endOfInput, "", 1⟩] := by rfl
  refine ⟨htokens, source_is_laid_out _ ?_⟩
  rw [htokens]
  simp

end YulToolchain
