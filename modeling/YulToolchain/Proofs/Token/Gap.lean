import YulToolchain.Token.Lexer
import Mathlib.Data.List.Infix

/-!
# Gaps between Tokens

What may stand between two tokens, and that the reader of gaps passes over just that.

A gap is made of pieces: blanks, line comments with their line end, and block comments up
to the first mark that closes them. Only behind the last token may a line comment be
without a line end, as the source ends there. A block comment that the source leaves open
is no piece of a gap; it makes the reader stop at the end of the source with a fault.

The reader is one function with three states. `skipGap_lineComment` and
`skipGap_blockComment` take it through a comment as a whole, so the induction over a gap
goes piece by piece and has to know no other state than the one between pieces.

## Main definitions

* `GapPiece`, `IsGap`: What may stand between two tokens.
* `IsLastGap`: What may stand behind the last one.
* `GapRead`: What the reader of gaps did to some characters.

## Theorems

* `skipGap_read`: What the reader of gaps does.
-/

namespace YulToolchain

/-- A character that separates tokens. -/
def IsSpace (c : Char) : Prop := c = ' ' ∨ c = '\t' ∨ c = '\r' ∨ c = '\n'

/-- A blank, a line comment with its line end or a block comment. A block comment ends at
    the first mark that can close it. -/
inductive GapPiece : List Char → Prop where
  | space {c : Char} (h : IsSpace c) : GapPiece [c]
  | lineComment {text : List Char} (h : '\n' ∉ text) : GapPiece ('/' :: '/' :: (text ++ ['\n']))
  | blockComment {text : List Char} (h : ¬ ['*', '/'] <:+: text ++ ['*']) :
      GapPiece ('/' :: '*' :: (text ++ ['*', '/']))

/-- What may stand between two tokens: pieces one behind the other. -/
inductive IsGap : List Char → Prop where
  | nil : IsGap []
  | cons {piece gap : List Char} (hpiece : GapPiece piece) (hgap : IsGap gap) :
      IsGap (piece ++ gap)

/-- What may stand behind the last token: a gap, and perhaps a line comment that ends with
    the source. -/
def IsLastGap (cs : List Char) : Prop :=
  IsGap cs ∨ ∃ gap text, IsGap gap ∧ '\n' ∉ text ∧ cs = gap ++ '/' :: '/' :: text

/-- What the reader of gaps did to some characters. It comes to a character that belongs to
    no gap, or to the end of the source inside a comment. -/
inductive GapRead (line : Nat) (cs : List Char) : Gap → Prop where
  | stopped {gap rest : List Char} (hcs : cs = gap ++ rest) (hgap : IsGap gap)
      (hrest : ∀ c, rest.head? = some c → ¬ IsSpace c) :
      GapRead line cs ⟨rest, line + gap.count '\n', false⟩
  | lineComment {gap text : List Char} (hcs : cs = gap ++ '/' :: '/' :: text)
      (hgap : IsGap gap) (htext : '\n' ∉ text) :
      GapRead line cs ⟨[], line + gap.count '\n', false⟩
  | blockComment {gap text : List Char} (hcs : cs = gap ++ '/' :: '*' :: text)
      (hgap : IsGap gap) (htext : ¬ ['*', '/'] <:+: text) :
      GapRead line cs ⟨[], line + cs.count '\n', true⟩

section Comments

/-- A line comment is read up to its line end, or to the end of the source. -/
theorem skipGap_lineComment (line : Nat) (cs : List Char) :
    ('\n' ∉ cs ∧ skipGap .lineComment line cs = ⟨[], line, false⟩) ∨
      ∃ text rest, '\n' ∉ text ∧ cs = text ++ '\n' :: rest ∧
        skipGap .lineComment line cs = skipGap .between (line + 1) rest := by
  -- The comment ends at the first line end.
  induction cs with
  | nil => exact .inl ⟨List.not_mem_nil, rfl⟩
  | cons c cs ih =>
      by_cases hc : c = '\n'
      · subst hc
        exact .inr ⟨[], cs, List.not_mem_nil, rfl, rfl⟩
      · have hstep : skipGap .lineComment line (c :: cs) = skipGap .lineComment line cs := by
          rw [skipGap]
          exact hc
        rw [hstep]
        rcases ih with ⟨hcs, hread⟩ | ⟨text, rest, htext, hcs, hread⟩
        · exact .inl ⟨fun h => (List.mem_cons.mp h).elim (fun h => hc h.symm) hcs, hread⟩
        · exact .inr ⟨c :: text, rest,
            fun h => (List.mem_cons.mp h).elim (fun h => hc h.symm) htext,
            congrArg (c :: ·) hcs, hread⟩

/-- A block comment is read up to the first mark that closes it, or to the end of the
    source. -/
theorem skipGap_blockComment (cs : List Char) : ∀ line : Nat,
    (¬ ['*', '/'] <:+: cs ∧
      skipGap .blockComment line cs = ⟨[], line + cs.count '\n', true⟩) ∨
      ∃ text rest, ¬ ['*', '/'] <:+: text ++ ['*'] ∧ cs = text ++ '*' :: '/' :: rest ∧
        skipGap .blockComment line cs = skipGap .between (line + text.count '\n') rest := by
  induction cs with
  | nil => exact fun line => .inl ⟨by decide, rfl⟩
  -- Either the comment ends here, or it goes on behind the first character.
  | cons c cs ih =>
      intro line
      by_cases hclose : ∃ rest, c = '*' ∧ cs = '/' :: rest
      · rcases hclose with ⟨rest, rfl, rfl⟩
        exact .inr ⟨[], rest, by decide, rfl, rfl⟩
      · have hstep : skipGap .blockComment line (c :: cs)
            = skipGap .blockComment (line + [c].count '\n') cs := by
          by_cases hc : c = '\n'
          · subst hc
            rfl
          · have hcount : [c].count '\n' = 0 :=
              List.count_eq_zero.mpr fun h => hc (List.mem_singleton.mp h).symm
            rw [skipGap, hcount, Nat.add_zero]
            · exact fun rest h hcs => hclose ⟨rest, h, hcs⟩
            · exact hc
        -- The mark is not at the front, so it would be behind the first character.
        have hlater : ∀ {tail : List Char}, ['*', '/'] <:+: c :: tail →
            tail.head? = cs.head? ∨ tail.head? ≠ some '/' → ['*', '/'] <:+: tail := by
          intro tail hmark htail
          rcases List.infix_cons_iff.mp hmark with ⟨more, hmore⟩ | hmark
          · obtain ⟨rfl, rfl⟩ := List.cons.inj hmore
            rcases htail with htail | htail
            · rcases cs with _ | ⟨d, cs⟩
              · exact absurd htail (by rintro ⟨⟩)
              · obtain rfl : '/' = d := Option.some.inj htail
                exact absurd ⟨cs, rfl, rfl⟩ hclose
            · exact absurd rfl htail
          · exact hmark
        rw [hstep]
        -- The line ends are counted on the way.
        rcases ih (line + [c].count '\n') with ⟨hcs, hread⟩ | ⟨text, rest, htext, hcs, hread⟩
        · refine .inl ⟨fun h => hcs (hlater h (.inl rfl)), ?_⟩
          rw [hread, Nat.add_assoc, ← List.count_append]
          rfl
        · refine .inr ⟨c :: text, rest, fun h => htext (hlater h ?_), congrArg (c :: ·) hcs, ?_⟩
          · rcases text with _ | ⟨d, text⟩
            · exact .inr (by decide)
            · rw [hcs]
              exact .inl rfl
          · rw [hread, Nat.add_assoc, ← List.count_append]
            rfl

end Comments

section Gaps

variable {line : Nat} {cs : List Char}

/-- A piece in front of what was read belongs to the gap. -/
theorem GapRead.cons {piece : List Char} {g : Gap} (hpiece : GapPiece piece)
    (h : GapRead (line + piece.count '\n') cs g) : GapRead line (piece ++ cs) g := by
  cases h with
  | @stopped gap rest hcs hgap hrest =>
      rw [Nat.add_assoc, ← List.count_append]
      exact .stopped (by rw [hcs, List.append_assoc]) (.cons hpiece hgap) hrest
  | @lineComment gap text hcs hgap htext =>
      rw [Nat.add_assoc, ← List.count_append]
      exact .lineComment (by rw [hcs, List.append_assoc]) (.cons hpiece hgap) htext
  | @blockComment gap text hcs hgap htext =>
      rw [Nat.add_assoc, ← List.count_append]
      exact .blockComment (by rw [hcs, List.append_assoc]) (.cons hpiece hgap) htext

theorem skipGap_space {c : Char} (hc : IsSpace c) :
    skipGap .between line (c :: cs) = skipGap .between (line + [c].count '\n') cs := by
  rcases hc with rfl | rfl | rfl | rfl <;> rfl

/-- A gap ends in front of anything else. -/
theorem skipGap_stop (hspace : ∀ c, cs.head? = some c → ¬ IsSpace c)
    (hline : ∀ rest, cs ≠ '/' :: '/' :: rest) (hblock : ∀ rest, cs ≠ '/' :: '*' :: rest) :
    skipGap .between line cs = ⟨cs, line, false⟩ := by
  rw [skipGap]
  · exact fun rest h => hspace ' ' (by rw [h]; rfl) (.inl rfl)
  · exact fun rest h => hspace '\r' (by rw [h]; rfl) (.inr (.inr (.inl rfl)))
  · exact fun rest h => hspace '\t' (by rw [h]; rfl) (.inr (.inl rfl))
  · exact fun rest h => hspace '\n' (by rw [h]; rfl) (.inr (.inr (.inr rfl)))
  · exact hline
  · exact hblock

theorem GapPiece.length_pos {piece : List Char} (h : GapPiece piece) : 0 < piece.length := by
  cases h <;> exact Nat.succ_pos _

/-- The reader of gaps passes over a piece, or it comes to its end. -/
theorem skipGap_step (line : Nat) (cs : List Char) :
    (∃ piece rest, GapPiece piece ∧ cs = piece ++ rest ∧
      skipGap .between line cs = skipGap .between (line + piece.count '\n') rest) ∨
    GapRead line cs (skipGap .between line cs) := by
  by_cases hspace : ∃ c rest, IsSpace c ∧ cs = c :: rest
  · rcases hspace with ⟨c, rest, hc, rfl⟩
    exact .inl ⟨[c], rest, .space hc, rfl, skipGap_space hc⟩
  by_cases hline : ∃ rest, cs = '/' :: '/' :: rest
  · -- Without a line end the comment is the last of the source, and no piece of a gap.
    rcases hline with ⟨rest, rfl⟩
    have hread : skipGap .between line ('/' :: '/' :: rest) = skipGap .lineComment line rest := rfl
    rcases skipGap_lineComment line rest with ⟨htext, hend⟩ | ⟨text, more, htext, rfl, hend⟩
    · rw [hread, hend]
      exact .inr (@GapRead.lineComment _ _ [] _ rfl .nil htext)
    · refine .inl ⟨_, more, .lineComment htext, by simp, ?_⟩
      rw [hread, hend]
      simp [List.count_eq_zero.mpr htext]
  by_cases hblock : ∃ rest, cs = '/' :: '*' :: rest
  · -- Nor is one that is left open, which is the only fault here.
    rcases hblock with ⟨rest, rfl⟩
    have hread : skipGap .between line ('/' :: '*' :: rest) = skipGap .blockComment line rest := rfl
    rcases skipGap_blockComment rest line with ⟨htext, hend⟩ | ⟨text, more, htext, rfl, hend⟩
    · rw [hread, hend]
      exact .inr (@GapRead.blockComment _ _ [] _ rfl .nil htext)
    · refine .inl ⟨_, more, .blockComment htext, by simp, ?_⟩
      rw [hread, hend]
      simp
  -- What is left is neither white space nor a comment.
  have hstop : ∀ c, cs.head? = some c → ¬ IsSpace c := by
    intro c hc hspace'
    rcases List.head?_eq_some_iff.mp hc with ⟨rest, hrest⟩
    exact hspace ⟨c, rest, hspace', hrest⟩
  rw [skipGap_stop hstop (fun rest h => hline ⟨rest, h⟩) (fun rest h => hblock ⟨rest, h⟩)]
  exact .inr (.stopped rfl .nil hstop)

-- By induction on the number of characters, as a piece may have any length.
/-- The reader of gaps passes over pieces as long as there are any. -/
theorem skipGap_read (line : Nat) (cs : List Char) :
    GapRead line cs (skipGap .between line cs) := by
  induction hlength : cs.length using Nat.strong_induction_on generalizing line cs with
  | _ n ih =>
      rcases skipGap_step line cs with ⟨piece, rest, hpiece, rfl, hstep⟩ | hend
      · rw [hstep]
        have hpos := hpiece.length_pos
        rw [List.length_append] at hlength
        exact .cons hpiece (ih rest.length (by omega) _ rest rfl)
      · exact hend

end Gaps

end YulToolchain
