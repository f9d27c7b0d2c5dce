import YulToolchain.Proofs.Token.Position

/-!
# Line Numbers

The line of the lexer against the line ends before its cursor.

The line that a call comes to is what it was plus the line ends of the gap. A token hardly
ever takes line ends along: a string stops at a line end, and no other token can have
one. The exception is a line end behind a backslash in a string. It is read as the hidden
character and not counted, and from there on all lines are too small.

So the line is one more than the number of line ends before the cursor exactly as long as
no string has hidden one. Both directions come from one count that a call can only make
smaller, the line together with the line ends still to come.

## Main definitions

* `Lexer.lineEndsBefore`: How many line ends there are before the cursor.
* `Lexer.HidesLineEnd`: The call reads a string with a hidden line end.

## Theorems

* `Lexer.scan_lines`, `Lexer.after_lines`: The line together with the line ends to come.
* `lines_count_line_ends`: When the line of a token is the one on which it ends.
* `hidden_line_end_is_not_counted`: A line that is too small.
-/

namespace YulToolchain

namespace Lexer

/-- How many bytes of line ends there are before the cursor. -/
def lineEndsBefore (source : String) (lx : Lexer) : Nat :=
  ((Text.bytes source.toList).take (lx.position source)).count Text.lineFeed

/-- The call reads a string in which a backslash hides a line end. -/
def HidesLineEnd (lx : Lexer) : Prop :=
  ∃ body stop, StringAt lx.behindGap.rest body stop ∧ '\n' ∈ body

variable {lx mid next : Lexer} {t : Token}

/-- A call keeps the line together with the line ends to come, if it reads no string with a
    hidden line end. Else it makes the sum smaller. -/
theorem scan_lines (horderly : lx.Orderly) (h : lx.scan = some (t, next)) :
    t.line = next.line ∧ ∃ hidden,
      next.line + next.unread.count Text.lineFeed + hidden
        = lx.line + lx.unread.count Text.lineFeed ∧ (hidden = 0 ↔ ¬ lx.HidesLineEnd) := by
  rcases scan_passes horderly h with ⟨gap, passed, hunread, -, hline, hline', hhidden⟩
  refine ⟨hline.trans hline'.symm, passed.count Text.lineFeed, ?_, ?_⟩
  · rw [hline', hunread, List.count_append, List.count_append, Text.count_bytes_lineFeed]
    omega
  · rw [List.count_eq_zero, hhidden]
    exact Iff.rfl

/-- Calls keep the line together with the line ends to come as long as none of them reads a
    string with a hidden line end. -/
theorem after_lines {n : Nat} (horderly : lx.Orderly) (h : lx.after n = some mid) :
    ∃ hidden, mid.line + mid.unread.count Text.lineFeed + hidden
        = lx.line + lx.unread.count Text.lineFeed ∧
      (hidden = 0 ↔ ∀ m < n, ∀ lx', lx.after m = some lx' → ¬ lx'.HidesLineEnd) := by
  induction n generalizing lx with
  | zero =>
      obtain rfl : lx = mid := Option.some.inj h
      exact ⟨0, rfl, iff_of_true rfl fun m hm => absurd hm (Nat.not_lt_zero m)⟩
  | succ n ih =>
      rw [after] at h
      cases hfirst : lx.scan with
      | none =>
          rw [hfirst] at h
          exact absurd h (by rintro ⟨⟩)
      | some first =>
          rcases first with ⟨t, next⟩
          rw [hfirst] at h
          rcases scan_lines horderly hfirst with ⟨-, hidden, hsum, hnone⟩
          rcases ih (scan_orderly horderly hfirst) h with ⟨hidden', hsum', hnone'⟩
          refine ⟨hidden + hidden', by omega, ?_⟩
          -- None is hidden by any call if none is by the first and none by the later ones.
          rw [Nat.add_eq_zero_iff, hnone, hnone']
          constructor
          · rintro ⟨hlx, hnext⟩ m hm lx' hlx'
            cases m with
            | zero => exact Option.some.inj hlx' ▸ hlx
            | succ m =>
                rw [after, hfirst] at hlx'
                exact hnext m (Nat.lt_of_succ_lt_succ hm) lx' hlx'
          · refine fun hall => ⟨hall 0 (Nat.succ_pos n) lx rfl, fun m hm lx' hlx' => ?_⟩
            refine hall (m + 1) (Nat.succ_lt_succ hm) lx' ?_
            rw [after, hfirst]
            exact hlx'

/-- The line ends before the cursor and those to come are all of them. -/
theorem lineEndsBefore_add {source : String} (horderly : lx.Orderly)
    (hsuffix : lx.rest <:+ source.toList) :
    lx.lineEndsBefore source + lx.unread.count Text.lineFeed = source.toList.count '\n' := by
  rw [lineEndsBefore, ← List.count_append, take_position horderly hsuffix,
    Text.count_bytes_lineFeed]

end Lexer

/-- After every call the line is one more than the number of line ends before the cursor, and
    the token has the line on which it ends, exactly as long as no call has read a string in
    which a backslash hides a line end. The tokens of the source are those of the calls. -/
theorem lines_count_line_ends (source : String) :
    (∀ n lx t next, (Lexer.ofChars source.toList).after n = some lx →
      lx.scan = some (t, next) →
        t.line = next.line ∧ (next.line = 1 + next.lineEndsBefore source ↔
          ∀ m ≤ n, ∀ lx', (Lexer.ofChars source.toList).after m = some lx' →
            ¬ lx'.HidesLineEnd)) ∧
    ∀ n t, (tokens source)[n]? = some t → ∃ lx next,
      (Lexer.ofChars source.toList).after n = some lx ∧ lx.scan = some (t, next) := by
  have hstart : (Lexer.ofChars source.toList).Orderly := orderly_ofChars _
  refine ⟨fun n lx t next hlx h => ?_, fun n t h => Lexer.exists_after_of_scanAll h⟩
  have hnext := Lexer.after_succ hlx h
  rcases Lexer.after_orderly hstart hnext with ⟨horderly, hsuffix⟩
  rcases Lexer.after_lines hstart hnext with ⟨hidden, hsum, hnone⟩
  have hall : next.lineEndsBefore source + next.unread.count Text.lineFeed
      = (Lexer.ofChars source.toList).unread.count Text.lineFeed := by
    rw [Lexer.lineEndsBefore_add horderly hsuffix, Lexer.unread_eq rfl,
      Text.count_bytes_lineFeed]
    rfl
  -- In the beginning the line is 1 and all line ends are to come.
  have hline : (Lexer.ofChars source.toList).line = 1 := rfl
  have hzero : next.line = 1 + next.lineEndsBefore source ↔ hidden = 0 := by omega
  refine ⟨(Lexer.scan_lines (Lexer.after_orderly hstart hlx).1 h).1, hzero.trans ?_⟩
  simpa only [Nat.lt_succ_iff] using hnone

/-- Line ends in comments of both kinds are counted. -/
theorem lines_count_line_ends_in_comments : ∃ lx t next,
    (Lexer.ofChars "/*\n*/ \"a\\\"\" // b\nc".toList).after 1 = some lx ∧
      lx.scan = some (t, next) ∧ t = ⟨.identifier, "c", 3⟩ ∧
      next.lineEndsBefore "/*\n*/ \"a\\\"\" // b\nc" = 2 ∧ ¬ lx.HidesLineEnd := by
  have hlines := (lines_count_line_ends "/*\n*/ \"a\\\"\" // b\nc").1 1
    ⟨" // b\nc".toList, 0, false, 2⟩ ⟨.identifier, "c", 3⟩ ⟨[], 0, false, 3⟩ rfl rfl
  exact ⟨_, _, _, rfl, rfl, rfl, by decide, hlines.2.mp (by decide) 1 (Nat.le_refl 1) _ rfl⟩

/-- A line end that a backslash hides in a string is not counted. -/
theorem hidden_line_end_is_not_counted : ∃ lx,
    (Lexer.ofChars "\"\\\n\"".toList).after 1 = some lx ∧ lx.line = 1 ∧
      lx.lineEndsBefore "\"\\\n\"" = 1 :=
  ⟨⟨[], 0, false, 1⟩, rfl, rfl, by decide⟩

end YulToolchain
