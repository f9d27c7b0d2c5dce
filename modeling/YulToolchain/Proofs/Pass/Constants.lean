import YulToolchain.Proofs.Pass.Simplified
import YulToolchain.Proofs.Syntax.Numbers
import YulToolchain.Proofs.Syntax.Reread

/-!
# Constants through Text

A word that is computed before the program runs goes through text: folding writes it down as a
number, the printer prints the number, and whoever reads the output makes a word of it
again.

Small words are written in decimal and large ones in hexadecimal. Either way the text is that
of a number (`Literal.isNumber_numberText`), so the lexer takes it in up to its end wherever
it stands, as long as nothing follows that could belong to a name. The digits are read as
the word they were written for (`readNumber_numberText`), so a folded expression has the
same value when it was printed and read again.

## Theorems

* `tokens_numberText`: The text of a word alone is one number.
* `Expr.fold?_reread`: What an expression is folded to is read again with the value of the
  expression.
* `numbers_denote_what_they_print`: Neither folding nor printing nor reading changes a constant.
-/

namespace YulToolchain

/-- The text of a number is a single token. -/
theorem tokens_numberText (w : Word) : tokens (Literal.numberText w)
    = [⟨.number, Literal.numberText w, 1⟩, ⟨.endOfInput, "", 1⟩] := by
  refine tokens_printed ?_
  have hlexes := Lexes.number (Literal.isNumber_numberText w)
    (fun c hc => absurd hc (by rintro ⟨⟩)) Lexes.done
  rwa [List.append_nil] at hlexes

/-- The value of a variable that is a number is read again as the same number. -/
theorem parseBlock_number (d : Dialect) (line line' : Nat) {x : String} (hx : IsName x)
    (w : Word) :
    parseBlock d (Block.print ⟨line, [.decl line [⟨line, x, ""⟩] (some (.number line' w))]⟩)
      = .ok ⟨1, [.decl 1 [⟨1, x, ""⟩] (some (.number 1 w))]⟩ := by
  have hnumber : (Expr.number line' w).Written d 1 := by
    rw [Expr.number, Expr.Written]
    exact Literal.written_number (.inl rfl)
  have hwritten : Block.Written d 0
      ⟨line, [.decl line [⟨line, x, ""⟩] (some (.number line' w))]⟩ := by
    rw [Block.Written, Stmt.WrittenSeq, Stmt.WrittenSeq, Stmt.Written]
    refine ⟨by decide, ⟨List.cons_ne_nil _ _, fun v hv => ?_, fun e he => ?_⟩, trivial⟩
    · rw [List.mem_singleton.mp hv]
      exact ⟨hx, .inl rfl⟩
    · rw [← Option.some.inj he]
      exact hnumber
  exact parseBlock_print hwritten

/-- An expression that is folded has a value, and it is that of what is read when the number it
    is folded to was printed. -/
theorem Expr.fold?_reread (d : Dialect) {e e' : Expr} (h : e.fold? = some e') :
    ∃ w, (∀ c s, e.HasWord c s w) ∧ ∀ line x, IsName x → ∃ l,
      parseBlock d (Block.print ⟨line, [.decl line [⟨line, x, ""⟩] (some e')]⟩)
        = .ok ⟨1, [.decl 1 [⟨1, x, ""⟩] (some (.literal l))]⟩ ∧ l.value = .ok w := by
  rcases fold?_eq_some h with ⟨line', i, args, values, w, rfl, hvalues, hw, rfl⟩
  refine ⟨w, fun c s => .instr (HasWord.of_literals (literalValues hvalues)) hw,
    fun line x hx => ⟨Literal.number 1 w, ?_, Literal.value_number 1 w⟩⟩
  exact parseBlock_number d line line' hx w

/-- Numbers denote what they print.

    The text for a word, in decimal below `2 ^ 32` and in hexadecimal from there on, is read
    by the lexer as one number, alone or in any source where no part of a name follows, and it
    denotes the word. So an expression that is folded to a number has the same value as what
    is read when the number was printed. -/
theorem numbers_denote_what_they_print :
    (∀ w : Word,
      (Literal.numberText w).toList =
        (if w.toNat < 2 ^ 32 then Nat.toDigits 10 w.toNat
          else '0' :: 'x' :: Nat.toDigits 16 w.toNat) ∧
      tokens (Literal.numberText w)
        = [⟨.number, Literal.numberText w, 1⟩, ⟨.endOfInput, "", 1⟩] ∧
      (∀ line rest, (∀ c, rest.head? = some c → isIdentifierPart c = false) →
        Lexer.scan (.reading ((Literal.numberText w).toList ++ rest) line)
          = some (⟨.number, Literal.numberText w, line⟩, .reading rest line)) ∧
      readNumber (Literal.numberText w) = .ok w) ∧
    ∀ (d : Dialect) (e e' : Expr), e.fold? = some e' →
      ∃ w, (∀ c s, e.HasWord c s w) ∧ ∀ line x, IsName x → ∃ l,
        parseBlock d (Block.print ⟨line, [.decl line [⟨line, x, ""⟩] (some e')]⟩)
          = .ok ⟨1, [.decl 1 [⟨1, x, ""⟩] (some (.literal l))]⟩ ∧ l.value = .ok w :=
  ⟨fun w => ⟨Literal.numberText_toList w, tokens_numberText w,
      fun line _ hend => scan_number (Literal.isNumber_numberText w) hend line,
      readNumber_numberText w⟩,
    fun d _ _ h => Expr.fold?_reread d h⟩

/-- The first word that is written in hexadecimal, as the sum of the last decimal one and one,
    in front of the end of a call. -/
theorem numbers_denote_what_they_print_at_border :
    Literal.numberText 0x100000000 = "0x100000000" ∧
    Lexer.scan (.reading ((Literal.numberText 0x100000000).toList ++ [')']) 3)
      = some (⟨.number, Literal.numberText 0x100000000, 3⟩, .reading [')'] 3) ∧
    ∃ e', (Expr.instr 1 .add [.number 1 0xffffffff, .number 1 1]).fold? = some e' ∧
      ∃ w, (∀ c s, (Expr.instr 1 .add [.number 1 0xffffffff, .number 1 1]).HasWord c s w) ∧
        ∃ l, parseBlock .strictAssembly
            (Block.print ⟨1, [.decl 1 [⟨1, "x", ""⟩] (some e')]⟩)
          = .ok ⟨1, [.decl 1 [⟨1, "x", ""⟩] (some (.literal l))]⟩ ∧ l.value = .ok w := by
  -- The sum just leaves the range of decimal numerals.
  have hfold : (Expr.instr 1 .add [.number 1 0xffffffff, .number 1 1]).fold?
      = some (.number 1 0x100000000) := by
    simp only [Expr.fold?, List.mapM_cons, List.mapM_nil, Expr.literalValue?_number]
    rfl
  have hname : IsName "x" := ⟨⟨'x', [], rfl, by decide, fun _ h => absurd h List.not_mem_nil⟩, rfl⟩
  have hscan := (numbers_denote_what_they_print.1 0x100000000).2.2.1 3 [')'] fun c hc => by
    rw [← Option.some.inj hc]
    decide
  rcases numbers_denote_what_they_print.2 .strictAssembly _ _ hfold with ⟨w, hword, hread⟩
  exact ⟨by decide, hscan, _, hfold, w, hword, hread 1 "x" hname⟩

end YulToolchain
