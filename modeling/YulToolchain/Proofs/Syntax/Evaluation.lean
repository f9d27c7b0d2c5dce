import YulToolchain.Parser.Object
import YulToolchain.Proofs.Text.Bytes

/-!
# Evaluating the Reading of a Source

Sources that are given as they stand can be read by evaluation, if that is done with care.

A given text stands for its bytes, and to look at a character of it means to decode the
bytes up to there. The lexer looks at every character more than once. `tokensOfBytes` turns
the bytes into characters once, from front to back, and finds the same tokens.

## Main definitions

* `tokensOfBytes`: The tokens of a source, read off its bytes.
* `Block.ofTokens`, `Object.ofTokens`: What some tokens are read as.

## Theorems

* `parseBlock_eq`, `parseObject_eq`: A source is read as the tokens in its bytes are.
* `exists_of_block?`, `exists_of_object?`: What follows from a test of what is read.
-/

namespace YulToolchain

/-- The tokens of a source. Its characters are read off its bytes. -/
def tokensOfBytes (source : String) : List Token :=
  Lexer.scanAll (source.utf8ByteSize + 1)
    (Lexer.ofChars (Text.ofBytes source.toByteArray.data.toList))

theorem tokensOfBytes_eq (source : String) : tokensOfBytes source = tokens source := by
  rw [tokensOfBytes, Text.ofBytes_toByteArray, tokens]

/-- Reads tokens that are one block. -/
def Block.ofTokens (d : Dialect) (ts : List Token) : Except ParseError Block := do
  let start ← Cursor.ofTokens ts
  let reader : Parse Block := do
    let b ← Parse.block d (Parse.fuelFor ts.length) 0
    let _ ← Parse.consume .endOfInput .expectedEnd
    return b
  (·.1) <$> reader.run start

/-- Reads tokens that are an object or a bare block. -/
def Object.ofTokens (d : Dialect) (ts : List Token) : Except ParseError Object := do
  let fuel := Parse.fuelFor ts.length
  let start ← Cursor.ofTokens ts
  let reader : Parse Object := do
    let o ← if ← Parse.check .leftBrace then Object.ofCode <$> Parse.block d fuel 0
      else Parse.object d fuel
    let _ ← Parse.consume .endOfInput .expectedEnd
    return o
  (·.1) <$> reader.run start

/-- Tests are stated with `Option.any` and not with a `match`, since a proof by evaluation that goes
    under a `match` is evaluated once more wherever it is used. -/
theorem exists_ok_of_any {ε α : Type} {r : Except ε α} {test : α → Bool}
    (h : r.toOption.any test = true) : ∃ a, r = .ok a ∧ test a = true := by
  cases r with
  | error e => exact absurd h Bool.noConfusion
  | ok a => exact ⟨a, rfl, h⟩

/-- A test that some value passes is passed by the value there is. -/
theorem exists_some_of_any {α : Type} {o : Option α} {test : α → Bool}
    (h : o.any test = true) : ∃ a, o = some a ∧ test a = true := by
  cases o with
  | none => exact absurd h Bool.noConfusion
  | some a => exact ⟨a, rfl, h⟩

/-- What an error is can be decided without regard to the values there might have been. -/
theorem eq_error_of_map {ε α β : Type} {r : Except ε α} {f : α → β} {why : ε}
    (h : r.map f = .error why) : r = .error why := by
  cases r with
  | error why' => exact congrArg Except.error (Except.error.inj h)
  | ok a => exact absurd h (by rintro ⟨⟩)

section Sources

variable {d : Dialect} {source : String}

theorem parseBlock_eq : parseBlock d source = Block.ofTokens d (tokensOfBytes source) := by
  rw [tokensOfBytes_eq]
  rfl

theorem parseObject_eq : parseObject d source = Object.ofTokens d (tokensOfBytes source) := by
  rw [tokensOfBytes_eq]
  rfl

/-- A source that can be read as a block that passes a test, from which something
    follows. -/
theorem exists_of_block? {P : Block → Prop} (test : Block → Bool)
    (h : (Block.ofTokens d (tokensOfBytes source)).toOption.any test = true)
    (hP : ∀ code, parseBlock d source = .ok code → test code = true → P code) :
    ∃ code, parseBlock d source = .ok code ∧ P code := by
  rcases exists_ok_of_any h with ⟨code, hread, htest⟩
  rw [← parseBlock_eq] at hread
  exact ⟨code, hread, hP code hread htest⟩

/-- A source that can be read as an object that passes a test, from which something
    follows. -/
theorem exists_of_object? {P : Object → Prop} (test : Object → Bool)
    (h : (Object.ofTokens d (tokensOfBytes source)).toOption.any test = true)
    (hP : ∀ o, parseObject d source = .ok o → test o = true → P o) :
    ∃ o, parseObject d source = .ok o ∧ P o := by
  rcases exists_ok_of_any h with ⟨o, hread, htest⟩
  rw [← parseObject_eq] at hread
  exact ⟨o, hread, hP o hread htest⟩

end Sources

end YulToolchain
