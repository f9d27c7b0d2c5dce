import Mathlib.Data.String.Basic
import YulToolchain.Proofs.Syntax.Written

/-!
# The Tokens of Printed Code

A tree is printed as a sequence of tokens, with a blank between two of them where
they would run together. `tokens` lists these tokens, all on the first line, and the
lexer finds exactly them in the printed text.

Text is printed piece by piece, and the lexer reads it from the front, so the proof
goes the other way round: if the lexer finds some tokens in what comes after a piece,
then it finds those of the piece in front of them in the piece with what comes after
(`Lexes`). A name or a number must not be followed by a letter or a digit, and a name
not by a quote; nothing else can go wrong.

## Main definitions

* `Lexes`: The tokens of some characters.
* `Expr.tokens`, `Stmt.tokens`, `Block.tokens`, `Object.tokens`: The tokens of a tree.

## Theorems

* `Lexes.name`, `Lexes.number`, `Lexes.quoted`: Texts that are not fixed.
* `Expr.print_lexes`, `Stmt.print_lexes`, `Block.print_lexes`, `Object.print_lexes`:
  Printed trees.
* `tokens_printed`: The tokens of a source that consists of printed text.
-/

namespace YulToolchain

/-- The lexer finds some tokens in some characters, all of them on the first line. -/
def Lexes (cs : List Char) (ts : List Token) : Prop :=
  ∀ fuel, cs.length < fuel → Lexer.scanAll fuel (.reading cs 1) = ts

namespace Lexes

variable {cs rest : List Char} {ts : List Token} {t : Token}

/-- Nothing but the end. -/
theorem done : Lexes [] [⟨.endOfInput, "", 1⟩] := by
  intro fuel hfuel
  cases fuel with
  | zero => exact absurd hfuel (Nat.lt_irrefl 0)
  | succ fuel => rfl

/-- One token that the lexer reads next, in front of all others. -/
theorem token (h : Lexes rest ts) (hscan : Lexer.scan (.reading cs 1) = some (t, .reading rest 1))
    (hkind : t.kind ≠ .endOfInput) (hlen : rest.length < cs.length) : Lexes cs (t :: ts) := by
  intro fuel hfuel
  cases fuel with
  | zero => exact absurd hfuel (Nat.not_lt_zero _)
  | succ fuel =>
      simp only [Lexer.scanAll, hscan, if_neg hkind]
      rw [h fuel (by omega)]

/-- Spaces are skipped. -/
theorem space (h : Lexes cs ts) : Lexes (' ' :: cs) ts := by
  intro fuel hfuel
  rw [List.length_cons] at hfuel
  rw [← h fuel (by omega)]
  cases fuel with
  | zero => rfl
  | succ fuel => rfl

end Lexes

/-- Neither a name nor a string goes on with this character. -/
theorem clear_cons {c : Char} {cs : List Char} (h : isIdentifierPart c = false ∧ c ≠ '"') :
    Clear (c :: cs) := by
  intro c' hc'
  rw [← Option.some.inj hc']
  exact h

theorem clear_space {cs : List Char} : Clear (' ' :: cs) := clear_cons (by decide)

section Texts

variable {cs : List Char} {ts : List Token} {s : String}

/-- The first character of a token is no blank and starts no comment. -/
theorem scan_cons {c : Char} {cs : List Char} {line : Nat}
    (h : c ≠ ' ' ∧ c ≠ '\r' ∧ c ≠ '\t' ∧ c ≠ '\n' ∧ c ≠ '/') :
    Lexer.scan (.reading (c :: cs) line) = some (Lexer.tokenAt (.reading (c :: cs) line)) := by
  have hgap : skipGap .between line (c :: cs) = ⟨c :: cs, line, false⟩ := by
    rw [skipGap] <;> simp [h]
  unfold Lexer.scan
  simp only [Lexer.reading, Bool.false_eq_true, if_false, gt_iff_lt, Nat.lt_irrefl, hgap]

/-- Names do not begin with what is skipped. -/
theorem not_blank_of_start {c : Char} (h : isIdentifierPart c = true) :
    c ≠ ' ' ∧ c ≠ '\r' ∧ c ≠ '\t' ∧ c ≠ '\n' ∧ c ≠ '/' := by
  refine ⟨?_, ?_, ?_, ?_, ?_⟩ <;>
    · rintro rfl
      exact absurd h (by decide)

/-- A word is read up to its end. -/
theorem Lexes.word (hs : IsWord s) (hkind : (keyword? s).getD .identifier ≠ .endOfInput)
    (hclear : Clear cs) (h : Lexes cs ts) :
    Lexes (s.toList ++ cs) (⟨(keyword? s).getD .identifier, s, 1⟩ :: ts) := by
  have hrun := takeWhile_run hs.parts fun c hc => (hclear c hc).1
  rcases hs with ⟨c, rest, hchars, hstart, _⟩
  refine h.token ?_ hkind ?_
  · rw [hchars] at hrun ⊢
    rw [List.cons_append, scan_cons (not_blank_of_start (isIdentifierPart_of_start hstart))]
    rw [List.cons_append] at hrun
    simp only [Lexer.tokenAt, Lexer.reading, gt_iff_lt, Nat.lt_irrefl, if_false, hstart, if_true,
      Lexer.wordToken, hrun.1, hrun.2, ← hchars, String.ofList_toList]
    -- The mark of a hex string has a quote behind it.
    split
    · exact absurd rfl (hclear '"' rfl).2
    · rfl
  · rw [hchars, List.cons_append, List.length_cons, List.length_append]
    omega

/-- A printed name is read back whole, if nothing prolongs it. -/
theorem Lexes.name (hs : IsName s) (hclear : Clear cs) (h : Lexes cs ts) :
    Lexes (s.toList ++ cs) (⟨.identifier, s, 1⟩ :: ts) := by
  have hword := Lexes.word hs.1 (by rw [hs.2]; decide) hclear h
  rwa [hs.2] at hword

/-- A number is read up to its end, on any line and whatever follows. -/
theorem scan_number (hs : IsNumber s) (hend : ∀ c, cs.head? = some c → isIdentifierPart c = false)
    (line : Nat) :
    Lexer.scan (.reading (s.toList ++ cs) line) = some (⟨.number, s, line⟩, .reading cs line) := by
  have hsplit := splitNumber_number hs hend
  rcases hs with ⟨⟨c, rest, hchars, hdigit⟩, _⟩
  have hstart := isIdentifierStart_of_digit hdigit
  rw [hchars, List.cons_append] at hsplit ⊢
  rw [scan_cons (not_blank_of_start (isIdentifierPart_of_digit hdigit))]
  have hclear : cs.head?.any isIdentifierPart = false := by
    cases cs with
    | nil => rfl
    | cons c' cs => exact hend c' rfl
  simp only [Lexer.tokenAt, Lexer.reading, gt_iff_lt, Nat.lt_irrefl, if_false, hstart,
    Bool.false_eq_true, hdigit, if_true, Lexer.numberToken, hsplit, hclear, ← hchars,
    String.ofList_toList]

/-- A printed number is read back whole, if nothing prolongs it. -/
theorem Lexes.number (hs : IsNumber s) (hclear : Clear cs) (h : Lexes cs ts) :
    Lexes (s.toList ++ cs) (⟨.number, s, 1⟩ :: ts) := by
  refine h.token (scan_number hs (fun c hc => (hclear c hc).1) 1)
    (by decide : TokenKind.number ≠ .endOfInput) ?_
  rcases hs with ⟨⟨c, rest, hchars, _⟩, _⟩
  rw [hchars, List.cons_append, List.length_cons, List.length_append]
  omega

/-- What the lexer makes of a text in quotes, whatever stands in front of the first one. -/
theorem stringToken_quoted (kind : TokenKind) (opening : String) (hs : IsQuoted s) :
    Lexer.stringToken kind opening.toList (s.toList ++ '"' :: cs) 1
      = (⟨kind, opening ++ s ++ "\"", 1⟩, .reading cs 1) := by
  have htext : String.ofList (opening.toList ++ (s.toList ++ ['"'])) = opening ++ s ++ "\"" := by
    apply String.toList_injective
    simp only [String.toList_ofList, String.toList_append, List.append_assoc]
    rfl
  rw [Lexer.stringToken, scanString_quoted hs]
  dsimp only
  rw [htext]

/-- A text in quotes is read up to the second quote. -/
theorem Lexes.quoted (hs : IsQuoted s) (h : Lexes cs ts) :
    Lexes ("\"".toList ++ (s.toList ++ ("\"".toList ++ cs)))
      (⟨.string, "\"" ++ s ++ "\"", 1⟩ :: ts) := by
  refine h.token (congrArg some (stringToken_quoted .string "\"" hs)) ?_ ?_
  · exact (by decide : TokenKind.string ≠ .endOfInput)
  · simp only [List.length_append]
    show cs.length < 1 + (s.toList.length + (1 + cs.length))
    omega

/-- Hexadecimal data is read back whole. -/
theorem Lexes.hexQuoted (hs : IsQuoted s) (h : Lexes cs ts) :
    Lexes ("hex\"".toList ++ (s.toList ++ ("\"".toList ++ cs)))
      (⟨.hexString, "hex\"" ++ s ++ "\"", 1⟩ :: ts) := by
  refine h.token (congrArg some (stringToken_quoted .hexString "hex\"" hs)) ?_ ?_
  · exact (by decide : TokenKind.hexString ≠ .endOfInput)
  · simp only [List.length_append]
    show cs.length < 4 + (s.toList.length + (1 + cs.length))
    omega

/-- Text without quotes, backslashes and line ends can stand between quotes. -/
theorem isQuoted_of_plain (h : ∀ c ∈ s.toList, c ≠ '"' ∧ c ≠ '\n' ∧ c ≠ '\\') : IsQuoted s := by
  rw [IsQuoted]
  revert h
  induction s.toList with
  | nil => intro _; rfl
  | cons c rest ih =>
      intro h
      have hc := h c List.mem_cons_self
      rw [List.cons_append, scanString, ih fun x hx => h x (List.mem_cons_of_mem _ hx)]
      · rfl
      · exact hc.1
      · exact hc.2.1
      · exact fun hb _ => hc.2.2 hb
      · exact fun _ _ hb _ => hc.2.2 hb

/-- The digits of bytes neither close a string nor escape anything. -/
theorem isQuoted_encode (bytes : List UInt8) : IsQuoted (Hex.encode bytes) := by
  refine isQuoted_of_plain fun c hc => ?_
  have hdigit : ∀ n < 16, Hex.digitChar n ≠ '"' ∧ Hex.digitChar n ≠ '\n' ∧
      Hex.digitChar n ≠ '\\' := by decide
  rw [Hex.encode, String.toList_ofList] at hc
  rcases List.mem_flatMap.mp hc with ⟨b, _, hb⟩
  have hlt := b.toNat_lt
  simp only [Hex.byteChars, List.mem_cons, List.not_mem_nil, or_false] at hb
  rcases hb with rfl | rfl
  · exact hdigit _ (by omega)
  · exact hdigit _ (by omega)

end Texts

/-- The tokens of a type. -/
def typeTokens (type : String) : List Token :=
  if type.isEmpty then [] else [⟨.colon, ":", 1⟩, ⟨.identifier, type, 1⟩]

/-- The tokens of a declared name. -/
def TypedName.tokens (v : TypedName) : List Token :=
  ⟨.identifier, v.name, 1⟩ :: typeTokens v.type

/-- The tokens of a literal. -/
def Literal.tokens (l : Literal) : List Token :=
  (match l.kind with
    | .number => ⟨.number, l.text, 1⟩
    | .boolean => ⟨(keyword? l.text).getD .identifier, l.text, 1⟩
    | .string => ⟨.string, "\"" ++ l.text ++ "\"", 1⟩) :: typeTokens l.type

/-- Tokens with commas between them. -/
def separated : List (List Token) → List Token
  | [] => []
  | first :: rest => first ++ rest.flatMap (⟨.comma, ",", 1⟩ :: ·)

/-- The tokens of the return variables of a function. -/
def returnTokens (returns : List TypedName) : List Token :=
  if returns.isEmpty then []
  else ⟨.rightArrow, "->", 1⟩ :: separated (returns.map TypedName.tokens)

mutual

/-- The tokens of an expression. -/
def Expr.tokens : Expr → List Token
  | .literal l => l.tokens
  | .ident _ name => [⟨.identifier, name, 1⟩]
  | .instr _ op args =>
    ⟨.identifier, op.mnemonic, 1⟩ :: ⟨.leftParen, "(", 1⟩ ::
      (Expr.tokensArgs args ++ [⟨.rightParen, ")", 1⟩])
  | .call _ name args =>
    ⟨.identifier, name, 1⟩ :: ⟨.leftParen, "(", 1⟩ ::
      (Expr.tokensArgs args ++ [⟨.rightParen, ")", 1⟩])

/-- The tokens of arguments. -/
def Expr.tokensArgs : List Expr → List Token
  | [] => []
  | [e] => e.tokens
  | e :: es => e.tokens ++ ⟨.comma, ",", 1⟩ :: Expr.tokensArgs es

end

mutual

/-- The tokens of a block. -/
def Block.tokens : Block → List Token
  | ⟨_, stmts⟩ => ⟨.leftBrace, "\x7b", 1⟩ :: (Stmt.tokensSeq stmts ++ [⟨.rightBrace, "\x7d", 1⟩])

/-- The tokens of a statement. -/
def Stmt.tokens : Stmt → List Token
  | .expr _ e => e.tokens
  | .assign _ targets value =>
    separated (targets.map fun t => [⟨.identifier, t.name, 1⟩]) ++
      ⟨.colonEqual, ":=", 1⟩ :: value.tokens
  | .decl _ vars none => ⟨.letWord, "let", 1⟩ :: separated (vars.map TypedName.tokens)
  | .decl _ vars (some value) =>
    ⟨.letWord, "let", 1⟩ :: (separated (vars.map TypedName.tokens) ++
      ⟨.colonEqual, ":=", 1⟩ :: value.tokens)
  | .func _ name params returns body =>
    ⟨.functionWord, "function", 1⟩ :: ⟨.identifier, name, 1⟩ :: ⟨.leftParen, "(", 1⟩ ::
      (separated (params.map TypedName.tokens) ++ ⟨.rightParen, ")", 1⟩ ::
        (returnTokens returns ++ body.tokens))
  | .cond _ test body => ⟨.ifWord, "if", 1⟩ :: (test.tokens ++ body.tokens)
  | .switch _ subject cases =>
    ⟨.switchWord, "switch", 1⟩ :: (subject.tokens ++ Case.tokensSeq cases)
  | .loop _ pre test post body =>
    ⟨.forWord, "for", 1⟩ :: (pre.tokens ++ (test.tokens ++ (post.tokens ++ body.tokens)))
  | .brk _ => [⟨.breakWord, "break", 1⟩]
  | .cont _ => [⟨.continueWord, "continue", 1⟩]
  | .block b => b.tokens
  | .label _ name => [⟨.identifier, name, 1⟩, ⟨.colon, ":", 1⟩]
  | .stackAssign _ target => [⟨.equalColon, "=:", 1⟩, ⟨.identifier, target.name, 1⟩]

/-- The tokens of statements. -/
def Stmt.tokensSeq : List Stmt → List Token
  | [] => []
  | s :: rest => s.tokens ++ Stmt.tokensSeq rest

/-- The tokens of cases. -/
def Case.tokensSeq : List Case → List Token
  | [] => []
  | ⟨_, some value, body⟩ :: rest =>
    ⟨.caseWord, "case", 1⟩ :: (value.tokens ++ (body.tokens ++ Case.tokensSeq rest))
  | ⟨_, none, body⟩ :: rest =>
    ⟨.defaultWord, "default", 1⟩ :: (body.tokens ++ Case.tokensSeq rest)

end

mutual

/-- The tokens of an object. -/
def Object.tokens : Object → List Token
  | ⟨name, code, attachments⟩ =>
    ⟨.objectWord, "object", 1⟩ :: ⟨.string, "\"" ++ name ++ "\"", 1⟩ :: ⟨.leftBrace, "\x7b", 1⟩ ::
      ⟨.codeWord, "code", 1⟩ ::
        (code.tokens ++ (Attachment.tokensSeq attachments ++ [⟨.rightBrace, "\x7d", 1⟩]))

/-- The tokens of attachments. -/
def Attachment.tokensSeq : List Attachment → List Token
  | [] => []
  | .object o :: rest => o.tokens ++ Attachment.tokensSeq rest
  | .data name bytes :: rest =>
    ⟨.dataWord, "data", 1⟩ :: ⟨.string, "\"" ++ name ++ "\"", 1⟩ ::
      ⟨.hexString, "hex\"" ++ Hex.encode bytes ++ "\"", 1⟩ :: Attachment.tokensSeq rest

end

theorem isWord_true : IsWord "true" :=
  ⟨'t', ['r', 'u', 'e'], rfl, rfl, List.all_eq_true.mp rfl⟩

theorem isWord_false : IsWord "false" :=
  ⟨'f', ['a', 'l', 's', 'e'], rfl, rfl, List.all_eq_true.mp rfl⟩

/-- The token of a literal that can be written down. -/
theorem Literal.tokens_cases {l : Literal} (hl : l.Written) :
    (l.kind = .number ∧ IsNumber l.text ∧
      l.tokens = ⟨.number, l.text, 1⟩ :: typeTokens l.type) ∨
    (l.kind = .boolean ∧ l.text = "true" ∧
      l.tokens = ⟨.trueWord, "true", 1⟩ :: typeTokens l.type) ∨
    (l.kind = .boolean ∧ l.text = "false" ∧
      l.tokens = ⟨.falseWord, "false", 1⟩ :: typeTokens l.type) ∨
    (l.kind = .string ∧ IsQuoted l.text ∧
      l.tokens = ⟨.string, "\"" ++ l.text ++ "\"", 1⟩ :: typeTokens l.type) := by
  rcases hl with ⟨_, hbody⟩
  rw [Literal.tokens]
  rcases hkind : l.kind
  · rw [hkind] at hbody
    exact Or.inl ⟨rfl, hbody, rfl⟩
  · rw [hkind] at hbody
    rcases hbody with htext | htext
    · rw [htext]
      exact Or.inr (Or.inl ⟨rfl, rfl, rfl⟩)
    · rw [htext]
      exact Or.inr (Or.inr (Or.inl ⟨rfl, rfl, rfl⟩))
  · rw [hkind] at hbody
    exact Or.inr (Or.inr (Or.inr ⟨rfl, hbody.1, rfl⟩))

section Printing

variable {cs : List Char} {ts : List Token}

/-- A type follows what it is the type of, behind a colon. -/
theorem Lexes.typed {body : String} {t : Token} {type : String} (htype : TypeWritten type)
    (hbody : ∀ cs ts, Clear cs → Lexes cs ts → Lexes (body.toList ++ cs) (t :: ts))
    (hclear : Clear cs) (h : Lexes cs ts) :
    Lexes ((if type.isEmpty then body else body ++ ":" ++ type).toList ++ cs)
      (t :: (typeTokens type ++ ts)) := by
  rcases htype with rfl | hname
  · exact hbody cs ts hclear h
  · have hne : ¬ type.isEmpty = true := by
      intro hempty
      rcases hname.1 with ⟨c, rest, hchars, _⟩
      rw [String.isEmpty_iff.mp hempty] at hchars
      exact absurd hchars (by simp)
    rw [typeTokens, if_neg hne, if_neg hne]
    simp only [String.toList_append, List.append_assoc]
    refine hbody _ _ (clear_cons (by decide)) ?_
    have hrest := Lexes.name hname hclear h
    rcases hname.1 with ⟨c, rest, hchars, hstart, _⟩
    rw [hchars, List.cons_append] at hrest ⊢
    -- The name starts with a letter, so the colon stands alone.
    have hmark : Lexer.mark? (':' :: c :: (rest ++ cs))
        = some (.colon, ":", c :: (rest ++ cs)) := by
      rw [Lexer.mark?]
      rintro x ⟨⟩
      exact absurd hstart (by decide)
    refine hrest.token ?_ (by decide : TokenKind.colon ≠ .endOfInput) ?_
    · show Lexer.scan (.reading (':' :: c :: (rest ++ cs)) 1) = _
      rw [scan_cons (by decide)]
      simp only [Lexer.tokenAt, Lexer.reading, hmark]
      rfl
    · exact Nat.lt_succ_self _

theorem TypedName.print_lexes {v : TypedName} (hv : v.Written) (hclear : Clear cs)
    (h : Lexes cs ts) : Lexes (v.print.toList ++ cs) (v.tokens ++ ts) :=
  Lexes.typed hv.2 (fun _ _ hclear h => Lexes.name hv.1 hclear h) hclear h

/-- Printed names are separated by commas. -/
theorem Lexes.commas {α : Type} {print : α → String} {toks : α → List Token} :
    ∀ {l : List α}, (∀ a ∈ l, ∀ cs ts, Clear cs → Lexes cs ts →
        Lexes ((print a).toList ++ cs) (toks a ++ ts)) → Clear cs → Lexes cs ts →
      Lexes ((", ".intercalate (l.map print)).toList ++ cs) (separated (l.map toks) ++ ts)
  | [], _, _, h => by
      rw [String.toList_intercalate]
      exact h
  | [a], ha, hclear, h => by
      have hfirst := ha a List.mem_cons_self cs ts hclear h
      rw [String.toList_intercalate]
      simpa only [List.map_cons, List.map_nil, List.intercalate_singleton, separated,
        List.flatMap_nil, List.append_nil] using hfirst
  | a :: b :: l, ha, hclear, h => by
      have hrest := Lexes.commas (l := b :: l) (fun a h => ha a (List.mem_cons_of_mem _ h)) hclear h
      -- The comma has a space behind it.
      have hcomma : Lexes (", ".toList ++ ((", ".intercalate ((b :: l).map print)).toList ++ cs))
          (⟨.comma, ",", 1⟩ :: (separated ((b :: l).map toks) ++ ts)) :=
        hrest.space.token rfl (by decide) (Nat.lt_succ_self _)
      have hfirst := ha a List.mem_cons_self (", ".toList ++ _) _ (clear_cons (by decide)) hcomma
      rw [String.toList_intercalate] at hfirst ⊢
      simpa only [List.map_cons, List.intercalate_cons_cons, separated, List.flatMap_cons,
        List.append_assoc, List.cons_append] using hfirst

/-- A fixed text is read up to its end. -/
theorem Lexes.fixed {text shown : String} {kind : TokenKind}
    (hscan : Lexer.scan (.reading (shown.toList ++ cs) 1) = some (⟨kind, text, 1⟩, .reading cs 1))
    (hfixed : 0 < shown.toList.length ∧ kind ≠ .endOfInput) (h : Lexes cs ts) :
    Lexes (shown.toList ++ cs) (⟨kind, text, 1⟩ :: ts) := by
  refine h.token hscan hfixed.2 ?_
  rw [List.length_append]
  omega

/-- A fixed text with a blank behind it is read up to the blank. -/
theorem Lexes.spaced {text shown : String} {kind : TokenKind}
    (hscan : Lexer.scan (.reading (shown.toList ++ cs) 1)
      = some (⟨kind, text, 1⟩, .reading (' ' :: cs) 1))
    (hfixed : 1 < shown.toList.length ∧ kind ≠ .endOfInput) (h : Lexes cs ts) :
    Lexes (shown.toList ++ cs) (⟨kind, text, 1⟩ :: ts) := by
  refine h.space.token hscan hfixed.2 ?_
  rw [List.length_append, List.length_cons]
  omega

/-- A printed literal is read back. -/
theorem Literal.print_lexes {l : Literal} (hl : l.Written) (hclear : Clear cs)
    (h : Lexes cs ts) : Lexes (l.print.toList ++ cs) (l.tokens ++ ts) := by
  -- A number, one of the two truth values, or a string.
  rcases Literal.tokens_cases hl with
    ⟨hkind, htext, htokens⟩ | ⟨hkind, htext, htokens⟩ | ⟨hkind, htext, htokens⟩ |
      ⟨hkind, htext, htokens⟩
  · rw [Literal.print, hkind, htokens]
    exact Lexes.typed hl.1 (fun _ _ hclear h => Lexes.number htext hclear h) hclear h
  · rw [Literal.print, hkind, htokens, htext]
    exact Lexes.typed hl.1 (fun _ _ hclear h => Lexes.word isWord_true (by decide) hclear h)
      hclear h
  · rw [Literal.print, hkind, htokens, htext]
    exact Lexes.typed hl.1 (fun _ _ hclear h => Lexes.word isWord_false (by decide) hclear h)
      hclear h
  · rw [Literal.print, hkind, htokens]
    refine Lexes.typed hl.1 (fun cs ts _ h => ?_) hclear h
    dsimp only
    rw [String.toList_append, String.toList_append, List.append_assoc, List.append_assoc]
    exact Lexes.quoted htext h

/-- A call is no part of the recursion: what holds of its arguments is handed to it, so that every
    step goes to a part of the expression. -/
theorem Expr.printCall_lexes {args : List Expr} {name : String} {cs : List Char} {ts : List Token}
    (hname : IsName name) (hargs : ∀ {cs ts}, Clear cs → Lexes cs ts →
      Lexes ((Expr.printArgs args).toList ++ cs) (Expr.tokensArgs args ++ ts)) (h : Lexes cs ts) :
    Lexes ((name ++ "(" ++ Expr.printArgs args ++ ")").toList ++ cs)
      (⟨.identifier, name, 1⟩ :: ⟨.leftParen, "(", 1⟩ ::
        (Expr.tokensArgs args ++ [⟨.rightParen, ")", 1⟩]) ++ ts) := by
  simp only [String.toList_append, List.append_assoc, List.cons_append, List.nil_append]
  refine Lexes.name hname (clear_cons (by decide)) (Lexes.fixed rfl (by decide) ?_)
  refine hargs (clear_cons (by decide)) ?_
  exact Lexes.fixed rfl (by decide) h

mutual

/-- The lexer finds the tokens of a printed expression. -/
theorem Expr.print_lexes {d : Dialect} : ∀ {e : Expr} {depth : Nat} {cs ts}, e.Written d depth →
    Clear cs → Lexes cs ts → Lexes (e.print.toList ++ cs) (e.tokens ++ ts)
  | .literal l, _, _, _, he, hclear, h => by
      rw [Expr.Written] at he
      rw [Expr.print, Expr.tokens]
      exact Literal.print_lexes he hclear h
  | .ident _ x, _, _, _, he, hclear, h => by
      rw [Expr.Written] at he
      rw [Expr.print, Expr.tokens]
      exact Lexes.name he hclear h
  | .instr _ op args, depth, cs, ts, he, _, h => by
      rw [Expr.Written] at he
      rw [Expr.print, Expr.tokens]
      exact Expr.printCall_lexes he.1 (Expr.printArgs_lexes he.2.2.2) h
  | .call _ name args, depth, cs, ts, he, _, h => by
      rw [Expr.Written] at he
      rw [Expr.print, Expr.tokens]
      exact Expr.printCall_lexes he.1 (Expr.printArgs_lexes he.2.2.2) h

theorem Expr.printArgs_lexes {d : Dialect} : ∀ {es : List Expr} {depth : Nat} {cs ts},
    Expr.WrittenAll d depth es → Clear cs → Lexes cs ts →
    Lexes ((Expr.printArgs es).toList ++ cs) (Expr.tokensArgs es ++ ts)
  | [], _, _, _, _, _, h => h
  | [e], _, _, _, he, hclear, h => by
      rw [Expr.WrittenAll] at he
      rw [Expr.printArgs, Expr.tokensArgs]
      exact Expr.print_lexes he.1 hclear h
  | e :: e' :: es, depth, cs, ts, he, hclear, h => by
      rw [Expr.WrittenAll] at he
      rw [Expr.printArgs, Expr.tokensArgs]
      · simp only [String.toList_append, List.append_assoc, List.cons_append]
        refine Expr.print_lexes he.1 (clear_cons (by decide)) (Lexes.spaced rfl (by decide) ?_)
        exact Expr.printArgs_lexes he.2 hclear h
      · simp
      · simp

end

/-- A printed list of targets is read back. -/
theorem Identifier.printList_lexes {targets : List Identifier} (ht : ∀ t ∈ targets, IsName t.name)
    (hclear : Clear cs) (h : Lexes cs ts) :
    Lexes ((Identifier.printList targets).toList ++ cs)
      (separated (targets.map fun t => [⟨.identifier, t.name, 1⟩]) ++ ts) :=
  Lexes.commas (fun t hmem _ _ hclear h => Lexes.name (ht t hmem) hclear h) hclear h

/-- A printed list of names with types is read back. -/
theorem TypedName.printList_lexes {vars : List TypedName} (hv : ∀ v ∈ vars, v.Written)
    (hclear : Clear cs) (h : Lexes cs ts) :
    Lexes ((TypedName.printList vars).toList ++ cs)
      (separated (vars.map TypedName.tokens) ++ ts) :=
  Lexes.commas (fun v hmem _ _ hclear h => TypedName.print_lexes (hv v hmem) hclear h) hclear h

/-- Neither a case nor what follows the switch prolongs the text in front of it. -/
theorem Case.printSeq_clear {cases : List Case} (hclear : Clear cs) :
    Clear ((Case.printSeq cases).toList ++ cs) := by
  cases cases with
  | nil =>
      rw [Case.printSeq]
      exact hclear
  | cons c rest =>
      rw [Case.printSeq]
      simp only [String.toList_append, List.append_assoc]
      exact clear_space

mutual

/-- The lexer finds the tokens of a printed block. -/
theorem Block.print_lexes {d : Dialect} : ∀ {b : Block} {depth : Nat} {cs ts}, b.Written d depth →
    Lexes cs ts → Lexes (b.print.toList ++ cs) (b.tokens ++ ts)
  | ⟨_, stmts⟩, depth, cs, ts, hb, h => by
      rw [Block.Written] at hb
      rw [Block.print, Block.tokens]
      simp only [String.toList_append, List.append_assoc, List.cons_append, List.nil_append]
      refine Lexes.spaced rfl (by decide) (Stmt.printSeq_lexes hb.2 ?_)
      exact Lexes.fixed rfl (by decide) h

/-- A printed sequence is read back, each statement with a space behind it. -/
theorem Stmt.printSeq_lexes {d : Dialect} : ∀ {stmts : List Stmt} {depth : Nat} {cs ts},
    Stmt.WrittenSeq d depth stmts → Lexes cs ts →
    Lexes ((Stmt.printSeq stmts).toList ++ cs) (Stmt.tokensSeq stmts ++ ts)
  | [], _, _, _, _, h => by
      rw [Stmt.printSeq, Stmt.tokensSeq]
      exact h
  | s :: rest, depth, cs, ts, hs, h => by
      rw [Stmt.WrittenSeq] at hs
      rw [Stmt.printSeq, Stmt.tokensSeq]
      simp only [String.toList_append, List.append_assoc]
      exact Stmt.print_lexes hs.1 (Stmt.printSeq_lexes hs.2 h)

/-- The lexer finds the tokens of a printed statement. A blank comes after it. -/
theorem Stmt.print_lexes {d : Dialect} : ∀ {s : Stmt} {depth : Nat} {cs ts}, s.Written d depth →
    Lexes cs ts → Lexes (s.print.toList ++ (" ".toList ++ cs)) (s.tokens ++ ts)
  | .expr _ e, _, _, _, hs, h => by
      rw [Stmt.Written] at hs
      rw [Stmt.print, Stmt.tokens]
      exact Expr.print_lexes hs clear_space h.space
  | .assign _ targets value, _, _, _, hs, h => by
      rw [Stmt.Written] at hs
      rw [Stmt.print, Stmt.tokens]
      simp only [String.toList_append, List.append_assoc, List.cons_append]
      refine Identifier.printList_lexes hs.2.1 clear_space ?_
      exact Lexes.spaced rfl (by decide) (Expr.print_lexes hs.2.2 clear_space h.space)
  | .decl _ vars none, _, _, _, hs, h => by
      rw [Stmt.Written] at hs
      rw [Stmt.print, Stmt.tokens]
      simp only [String.toList_append, List.append_assoc, List.cons_append]
      refine Lexes.spaced rfl (by decide) ?_
      exact TypedName.printList_lexes hs.2.1 clear_space h.space
  | .decl _ vars (some value), _, _, _, hs, h => by
      rw [Stmt.Written] at hs
      rw [Stmt.print, Stmt.tokens]
      simp only [String.toList_append, List.append_assoc, List.cons_append]
      refine Lexes.spaced rfl (by decide) ?_
      refine TypedName.printList_lexes hs.2.1 clear_space ?_
      exact Lexes.spaced rfl (by decide) (Expr.print_lexes (hs.2.2 value rfl) clear_space h.space)
  | .func _ name params returns body, _, _, _, hs, h => by
      rw [Stmt.Written] at hs
      -- The body is read back whatever stands in front of it.
      have hbody := Lexes.space (Block.print_lexes hs.2.2.2 h.space)
      rw [Stmt.print, Stmt.tokens]
      simp only [String.toList_append, List.append_assoc, List.cons_append]
      refine Lexes.spaced rfl (by decide) (Lexes.name hs.1 (clear_cons (by decide)) ?_)
      refine Lexes.fixed rfl (by decide) ?_
      refine TypedName.printList_lexes hs.2.1 (clear_cons (by decide)) ?_
      refine Lexes.fixed rfl (by decide) ?_
      rw [returnTokens]
      -- Return variables are printed only if there are any.
      by_cases hreturns : returns.isEmpty = true
      · rw [if_pos hreturns, if_pos hreturns]
        exact hbody
      · rw [if_neg hreturns, if_neg hreturns]
        simp only [String.toList_append, List.append_assoc, List.cons_append]
        refine Lexes.spaced rfl (by decide) ?_
        exact TypedName.printList_lexes hs.2.2.1 clear_space hbody
  | .cond _ test body, _, _, _, hs, h => by
      rw [Stmt.Written] at hs
      rw [Stmt.print, Stmt.tokens]
      simp only [String.toList_append, List.append_assoc, List.cons_append]
      refine Lexes.spaced rfl (by decide) (Expr.print_lexes hs.1 clear_space ?_)
      exact Lexes.space (Block.print_lexes hs.2 h.space)
  | .switch _ subject cases, _, _, _, hs, h => by
      rw [Stmt.Written] at hs
      rw [Stmt.print, Stmt.tokens]
      simp only [String.toList_append, List.append_assoc, List.cons_append]
      refine Lexes.spaced rfl (by decide) (Expr.print_lexes hs.1 ?_ ?_)
      · exact Case.printSeq_clear clear_space
      · exact Case.printSeq_lexes hs.2.2 h.space
  -- Init, condition, post and body are printed with spaces between them.
  | .loop _ pre test post body, _, _, _, hs, h => by
      rw [Stmt.Written] at hs
      rw [Stmt.print, Stmt.tokens]
      simp only [String.toList_append, List.append_assoc, List.cons_append]
      refine Lexes.spaced rfl (by decide) (Block.print_lexes hs.1 (Lexes.space ?_))
      refine Expr.print_lexes hs.2.1 clear_space (Lexes.space ?_)
      refine Block.print_lexes hs.2.2.1 (Lexes.space ?_)
      exact Block.print_lexes hs.2.2.2 h.space
  | .brk _, _, _, _, _, h => by
      rw [Stmt.print, Stmt.tokens]
      exact Lexes.fixed rfl (by decide) h.space
  | .cont _, _, _, _, _, h => by
      rw [Stmt.print, Stmt.tokens]
      exact Lexes.fixed rfl (by decide) h.space
  | .block b, _, _, _, hs, h => by
      rw [Stmt.Written] at hs
      rw [Stmt.print, Stmt.tokens]
      exact Block.print_lexes hs h.space
  | .label _ name, _, _, _, hs, h => by
      rw [Stmt.Written] at hs
      rw [Stmt.print, Stmt.tokens]
      simp only [String.toList_append, List.append_assoc, List.cons_append]
      refine Lexes.name hs.2 (clear_cons (by decide)) ?_
      exact Lexes.fixed rfl (by decide) h.space
  | .stackAssign _ target, _, _, _, hs, h => by
      rw [Stmt.Written] at hs
      rw [Stmt.print, Stmt.tokens]
      simp only [String.toList_append, List.append_assoc, List.cons_append]
      exact Lexes.spaced rfl (by decide) (Lexes.name hs.2 clear_space h.space)

theorem Case.printSeq_lexes {d : Dialect} : ∀ {cases : List Case} {depth : Nat} {cs ts},
    Case.WrittenSeq d depth cases → Lexes cs ts →
    Lexes ((Case.printSeq cases).toList ++ cs) (Case.tokensSeq cases ++ ts)
  | [], _, _, _, _, h => by
      rw [Case.printSeq, Case.tokensSeq]
      exact h
  | ⟨_, some value, body⟩ :: rest, _, _, _, hs, h => by
      rw [Case.WrittenSeq] at hs
      rw [Case.printSeq, Case.tokensSeq, Case.print]
      simp only [String.toList_append, List.append_assoc, List.cons_append]
      refine Lexes.space (Lexes.spaced rfl (by decide) ?_)
      refine Literal.print_lexes hs.1 clear_space (Lexes.space ?_)
      exact Block.print_lexes hs.2.1 (Case.printSeq_lexes hs.2.2 h)
  | ⟨_, none, body⟩ :: rest, depth, _, _, hs, h => by
      rw [Case.WrittenSeq] at hs
      have hrest : Case.WrittenSeq d depth rest := by
        rw [hs.2, Case.WrittenSeq]
        trivial
      rw [Case.printSeq, Case.tokensSeq, Case.print]
      simp only [String.toList_append, List.append_assoc, List.cons_append]
      refine Lexes.space (Lexes.spaced rfl (by decide) ?_)
      exact Block.print_lexes hs.1 (Case.printSeq_lexes hrest h)

end

mutual

/-- The lexer finds the tokens of a printed object. -/
theorem Object.print_lexes {d : Dialect} : ∀ {o : Object} {cs ts}, o.Written d →
    Lexes cs ts → Lexes (o.print.toList ++ cs) (o.tokens ++ ts)
  | ⟨name, code, attachments⟩, cs, ts, ho, h => by
      rw [Object.Written] at ho
      -- Two of the texts that are printed in one piece hold several tokens.
      have hobject : "object \"" = "object " ++ "\"" := rfl
      have hcode : "\" \x7b code " = "\"" ++ " \x7b " ++ "code " := rfl
      rw [Object.print, Object.tokens, hobject, hcode]
      simp only [String.toList_append, List.append_assoc, List.cons_append, List.nil_append]
      refine Lexes.spaced rfl (by decide) (Lexes.quoted ho.1 ?_)
      refine Lexes.spaced rfl (by decide) (Lexes.spaced rfl (by decide) ?_)
      refine Block.print_lexes ho.2.1 (Attachment.printSeq_lexes ho.2.2 ?_)
      exact Lexes.fixed rfl (by decide) h

/-- What is attached to an object is read back. -/
theorem Attachment.printSeq_lexes {d : Dialect} : ∀ {as : List Attachment} {cs ts},
    Attachment.WrittenSeq d as → Lexes cs ts →
    Lexes ((Attachment.printSeq as).toList ++ cs) (Attachment.tokensSeq as ++ ts)
  | [], _, _, _, h => by
      rw [Attachment.printSeq, Attachment.tokensSeq]
      exact h
  | .object o :: rest, _, _, ha, h => by
      rw [Attachment.WrittenSeq] at ha
      rw [Attachment.printSeq, Attachment.tokensSeq, Attachment.print]
      simp only [String.toList_append, List.append_assoc]
      exact Lexes.space (Object.print_lexes ha.1 (Attachment.printSeq_lexes ha.2 h))
  | .data name bytes :: rest, _, _, ha, h => by
      rw [Attachment.WrittenSeq] at ha
      -- The printed pieces are cut at the borders of tokens.
      have hdata : "data \"" = "data " ++ "\"" := rfl
      have hhex : "\" hex\"" = "\"" ++ " " ++ "hex\"" := rfl
      rw [Attachment.printSeq, Attachment.tokensSeq, Attachment.print, hdata, hhex]
      simp only [String.toList_append, List.append_assoc, List.cons_append]
      refine Lexes.space (Lexes.spaced rfl (by decide) (Lexes.quoted ha.1 (Lexes.space ?_)))
      exact Lexes.hexQuoted (isQuoted_encode bytes) (Attachment.printSeq_lexes ha.2 h)

end

end Printing

/-- A source has at least a byte for each character. -/
theorem length_le_utf8ByteSize (source : String) : source.toList.length ≤ source.utf8ByteSize := by
  have hlen : ∀ cs : List Char, cs.length ≤ String.utf8Len cs := by
    intro cs
    induction cs with
    | nil => exact Nat.le_refl 0
    | cons c cs ih =>
        have := c.utf8Size_pos
        rw [List.length_cons, String.utf8Len_cons]
        omega
  have h := hlen source.toList
  rwa [← String.utf8ByteSize_ofList, String.ofList_toList] at h

/-- The tokens of a source are those that the lexer finds in its characters. -/
theorem tokens_printed {source : String} {ts : List Token} (h : Lexes source.toList ts) :
    tokens source = ts :=
  h _ (Nat.lt_succ_of_le (length_le_utf8ByteSize source))

end YulToolchain
