import YulToolchain.Proofs.Syntax.Printed

/-!
# What Comes Next

Readers look one token ahead. Which kinds of tokens do not continue a type, an
expression, a list of names or a statement is said here once, and so is with which
tokens the trees start. Every token that starts a statement or ends a block is safe
behind anything.

## Main definitions

* `Ahead`: There is a next token, and its kind has a property.
* `TokenKind.endsExpr`, `TokenKind.endsNames`, `TokenKind.endsStmt`: Kinds that do not
  continue what was read.
* `TokenKind.startsExpr`, `TokenKind.startsStmt`: Kinds that trees start with.

## Theorems

* `Expr.ahead_tokens`, `Stmt.ahead_tokens`, `Block.ahead_tokens`: The first tokens of
  trees.
* `length_le_separated`: A list of names has at least as many tokens as names, but for
  the first of them.
-/

namespace YulToolchain

section Lookahead

/-- A token of this kind can be read. -/
def TokenKind.readable : TokenKind → Bool
  | .fault _ => false
  | _ => true

/-- A token of this kind does not continue a name or a literal by a type. -/
def TokenKind.endsType : TokenKind → Bool
  | .colon | .fault _ => false
  | _ => true

/-- A token of this kind does not continue an expression. -/
def TokenKind.endsExpr : TokenKind → Bool
  | .leftParen | .colon | .fault _ => false
  | _ => true

/-- A token of this kind does not continue a list of declared names. -/
def TokenKind.endsNames : TokenKind → Bool
  | .comma | .colon | .fault _ => false
  | _ => true

/-- A token of this kind does not continue a statement. -/
def TokenKind.endsStmt : TokenKind → Bool
  | .leftParen | .colon | .comma | .colonEqual | .caseWord | .defaultWord | .fault _ => false
  | _ => true

/-- A token of this kind can start an expression. -/
def TokenKind.startsExpr : TokenKind → Bool
  | .identifier | .number | .trueWord | .falseWord | .string => true
  | _ => false

/-- A token of this kind can start a statement. -/
def TokenKind.startsStmt : TokenKind → Bool
  | .leftBrace | .functionWord | .letWord | .ifWord | .switchWord | .forWord => true
  | .breakWord | .continueWord | .equalColon => true
  | .identifier | .number | .trueWord | .falseWord | .string => true
  | _ => false

/-- There is a next token, and its kind has a property. -/
def Ahead (p : TokenKind → Bool) (ts : List Token) : Prop :=
  ∃ t more, ts = t :: more ∧ p t.kind = true

variable {p q : TokenKind → Bool} {ts : List Token}

theorem Ahead.cons {t : Token} (h : p t.kind = true) : Ahead p (t :: ts) := ⟨t, ts, rfl, h⟩

theorem Ahead.mono (h : Ahead p ts) (hpq : ∀ k, p k = true → q k = true) : Ahead q ts := by
  rcases h with ⟨t, more, rfl, ht⟩
  exact .cons (hpq _ ht)

theorem Ahead.length_pos (h : Ahead p ts) : 0 < ts.length := by
  rcases h with ⟨t, more, rfl, _⟩
  exact Nat.succ_pos _

theorem Ahead.append (h : Ahead p ts) {r : List Token} : Ahead p (ts ++ r) := by
  rcases h with ⟨t, more, rfl, ht⟩
  exact .cons ht

theorem endsType_of_endsExpr (k : TokenKind) (h : k.endsExpr = true) : k.endsType = true := by
  cases k <;> first | rfl | exact h

theorem endsType_of_endsNames (k : TokenKind) (h : k.endsNames = true) : k.endsType = true := by
  cases k <;> first | rfl | exact h

theorem endsExpr_of_endsStmt (k : TokenKind) (h : k.endsStmt = true) : k.endsExpr = true := by
  cases k <;> first | rfl | exact h

theorem endsNames_of_endsStmt (k : TokenKind) (h : k.endsStmt = true) : k.endsNames = true := by
  cases k <;> first | rfl | exact h

theorem startsStmt_of_startsExpr (k : TokenKind) (h : k.startsExpr = true) :
    k.startsStmt = true := by
  cases k <;> first | rfl | exact h

theorem endsStmt_of_startsStmt (k : TokenKind) (h : k.startsStmt = true) : k.endsStmt = true := by
  cases k <;> first | rfl | exact h

theorem readable_of_endsType (k : TokenKind) (h : k.endsType = true) : k.readable = true := by
  cases k <;> first | rfl | exact h

theorem readable_of_endsExpr (k : TokenKind) (h : k.endsExpr = true) : k.readable = true :=
  readable_of_endsType k (endsType_of_endsExpr k h)

theorem readable_of_endsStmt (k : TokenKind) (h : k.endsStmt = true) : k.readable = true :=
  readable_of_endsExpr k (endsExpr_of_endsStmt k h)

theorem readable_of_startsExpr (k : TokenKind) (h : k.startsExpr = true) : k.readable = true :=
  readable_of_endsStmt k (endsStmt_of_startsStmt k (startsStmt_of_startsExpr k h))

theorem readable_of_endsNames (k : TokenKind) (h : k.endsNames = true) : k.readable = true :=
  readable_of_endsType k (endsType_of_endsNames k h)

end Lookahead

section Starts

variable {p : TokenKind → Bool} {rest : List Token} {d : Dialect}

/-- After a name comes a comma or what follows all the names. -/
theorem ahead_commas {l : List (List Token)} (h : Ahead p rest) (hcomma : p .comma = true) :
    Ahead p (l.flatMap (⟨.comma, ",", 1⟩ :: ·) ++ rest) := by
  cases l with
  | nil => exact h
  | cons first l => exact .cons hcomma

/-- A list of names begins with a name. -/
theorem ahead_separated {vs : List TypedName} (hne : vs ≠ []) :
    Ahead TokenKind.startsExpr (separated (vs.map TypedName.tokens)) := by
  cases vs with
  | nil => exact absurd rfl hne
  | cons v vs => exact .cons rfl

/-- A name is followed by its type or by what is behind it. -/
theorem typeTokens_ahead {type : String} (h : Ahead p rest)
    (hcolon : p .colon = true) : Ahead p (typeTokens type ++ rest) := by
  unfold typeTokens
  split
  · exact h
  · exact .cons hcolon

/-- A literal begins an expression. -/
theorem Literal.ahead_tokens {l : Literal} (hl : l.Written) :
    Ahead TokenKind.startsExpr l.tokens := by
  rcases Literal.tokens_cases hl with
    ⟨_, _, htokens⟩ | ⟨_, _, htokens⟩ | ⟨_, _, htokens⟩ | ⟨_, _, htokens⟩ <;>
  · rw [htokens]
    exact .cons rfl

/-- An expression begins with a token that starts expressions. -/
theorem Expr.ahead_tokens {e : Expr} {depth : Nat} (he : e.Written d depth) :
    Ahead TokenKind.startsExpr e.tokens := by
  cases e with
  | literal l =>
      rw [Expr.Written] at he
      rw [Expr.tokens]
      exact Literal.ahead_tokens he
  | ident line name =>
      rw [Expr.tokens]
      exact .cons rfl
  | instr line op args =>
      rw [Expr.tokens]
      exact .cons rfl
  | call line name args =>
      rw [Expr.tokens]
      exact .cons rfl

/-- Arguments have commas between them. -/
theorem tokensArgs_cons (e e' : Expr) (es : List Expr) :
    Expr.tokensArgs (e :: e' :: es)
      = e.tokens ++ ⟨.comma, ",", 1⟩ :: Expr.tokensArgs (e' :: es) := by
  rw [Expr.tokensArgs]
  simp

/-- Arguments begin as their first expression does. -/
theorem Expr.ahead_tokensArgs {e : Expr} {depth : Nat} (he : e.Written d depth)
    (es : List Expr) : Ahead TokenKind.startsExpr (Expr.tokensArgs (e :: es)) := by
  cases es with
  | nil =>
      rw [Expr.tokensArgs]
      exact Expr.ahead_tokens he
  | cons e' es =>
      rw [tokensArgs_cons]
      exact (Expr.ahead_tokens he).append

/-- A block begins with its brace. -/
theorem Block.ahead_tokens {b : Block} (h : p .leftBrace = true) :
    Ahead p b.tokens := by
  cases b
  rw [Block.tokens]
  exact .cons h

/-- A statement begins with a token that starts statements. -/
theorem Stmt.ahead_tokens {s : Stmt} {depth : Nat} (hs : s.Written d depth) :
    Ahead TokenKind.startsStmt s.tokens := by
  cases s with
  | expr line e =>
      rw [Stmt.Written] at hs
      rw [Stmt.tokens]
      exact (Expr.ahead_tokens hs).mono startsStmt_of_startsExpr
  | assign line targets value =>
      rw [Stmt.Written] at hs
      rw [Stmt.tokens]
      -- An assignment has a target to begin with.
      cases targets with
      | nil => exact absurd rfl hs.1
      | cons first more => exact .cons rfl
  | decl line vars value =>
      cases value with
      | none =>
          rw [Stmt.tokens]
          exact .cons rfl
      | some value =>
          rw [Stmt.tokens]
          exact .cons rfl
  | block b =>
      rw [Stmt.tokens]
      exact Block.ahead_tokens rfl
  -- The other statements begin with a word of their own.
  | _ =>
      rw [Stmt.tokens]
      exact .cons rfl

/-- Behind a statement comes another one or the brace. -/
theorem statements_ahead {stmts : List Stmt} {depth : Nat} (hs : Stmt.WrittenSeq d depth stmts) :
    Ahead TokenKind.endsStmt (Stmt.tokensSeq stmts ++ [⟨.rightBrace, "\x7d", 1⟩] ++ rest) := by
  cases stmts with
  | nil =>
      rw [Stmt.tokensSeq]
      exact .cons rfl
  | cons s stmts =>
      rw [Stmt.WrittenSeq] at hs
      rw [Stmt.tokensSeq]
      exact ((Stmt.ahead_tokens hs.1).mono endsStmt_of_startsStmt).append.append.append

/-- After a case comes another one or what follows the switch. -/
theorem cases_ahead (cs : List Case) (h : Ahead p rest)
    (hcase : (p .caseWord && p .defaultWord) = true) : Ahead p (Case.tokensSeq cs ++ rest) := by
  rw [Bool.and_eq_true] at hcase
  rcases cs with _ | ⟨⟨line, value, body⟩, cs⟩
  · rw [Case.tokensSeq]
    exact h
  · cases value with
    | none =>
        rw [Case.tokensSeq]
        exact .cons hcase.2
    | some value =>
        rw [Case.tokensSeq]
        exact .cons hcase.1

/-- After the code or an attachment comes another attachment or the closing brace. -/
theorem attachments_ahead (as : List Attachment) (rest : List Token) :
    Ahead TokenKind.readable
      (Attachment.tokensSeq as ++ [⟨.rightBrace, "\x7d", 1⟩] ++ rest) := by
  rcases as with _ | ⟨⟨name, code, inner⟩ | ⟨name, bytes⟩, as⟩
  · rw [Attachment.tokensSeq]
    exact .cons rfl
  · rw [Attachment.tokensSeq, Object.tokens]
    exact .cons rfl
  · rw [Attachment.tokensSeq]
    exact .cons rfl

end Starts

section Lengths

/-- Each name of a list has its comma. -/
theorem length_le_commas (l : List (List Token)) :
    l.length ≤ (l.flatMap (⟨.comma, ",", 1⟩ :: ·)).length := by
  induction l with
  | nil => exact Nat.le_refl 0
  | cons first l ih =>
      rw [List.flatMap_cons, List.length_append, List.length_cons, List.length_cons]
      omega

/-- Of several names, each but the first has a comma of its own. -/
theorem length_le_separated (vs : List TypedName) :
    vs.length ≤ (separated (vs.map TypedName.tokens)).length + 1 := by
  cases vs with
  | nil => exact Nat.zero_le _
  | cons v vs =>
      have h := length_le_commas (vs.map TypedName.tokens)
      rw [List.length_map] at h
      rw [List.map_cons, separated, List.length_append, List.length_cons]
      omega

/-- Return variables have their tokens, behind an arrow. -/
theorem length_returnTokens (returns : List TypedName) :
    returns.length ≤ (returnTokens returns).length := by
  have h := length_le_separated returns
  cases returns with
  | nil => exact Nat.zero_le _
  | cons v vs => exact h

theorem length_attachments (as : List Attachment) :
    (Attachment.tokensSeq as ++ [⟨.rightBrace, "\x7d", 1⟩] : List Token).length
      = (Attachment.tokensSeq as).length + 1 := List.length_append

end Lengths

end YulToolchain
