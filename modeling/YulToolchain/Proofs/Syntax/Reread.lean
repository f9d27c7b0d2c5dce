import YulToolchain.Proofs.Syntax.Evaluation
import YulToolchain.Proofs.Syntax.Lookahead

/-!
# Printed Code Is Read Back

Reading undoes printing, on everything that reading can give.

The printed text of a tree has a known list of tokens, so it is enough to see what the
readers do on these. A reader takes the tokens of a tree off the front of the input and
returns the tree, all of it on the first line (`Parse.Takes`). What follows a tree must
not look like a part of it; which tokens are safe there is known.

The recursion of the readers is bounded. Each of them needs no more than twice as many
steps as it takes tokens, so the bound is never met.

## Main definitions

* `Expr.onLine`, `Stmt.onLine`, `Block.onLine`, `Object.onLine`: A tree with all its
  lines changed.
* `Parse.Takes`: A reader takes tokens off the input and returns a value.

## Theorems

* `decode?_encode`: Bytes are read back from their digits.
* `Parse.expression_takes`, `Parse.statement_takes`, `Parse.block_takes`,
  `Parse.object_takes`: What the readers make of the tokens of a tree.
* `parseBlock_print`: What can be written down is read back.
* `parse_print`: Reading undoes printing.
-/

namespace YulToolchain

/-- A literal moved to a line. -/
def Literal.onLine (n : Nat) (l : Literal) : Literal := { l with line := n }

/-- A use of a name moved to a line. -/
def Identifier.onLine (n : Nat) (id : Identifier) : Identifier := { id with line := n }

/-- A declared name moved to a line. -/
def TypedName.onLine (n : Nat) (v : TypedName) : TypedName := { v with line := n }

mutual

/-- An expression moved to a line. -/
def Expr.onLine (n : Nat) : Expr → Expr
  | .literal l => .literal (l.onLine n)
  | .ident _ name => .ident n name
  | .instr _ op args => .instr n op (Expr.onLineAll n args)
  | .call _ name args => .call n name (Expr.onLineAll n args)

/-- Expressions moved to a line. -/
def Expr.onLineAll (n : Nat) : List Expr → List Expr
  | [] => []
  | e :: es => e.onLine n :: Expr.onLineAll n es

end

mutual

/-- A block moved to a line. -/
def Block.onLine (n : Nat) : Block → Block
  | ⟨_, stmts⟩ => ⟨n, Stmt.onLineSeq n stmts⟩

/-- A statement moved to a line. -/
def Stmt.onLine (n : Nat) : Stmt → Stmt
  | .expr _ e => .expr n (e.onLine n)
  | .assign _ targets value => .assign n (targets.map (Identifier.onLine n)) (value.onLine n)
  | .decl _ vars value => .decl n (vars.map (TypedName.onLine n)) (value.map (Expr.onLine n))
  | .func _ name params returns body =>
    .func n name (params.map (TypedName.onLine n)) (returns.map (TypedName.onLine n))
      (body.onLine n)
  | .cond _ test body => .cond n (test.onLine n) (body.onLine n)
  | .switch _ subject cases => .switch n (subject.onLine n) (Case.onLineSeq n cases)
  | .loop _ pre test post body =>
    .loop n (pre.onLine n) (test.onLine n) (post.onLine n) (body.onLine n)
  | .brk _ => .brk n
  | .cont _ => .cont n
  | .block b => .block (b.onLine n)
  | .label _ name => .label n name
  | .stackAssign _ target => .stackAssign n (target.onLine n)

/-- Statements moved to a line. -/
def Stmt.onLineSeq (n : Nat) : List Stmt → List Stmt
  | [] => []
  | s :: rest => s.onLine n :: Stmt.onLineSeq n rest

/-- Cases moved to a line. -/
def Case.onLineSeq (n : Nat) : List Case → List Case
  | [] => []
  | ⟨_, value, body⟩ :: rest =>
    ⟨n, value.map (Literal.onLine n), body.onLine n⟩ :: Case.onLineSeq n rest

end

/-- A switch with cases has cases on any line. -/
theorem Case.onLineSeq_ne_nil {n : Nat} {cases : List Case} (h : cases ≠ []) :
    Case.onLineSeq n cases ≠ [] := by
  rcases cases with _ | ⟨⟨line, value, body⟩, rest⟩
  · exact absurd rfl h
  · rw [Case.onLineSeq]
    exact List.cons_ne_nil _ _

mutual

/-- An object with its code moved to a line. -/
def Object.onLine (n : Nat) : Object → Object
  | ⟨name, code, attachments⟩ => ⟨name, code.onLine n, Attachment.onLineSeq n attachments⟩

/-- Attachments with their code moved to a line. -/
def Attachment.onLineSeq (n : Nat) : List Attachment → List Attachment
  | [] => []
  | .object o :: rest => .object (o.onLine n) :: Attachment.onLineSeq n rest
  | .data name bytes :: rest => .data name bytes :: Attachment.onLineSeq n rest

end

section Bytes

theorem digit?_digitChar : ∀ n < 16, Hex.digit? (Hex.digitChar n) = some n := by decide

theorem digitChar_ne_plus : ∀ n < 16, Hex.digitChar n ≠ '+' := by decide

/-- Bytes are read back from their digits. -/
theorem decode?_encode (bytes : List UInt8) :
    Hex.decode? (Hex.encode bytes).toList = some bytes := by
  rw [Hex.encode, String.toList_ofList]
  induction bytes with
  | nil => rfl
  | cons b bytes ih =>
      have hlt := b.toNat_lt
      have hhigh : b.toNat / 16 < 16 := by omega
      have hlow : b.toNat % 16 < 16 := by omega
      -- The two digits of a byte are its quotient and remainder by 16.
      have hbyte : Hex.readByte [Hex.digitChar (b.toNat / 16), Hex.digitChar (b.toNat % 16)]
          = .ok b := by
        rw [Hex.readByte, if_neg (digitChar_ne_plus _ hhigh), digit?_digitChar _ hhigh,
          digit?_digitChar _ hlow]
        dsimp only
        rw [Nat.div_add_mod', UInt8.ofNat_toNat]
      show Hex.decode? (Hex.digitChar (b.toNat / 16) :: Hex.digitChar (b.toNat % 16) ::
        bytes.flatMap Hex.byteChars) = _
      rw [Hex.decode?, hbyte, ih]
      rfl

/-- The contents of hexadecimal data are its digits. -/
theorem contents_hex {t : Token} {s : String} (h : t.text = "hex\"" ++ s ++ "\"") :
    t.contents = s := by
  have hchars : t.text.toList = 'h' :: 'e' :: 'x' :: '"' :: (s.toList ++ ['"']) := by
    rw [h]
    simp only [String.toList_append]
    rfl
  apply String.toList_injective
  rw [Token.contents, String.toList_ofList, hchars]
  show (s.toList ++ ['"']).dropLast = _
  rw [List.dropLast_concat]

end Bytes

namespace Parse

/-- A reader takes some tokens off the front of the input and returns a value. -/
def Takes {α : Type} (m : Parse α) (ts rest : List Token) (a : α) : Prop :=
  ∀ prev, ∃ prev', m.run ⟨prev, ts ++ rest⟩ = .ok (a, ⟨prev', rest⟩)

section Rules

variable {α β : Type} {m n : Parse α} {f : α → Parse β} {ts ts' rest : List Token} {t : Token}
  {a : α} {b : β}

theorem Takes.pure : Takes (pure a) [] rest a := fun prev => ⟨prev, rfl⟩

/-- One step takes its tokens and leaves the others to the next. -/
theorem Takes.bind (hm : Takes m ts (ts' ++ rest) a) (hf : Takes (f a) ts' rest b) :
    Takes (m >>= f) (ts ++ ts') rest b := by
  intro prev
  rcases hm prev with ⟨prev₁, h₁⟩
  rcases hf prev₁ with ⟨prev₂, h₂⟩
  refine ⟨prev₂, ?_⟩
  rw [StateT.run_bind, List.append_assoc, h₁]
  exact h₂

-- The forms in which the first reader takes one token, none, or all that is left.

theorem Takes.step (hm : Takes m [t] (ts ++ rest) a) (hf : Takes (f a) ts rest b) :
    Takes (m >>= f) (t :: ts) rest b := hm.bind hf

theorem Takes.look (hm : Takes m [] (ts ++ rest) a) (hf : Takes (f a) ts rest b) :
    Takes (m >>= f) ts rest b := hm.bind hf

theorem Takes.last (hm : Takes m ts rest a) (hf : Takes (f a) [] rest b) :
    Takes (m >>= f) ts rest b := by
  have h : Takes (m >>= f) (ts ++ []) rest b := Takes.bind hm hf
  rwa [List.append_nil] at h

theorem Takes.yes (h : Takes m ts rest a) : Takes (if true = true then m else n) ts rest a := h

theorem Takes.no (h : Takes n ts rest a) : Takes (if false = true then m else n) ts rest a := h

end Rules

section Tokens

variable {p : TokenKind → Bool} {rest : List Token} {kind : TokenKind} {text : String}
  {why : Complaint} {t : Token}

theorem current_takes : Takes current [] (t :: rest) t := fun prev => ⟨prev, rfl⟩

/-- The next token is taken, if what is behind it can be read. -/
theorem advance_takes (h : Ahead TokenKind.readable rest) : Takes advance [t] rest t := by
  rcases h with ⟨t', more, rfl, ht'⟩
  have hchecked : Cursor.checked ⟨t, t' :: more⟩ = .ok ⟨t, t' :: more⟩ := by
    unfold Cursor.checked
    split
    · rename_i why hkind
      have hkind : t'.kind = .fault why := hkind
      rw [hkind] at ht'
      exact absurd ht' (by rintro ⟨⟩)
    · rfl
  intro prev
  refine ⟨t, ?_⟩
  have hadvance : Cursor.advance ⟨prev, [t] ++ t' :: more⟩ = .ok ⟨t, t' :: more⟩ := hchecked
  unfold advance
  simp only [StateT.run_bind, StateT.run_get, pure_bind, hadvance]
  rfl

/-- The next token is of the kind asked for. -/
theorem check_yes : Takes (check kind) [] (⟨kind, text, 1⟩ :: rest) true := by
  intro prev
  refine ⟨prev, ?_⟩
  have hbeq : (kind == kind) = true := beq_self_eq_true kind
  show Except.ok (kind == kind, _) = _
  rw [hbeq]
  rfl

/-- The next token is of another kind. -/
theorem check_no (h : Ahead p rest) (hkind : p kind = false) :
    Takes (check kind) [] rest false := by
  rcases h with ⟨t, more, rfl, ht⟩
  intro prev
  refine ⟨prev, ?_⟩
  have hbeq : (t.kind == kind) = false := by
    rw [beq_eq_false_iff_ne]
    rintro rfl
    rw [ht] at hkind
    exact absurd hkind (by decide)
  show Except.ok (t.kind == kind, _) = _
  rw [hbeq]
  rfl

theorem accept_yes (h : Ahead TokenKind.readable rest) :
    Takes (accept kind) [⟨kind, text, 1⟩] rest true :=
  Takes.look check_yes (.yes ((advance_takes h).last .pure))

theorem accept_no (h : Ahead p rest) (hkind : p kind = false) :
    Takes (accept kind) [] rest false :=
  Takes.look (check_no h hkind) (.no .pure)

/-- A token that has to be there is taken. -/
theorem consume_takes (h : Ahead TokenKind.readable rest) :
    Takes (consume kind why) [⟨kind, text, 1⟩] rest ⟨kind, text, 1⟩ := by
  refine Takes.look current_takes ?_
  rw [if_pos (beq_self_eq_true kind)]
  exact advance_takes h

/-- Nesting goes one deeper within the limit. -/
theorem nest_takes {depth : Nat} (h : depth + 1 ≤ maxNesting) :
    Takes (nest depth) [] rest (depth + 1) := by
  unfold nest
  rw [if_neg (by omega)]
  exact .pure

theorem identifier_takes (h : Ahead TokenKind.readable rest) :
    Takes identifier [⟨.identifier, text, 1⟩] rest ⟨1, text⟩ :=
  Takes.last (consume_takes h) .pure

/-- A type is taken if there is one. -/
theorem optionalType_takes {type : String} (h : Ahead TokenKind.endsType rest) :
    Takes optionalType (typeTokens type) rest type := by
  have hreadable := h.mono readable_of_endsType
  by_cases hempty : type.isEmpty = true
  · rw [typeTokens, if_pos hempty, String.isEmpty_iff.mp hempty]
    exact Takes.look (accept_no h rfl) (.no .pure)
  · rw [typeTokens, if_neg hempty]
    refine Takes.step (accept_yes (.cons rfl)) (.yes ?_)
    exact (identifier_takes hreadable).last .pure

/-- A name and its type are taken. -/
theorem typedName_takes {v : TypedName} (h : Ahead TokenKind.endsType rest) :
    Takes typedName v.tokens rest (v.onLine 1) := by
  have htype : Ahead TokenKind.readable (typeTokens v.type ++ rest) := by
    unfold typeTokens
    split
    · exact h.mono readable_of_endsType
    · exact .cons rfl
  exact Takes.step (identifier_takes htype) ((optionalType_takes h).last .pure)

/-- The further names of a list are taken, up to something that is no comma. -/
theorem moreTypedNames_takes : ∀ {vs : List TypedName} {fuel : Nat} {rest : List Token},
    vs.length ≤ fuel → Ahead TokenKind.endsNames rest →
    Takes (moreTypedNames fuel) ((vs.map TypedName.tokens).flatMap (⟨.comma, ",", 1⟩ :: ·)) rest
      (vs.map (TypedName.onLine 1))
  | [], 0, _, _, _ => .pure
  | [], fuel + 1, _, _, h => Takes.look (accept_no h rfl) (.no .pure)
  | v :: vs, 0, _, hfuel, _ => absurd hfuel (Nat.not_succ_le_zero _)
  | v :: vs, fuel + 1, rest, hfuel, h => by
      have hnext := ahead_commas (l := vs.map TypedName.tokens) (h.mono endsType_of_endsNames) rfl
      have hrest := moreTypedNames_takes (Nat.le_of_succ_le_succ hfuel) h
      rw [List.map_cons, List.flatMap_cons, List.cons_append]
      refine Takes.step (accept_yes (.cons rfl)) (.yes ?_)
      exact (typedName_takes hnext).bind (hrest.last .pure)

/-- A list of names is taken. -/
theorem typedNames_takes {vs : List TypedName} {fuel : Nat} (hne : vs ≠ [])
    (hfuel : vs.length ≤ fuel) (h : Ahead TokenKind.endsNames rest) :
    Takes (typedNames fuel) (separated (vs.map TypedName.tokens)) rest
      (vs.map (TypedName.onLine 1)) := by
  cases vs with
  | nil => exact absurd rfl hne
  | cons v vs =>
      have hnext := ahead_commas (l := vs.map TypedName.tokens) (h.mono endsType_of_endsNames) rfl
      have hmore := moreTypedNames_takes (Nat.le_of_succ_le hfuel) h
      exact (typedName_takes hnext).bind (hmore.last .pure)

/-- The further targets of an assignment are taken. -/
theorem moreIdentifiers_takes : ∀ {ids : List Identifier} {fuel : Nat} {rest : List Token},
    ids.length ≤ fuel → Ahead TokenKind.endsNames rest →
    Takes (moreIdentifiers fuel)
      ((ids.map fun t => [⟨.identifier, t.name, 1⟩]).flatMap (⟨.comma, ",", 1⟩ :: ·)) rest
      (ids.map (Identifier.onLine 1))
  | [], 0, _, _, _ => .pure
  | [], fuel + 1, _, _, h => Takes.look (accept_no h rfl) (.no .pure)
  | id :: ids, 0, _, hfuel, _ => absurd hfuel (Nat.not_succ_le_zero _)
  | id :: ids, fuel + 1, rest, hfuel, h => by
      have hnext := ahead_commas (l := ids.map fun t => [⟨.identifier, t.name, 1⟩])
        (h.mono readable_of_endsNames) rfl
      have hrest := moreIdentifiers_takes (Nat.le_of_succ_le_succ hfuel) h
      rw [List.map_cons, List.flatMap_cons, List.cons_append]
      refine Takes.step (accept_yes (.cons rfl)) (.yes ?_)
      exact (identifier_takes hnext).step (hrest.last .pure)

end Tokens

section Expressions

variable {rest : List Token} {d : Dialect}

/-- A literal of this kind is taken with its type. -/
theorem plainLiteral_takes {kind : LiteralKind} {t : Token} {type : String}
    (h : Ahead TokenKind.endsType rest) :
    Takes (plainLiteral kind) (t :: typeTokens type) rest (.literal ⟨t.line, kind, t.text, type⟩) :=
  Takes.step (advance_takes (typeTokens_ahead (h.mono readable_of_endsType) rfl))
    ((optionalType_takes h).last .pure)

/-- A string is taken without its quotes. -/
theorem stringLiteral_takes {l : Literal} (hkind : l.kind = .string) (hl : l.Written)
    (h : Ahead TokenKind.endsType rest) :
    Takes stringLiteral (⟨.string, "\"" ++ l.text ++ "\"", 1⟩ :: typeTokens l.type) rest
      (.literal (l.onLine 1)) := by
  rcases hl with ⟨_, hbody⟩
  rw [hkind] at hbody
  rcases hbody with ⟨_, bytes, hbytes, hlen⟩
  have hcontents : (⟨.string, "\"" ++ l.text ++ "\"", 1⟩ : Token).contents = l.text :=
    contents_quoted rfl
  have hread : (⟨1, .string, l.text, ""⟩ : Literal).stringBytes = .ok bytes := hbytes
  have hmoved : l.onLine 1 = ⟨1, .string, l.text, l.type⟩ := by rw [Literal.onLine, hkind]
  refine Takes.step (advance_takes (typeTokens_ahead (h.mono readable_of_endsType) rfl)) ?_
  dsimp only
  rw [hcontents, hread, hmoved]
  dsimp only
  rw [if_neg (by omega)]
  exact (optionalType_takes h).last .pure

/-- A literal is taken as an expression. -/
theorem literal_takes {l : Literal} {depth fuel : Nat} (hl : l.Written)
    (h : Ahead TokenKind.endsType rest) :
    Takes (expression d (fuel + 1) depth) l.tokens rest (.literal (l.onLine 1)) := by
  have hmoved : l.onLine 1 = ⟨1, l.kind, l.text, l.type⟩ := rfl
  rw [expression]
  rcases Literal.tokens_cases hl with
    ⟨hkind, htext, htokens⟩ | ⟨hkind, htext, htokens⟩ | ⟨hkind, htext, htokens⟩ |
      ⟨hkind, htext, htokens⟩
  · rw [htokens, hmoved, hkind]
    exact Takes.look current_takes (plainLiteral_takes h)
  · rw [htokens, hmoved, hkind, htext]
    exact Takes.look current_takes (plainLiteral_takes h)
  · rw [htokens, hmoved, hkind, htext]
    exact Takes.look current_takes (plainLiteral_takes h)
  · rw [htokens]
    exact Takes.look current_takes (stringLiteral_takes hkind hl h)

/-- Resolving a call takes no tokens. -/
theorem resolveCall_takes {id : Identifier} {args : List Expr} {e : Expr}
    (h : resolveCall d id args = .ok e) : Takes (liftM (resolveCall d id args)) [] rest e := by
  intro prev
  rw [h]
  exact ⟨prev, rfl⟩

mutual

/-- A written expression is taken whole and read as it was, but for its line. -/
theorem expression_takes : ∀ {e : Expr} {depth fuel : Nat} {rest : List Token},
    e.Written d depth → e.tokens.length ≤ fuel → Ahead TokenKind.endsExpr rest →
    Takes (expression d fuel depth) e.tokens rest (e.onLine 1)
  | e, depth, 0, rest, he, hfuel, _ => by
      have hlen := (Expr.ahead_tokens he).length_pos
      omega
  | .literal l, depth, fuel + 1, rest, he, hfuel, h => by
      rw [Expr.Written] at he
      rw [Expr.tokens, Expr.onLine]
      exact literal_takes he (h.mono endsType_of_endsExpr)
  | .ident _ name, depth, fuel + 1, rest, he, hfuel, h => by
      rw [Expr.tokens, Expr.onLine, expression]
      refine Takes.look current_takes ?_
      refine Takes.step (identifier_takes (h.mono readable_of_endsExpr)) ?_
      -- No parenthesis comes next, so the name is a variable.
      exact Takes.look (check_no h rfl) (.no .pure)
  | .instr _ op args, depth, fuel + 1, rest, he, hfuel, h => by
      rw [Expr.Written] at he
      rw [Expr.tokens, List.length_cons] at hfuel
      rw [Expr.tokens, Expr.onLine, expression]
      refine Takes.look current_takes ?_
      refine Takes.step (identifier_takes (.cons rfl)) (Takes.look check_yes (.yes ?_))
      -- What the callee stands for was fixed when the expression was written.
      exact call_takes he.2.2.2 (he.2.1 1) he.2.2.1 (Nat.le_of_succ_le_succ hfuel)
        (h.mono readable_of_endsExpr)
  | .call _ name args, depth, fuel + 1, rest, he, hfuel, h => by
      rw [Expr.Written] at he
      rw [Expr.tokens, List.length_cons] at hfuel
      rw [Expr.tokens, Expr.onLine, expression]
      refine Takes.look current_takes ?_
      refine Takes.step (identifier_takes (.cons rfl)) (Takes.look check_yes (.yes ?_))
      exact call_takes he.2.2.2 (he.2.1 1) he.2.2.1 (Nat.le_of_succ_le_succ hfuel)
        (h.mono readable_of_endsExpr)

/-- The arguments of a call are taken with their parentheses. -/
theorem call_takes : ∀ {args : List Expr} {name : String} {node : List Expr → Expr}
    {depth fuel : Nat} {rest : List Token}, Expr.WrittenAll d (depth + 1) args →
    (∀ as, resolveCall d ⟨1, name⟩ as = .ok (node as)) → depth + 1 ≤ maxNesting →
    (⟨.leftParen, "(", 1⟩ :: (Expr.tokensArgs args ++ [⟨.rightParen, ")", 1⟩]) : List Token).length
      ≤ fuel → Ahead TokenKind.readable rest →
    Takes (call d fuel depth ⟨1, name⟩)
      (⟨.leftParen, "(", 1⟩ :: (Expr.tokensArgs args ++ [⟨.rightParen, ")", 1⟩])) rest
      (node (Expr.onLineAll 1 args))
  | args, name, node, depth, 0, rest, _, _, _, hfuel, _ => absurd hfuel (Nat.not_succ_le_zero _)
  | args, name, node, depth, fuel + 1, rest, hargs, hnode, hdepth, hfuel, h => by
      -- The step behind the last argument.
      have hend : ∀ as, Takes (do
          let _ ← consume .rightParen .expectedArgumentsEnd
          resolveCall d ⟨1, name⟩ as) [⟨.rightParen, ")", 1⟩] rest (node as) := fun as =>
        Takes.last (consume_takes h) (resolveCall_takes (hnode as))
      rw [call]
      cases args with
      | nil =>
          rw [Expr.tokensArgs, Expr.onLineAll]
          refine Takes.step (consume_takes (.cons rfl)) (Takes.look (nest_takes hdepth) ?_)
          exact Takes.look check_yes (.yes (hend []))
      | cons e es =>
          rw [List.length_cons, List.length_append, List.length_singleton] at hfuel
          have he := hargs
          rw [Expr.WrittenAll] at he
          have hnext := Expr.ahead_tokensArgs he.1 es
          refine Takes.step (consume_takes (hnext.mono readable_of_startsExpr).append.append) ?_
          refine Takes.look (nest_takes hdepth) ?_
          -- The first argument does not begin with a closing parenthesis.
          refine Takes.look (check_no hnext.append.append rfl) (.no ?_)
          exact Takes.bind (arguments_takes hargs (by omega)) (hend _)

/-- The arguments are taken up to the closing parenthesis. -/
theorem arguments_takes : ∀ {e : Expr} {es : List Expr} {depth fuel : Nat} {rest : List Token},
    Expr.WrittenAll d depth (e :: es) → (Expr.tokensArgs (e :: es)).length < fuel →
    Takes (arguments d fuel depth) (Expr.tokensArgs (e :: es)) (⟨.rightParen, ")", 1⟩ :: rest)
      (Expr.onLineAll 1 (e :: es))
  | e, es, depth, 0, rest, _, hfuel => absurd hfuel (Nat.not_lt_zero _)
  | e, [], depth, fuel + 1, rest, he, hfuel => by
      rw [Expr.WrittenAll] at he
      rw [Expr.tokensArgs] at hfuel ⊢
      rw [arguments, Expr.onLineAll, Expr.onLineAll]
      refine Takes.last (expression_takes he.1 (Nat.le_of_lt_succ hfuel) (.cons rfl)) ?_
      -- No comma follows the last argument.
      exact Takes.look (accept_no (p := (· == .rightParen)) (.cons rfl) rfl) (.no .pure)
  | e, e' :: es, depth, fuel + 1, rest, he, hfuel => by
      rw [Expr.WrittenAll] at he
      have hrest := he.2
      rw [Expr.WrittenAll] at hrest
      have hnext := Expr.ahead_tokensArgs hrest.1 es
      rw [tokensArgs_cons] at hfuel ⊢
      rw [List.length_append, List.length_cons] at hfuel
      rw [arguments, Expr.onLineAll]
      refine Takes.bind (expression_takes he.1 (by omega) (.cons rfl)) ?_
      refine Takes.step (accept_yes (hnext.mono readable_of_startsExpr).append) (.yes ?_)
      exact (arguments_takes he.2 (by omega)).last .pure

end

end Expressions

section Statements

variable {rest : List Token} {d : Dialect}

/-- What needs the loose dialect is read there. -/
theorem requireLoose_takes {why : Complaint} (h : d.flavour = .loose) :
    Takes (requireLoose d why) [] rest () := by
  unfold requireLoose
  rw [if_pos h]
  exact .pure

/-- A lone name is a statement if nothing that follows continues it. -/
theorem lone_name_takes {name : String} {fuel depth : Nat} (h : Ahead TokenKind.endsStmt rest) :
    Takes (identifierStatement d fuel depth) [⟨.identifier, name, 1⟩] rest
      (.expr 1 (.ident 1 name)) := by
  refine Takes.step (identifier_takes (h.mono readable_of_endsStmt)) ?_
  rcases h with ⟨t, more, rfl, ht⟩
  refine Takes.look current_takes ?_
  -- None of the four kinds that would go on with the name can start or end a statement.
  split
  · rename_i hkind
    rw [hkind] at ht
    exact absurd ht (by decide)
  · rename_i hkind
    rw [hkind] at ht
    exact absurd ht (by decide)
  · rename_i hkind
    rw [hkind] at ht
    exact absurd ht (by decide)
  · rename_i hkind
    rw [hkind] at ht
    exact absurd ht (by decide)
  · exact .pure

theorem assignment_takes {first : Identifier} {more : List Identifier} {value : Expr}
    {fuel depth : Nat} (hvalue : value.Written d depth) (hmore : more.length ≤ fuel)
    (hfuel : value.tokens.length ≤ fuel) (h : Ahead TokenKind.endsExpr rest) :
    Takes (identifierStatement d fuel depth)
      (separated ((first :: more).map fun t => [⟨.identifier, t.name, 1⟩]) ++
        ⟨.colonEqual, ":=", 1⟩ :: value.tokens) rest
      (.assign 1 ((first :: more).map (Identifier.onLine 1)) (value.onLine 1)) := by
  have hstart := (Expr.ahead_tokens hvalue).append (r := rest)
  have hnames : ∀ targets : List Identifier, Takes (do
      let _ ← consume .colonEqual .expectedAssign
      return Stmt.assign 1 targets (← expression d fuel depth))
      (⟨.colonEqual, ":=", 1⟩ :: value.tokens) rest (Stmt.assign 1 targets (value.onLine 1)) :=
    fun targets => Takes.step (consume_takes (hstart.mono readable_of_startsExpr))
      ((expression_takes hvalue hfuel h).last .pure)
  have hrest : Takes (do
      let targets := (⟨1, first.name⟩ : Identifier) :: (← moreIdentifiers fuel)
      let _ ← consume .colonEqual .expectedAssign
      return Stmt.assign 1 targets (← expression d fuel depth))
      ((more.map fun t => [⟨.identifier, t.name, 1⟩]).flatMap (⟨.comma, ",", 1⟩ :: ·) ++
        ⟨.colonEqual, ":=", 1⟩ :: value.tokens) rest
      (.assign 1 ((first :: more).map (Identifier.onLine 1)) (value.onLine 1)) :=
    (moreIdentifiers_takes hmore (.cons rfl)).bind (hnames _)
  rw [List.map_cons, separated, List.append_assoc, List.cons_append, List.nil_append]
  refine Takes.step (identifier_takes ?_) ?_
  · rw [List.append_assoc]
    exact ahead_commas (.cons rfl) rfl
  -- The next token is a comma or the sign of the assignment.
  cases more with
  | nil => exact Takes.look current_takes hrest
  | cons second more => exact Takes.look current_takes hrest

/-- A declaration is taken with its value if there is one. -/
theorem declaration_takes {vars : List TypedName} {value : Option Expr} {fuel depth : Nat}
    {line : Nat} (hs : (Stmt.decl line vars value).Written d depth)
    (hfuel : (Stmt.decl line vars value).tokens.length ≤ fuel) (h : Ahead TokenKind.endsStmt rest) :
    Takes (declaration d fuel depth) (Stmt.decl line vars value).tokens rest
      ((Stmt.decl line vars value).onLine 1) := by
  have hlen := length_le_separated vars
  rw [Stmt.Written] at hs
  have hnames := (ahead_separated hs.1).mono readable_of_startsExpr
  rw [Stmt.onLine]
  cases value with
  | none =>
      rw [Stmt.tokens] at hfuel ⊢
      rw [List.length_cons] at hfuel
      refine Takes.step (advance_takes hnames.append) ?_
      refine Takes.last (typedNames_takes hs.1 (by omega) (h.mono endsNames_of_endsStmt)) ?_
      -- Nothing that follows a statement looks like a value.
      exact Takes.look (accept_no h rfl) (.no .pure)
  | some value =>
      rw [Stmt.tokens] at hfuel ⊢
      rw [List.length_cons, List.length_append, List.length_cons] at hfuel
      have hvalue := hs.2.2 value rfl
      have hstart := (Expr.ahead_tokens hvalue).append (r := rest)
      refine Takes.step (advance_takes hnames.append.append) ?_
      refine Takes.bind (typedNames_takes hs.1 (by omega) (.cons rfl)) ?_
      refine Takes.step (accept_yes (hstart.mono readable_of_startsExpr)) (.yes ?_)
      exact (expression_takes hvalue (by omega) (h.mono endsExpr_of_endsStmt)).last .pure

/-- The head of a function is taken up to its body. -/
theorem functionHead_takes {name : String} {params returns : List TypedName} {fuel : Nat}
    (hparams : params.length ≤ fuel) (hreturns : returns.length ≤ fuel)
    (h : Ahead (· == .leftBrace) rest) :
    Takes (functionHead fuel) (⟨.functionWord, "function", 1⟩ :: ⟨.identifier, name, 1⟩ ::
      ⟨.leftParen, "(", 1⟩ :: (separated (params.map TypedName.tokens) ++ ⟨.rightParen, ")", 1⟩ ::
        returnTokens returns)) rest
      (1, name, params.map (TypedName.onLine 1), returns.map (TypedName.onLine 1)) := by
  -- The body begins with a brace, which ends any list.
  have hbrace : ∀ p : TokenKind → Bool, p .leftBrace = true → Ahead p rest := fun p hp =>
    h.mono fun k hk => by rwa [beq_iff_eq.mp hk]
  -- The return variables, if there are any.
  have hreturn : ∀ ps : List TypedName, Takes (do
      let returns ← if ← accept .rightArrow then typedNames fuel else pure []
      return (1, name, ps, returns)) (returnTokens returns) rest
      (1, name, ps, returns.map (TypedName.onLine 1)) := by
    intro ps
    unfold returnTokens
    by_cases hempty : returns.isEmpty = true
    · rw [if_pos hempty, List.isEmpty_iff.mp hempty]
      exact Takes.look (accept_no h rfl) (.no .pure)
    · have hne : returns ≠ [] := fun hnil => hempty (List.isEmpty_iff.mpr hnil)
      have hstart := ((ahead_separated hne).mono readable_of_startsExpr).append (r := rest)
      rw [if_neg hempty]
      refine Takes.step (accept_yes hstart) (.yes ?_)
      exact (typedNames_takes hne hreturns (hbrace _ rfl)).last .pure
  -- The parenthesis behind the parameters, and what comes then.
  have hclose : ∀ ps : List TypedName, Takes (do
      let _ ← consume .rightParen .expectedParametersEnd
      let returns ← if ← accept .rightArrow then typedNames fuel else pure []
      return (1, name, ps, returns)) (⟨.rightParen, ")", 1⟩ :: returnTokens returns) rest
      (1, name, ps, returns.map (TypedName.onLine 1)) := by
    intro ps
    refine Takes.step (consume_takes ?_) (hreturn ps)
    unfold returnTokens
    split
    · exact hbrace _ rfl
    · exact .cons rfl
  refine Takes.step (advance_takes (.cons rfl)) (Takes.step (identifier_takes (.cons rfl)) ?_)
  cases params with
  | nil =>
      refine Takes.step (consume_takes (.cons rfl)) ?_
      exact Takes.look check_yes (.yes (hclose []))
  | cons v vs =>
      have hstart := ahead_separated (List.cons_ne_nil v vs)
      refine Takes.step (consume_takes (hstart.mono readable_of_startsExpr).append.append) ?_
      refine Takes.look (check_no hstart.append.append rfl) (.no ?_)
      exact Takes.bind (typedNames_takes (List.cons_ne_nil v vs) hparams (.cons rfl)) (hclose _)

/-- There is a case, so the switch is complete. -/
theorem checkCases_takes {cs : List Case} (hne : cs ≠ []) (h : Ahead TokenKind.endsStmt rest) :
    Takes (checkCases cs) [] rest () := by
  rcases h with ⟨t, more, rfl, ht⟩
  have hkind : ¬ (t.kind = .caseWord ∨ t.kind = .defaultWord) := by
    rintro (hkind | hkind)
    · rw [hkind] at ht
      exact absurd ht (by decide)
    · rw [hkind] at ht
      exact absurd ht (by decide)
  have hsome : ¬ cs.isEmpty = true := fun hempty => hne (List.isEmpty_iff.mp hempty)
  refine Takes.look current_takes ?_
  rw [if_neg hsome, if_neg hkind]
  exact .pure

/-- The literal of a case is taken. -/
theorem caseValue_takes {l : Literal} {depth fuel : Nat} (hl : l.Written) (hfuel : 0 < fuel)
    (h : Ahead TokenKind.endsType rest) :
    Takes (caseValue d fuel depth) l.tokens rest (l.onLine 1) := by
  cases fuel with
  | zero => exact absurd hfuel (Nat.lt_irrefl 0)
  | succ fuel => exact (literal_takes hl h).last .pure

/-- A literal that stands alone is taken. -/
theorem literalStatement_takes {l : Literal} {depth fuel : Nat} (hl : l.Written)
    (hfuel : l.tokens.length ≤ fuel) (h : Ahead TokenKind.endsExpr rest) :
    Takes (statement d (fuel + 1) depth) l.tokens rest (.expr 1 (.literal (l.onLine 1))) := by
  have hread : Takes (do return Stmt.expr 1 (← expression d fuel depth)) l.tokens rest
      (.expr 1 (.literal (l.onLine 1))) := by
    cases fuel with
    | zero =>
        have hlen := (Literal.ahead_tokens hl).length_pos
        omega
    | succ fuel => exact (literal_takes hl (h.mono endsType_of_endsExpr)).last .pure
  rw [statement]
  rcases Literal.tokens_cases hl with
    ⟨_, _, htokens⟩ | ⟨_, _, htokens⟩ | ⟨_, _, htokens⟩ | ⟨_, _, htokens⟩ <;>
  · rw [htokens] at hread ⊢
    exact Takes.look current_takes hread

/-- An expression that stands alone is taken, as the statement its first token begins. -/
theorem exprStatement_takes {e : Expr} {depth fuel : Nat} (he : e.Written d depth)
    (hfuel : e.tokens.length ≤ fuel) (h : Ahead TokenKind.endsStmt rest) :
    Takes (statement d (fuel + 1) depth) e.tokens rest (.expr 1 (e.onLine 1)) := by
  cases e with
  | literal l =>
      rw [Expr.Written] at he
      rw [Expr.tokens] at hfuel
      rw [Expr.tokens, Expr.onLine]
      exact literalStatement_takes he (by omega) (h.mono endsExpr_of_endsStmt)
  | ident line name =>
      rw [Expr.tokens, Expr.onLine, statement]
      exact Takes.look current_takes (lone_name_takes h)
  | instr line op args =>
      rw [Expr.Written] at he
      rw [Expr.tokens, List.length_cons] at hfuel
      rw [Expr.tokens, Expr.onLine, statement]
      refine Takes.look current_takes (Takes.step (identifier_takes (.cons rfl)) ?_)
      refine Takes.look current_takes (Takes.last ?_ .pure)
      exact call_takes he.2.2.2 (he.2.1 1) he.2.2.1 (by omega) (h.mono readable_of_endsStmt)
  | call line name args =>
      rw [Expr.Written] at he
      rw [Expr.tokens, List.length_cons] at hfuel
      rw [Expr.tokens, Expr.onLine, statement]
      refine Takes.look current_takes (Takes.step (identifier_takes (.cons rfl)) ?_)
      refine Takes.look current_takes (Takes.last ?_ .pure)
      exact call_takes he.2.2.2 (he.2.1 1) he.2.2.1 (by omega) (h.mono readable_of_endsStmt)

mutual

/-- A block is taken with its braces. -/
theorem block_takes : ∀ {b : Block} {depth fuel : Nat} {rest : List Token},
    b.Written d depth → 2 * b.tokens.length ≤ fuel → Ahead TokenKind.readable rest →
    Takes (block d fuel depth) b.tokens rest (b.onLine 1)
  | ⟨_, stmts⟩, depth, 0, rest, _, hfuel, _ => by
      rw [Block.tokens, List.length_cons] at hfuel
      omega
  | ⟨_, stmts⟩, depth, fuel + 1, rest, hb, hfuel, h => by
      rw [Block.Written] at hb
      rw [Block.tokens, List.length_cons] at hfuel
      rw [Block.tokens, Block.onLine, block]
      refine Takes.step (consume_takes ((statements_ahead hb.2).mono readable_of_endsStmt)) ?_
      refine Takes.look (nest_takes hb.1) ?_
      exact (statements_takes hb.2 (by omega) h).last .pure

/-- A sequence is taken up to the closing brace. -/
theorem statements_takes : ∀ {stmts : List Stmt} {depth fuel : Nat} {rest : List Token},
    Stmt.WrittenSeq d depth stmts →
    2 * (Stmt.tokensSeq stmts ++ [⟨.rightBrace, "\x7d", 1⟩] : List Token).length ≤ fuel →
    Ahead TokenKind.readable rest →
    Takes (statements d fuel depth) (Stmt.tokensSeq stmts ++ [⟨.rightBrace, "\x7d", 1⟩]) rest
      (Stmt.onLineSeq 1 stmts)
  | stmts, depth, 0, rest, _, hfuel, _ => by
      rw [List.length_append, List.length_singleton] at hfuel
      omega
  | [], depth, fuel + 1, rest, _, _, h => by
      rw [Stmt.tokensSeq, Stmt.onLineSeq, statements]
      exact Takes.step (accept_yes h) (.yes .pure)
  | s :: stmts, depth, fuel + 1, rest, hs, hfuel, h => by
      rw [Stmt.WrittenSeq] at hs
      have hstart := Stmt.ahead_tokens hs.1
      rw [Stmt.tokensSeq, List.append_assoc, List.length_append] at hfuel
      rw [Stmt.tokensSeq, List.append_assoc, Stmt.onLineSeq, statements]
      -- Each statement has a token, so there is fuel for the rest.
      have hlen : 0 < s.tokens.length := (Stmt.ahead_tokens hs.1).length_pos
      have hbrace : (Stmt.tokensSeq stmts ++ [⟨.rightBrace, "\x7d", 1⟩] : List Token).length
          = (Stmt.tokensSeq stmts).length + 1 := List.length_append
      refine Takes.look (accept_no hstart.append.append rfl) (.no ?_)
      refine Takes.look (check_no hstart.append.append rfl) (.no ?_)
      refine Takes.bind (statement_takes hs.1 (by omega) (statements_ahead hs.2)) ?_
      exact (statements_takes hs.2 (by omega) h).last .pure

/-- A written statement is taken whole and read as it was, but for its line. -/
theorem statement_takes : ∀ {s : Stmt} {depth fuel : Nat} {rest : List Token},
    s.Written d depth → 2 * s.tokens.length < fuel → Ahead TokenKind.endsStmt rest →
    Takes (statement d fuel depth) s.tokens rest (s.onLine 1)
  -- Twice the tokens, since statement and expression each use fuel.
  | s, depth, 0, rest, _, hfuel, _ => absurd hfuel (Nat.not_lt_zero _)
  | .expr line e, depth, fuel + 1, rest, hs, hfuel, h => by
      rw [Stmt.Written] at hs
      rw [Stmt.tokens] at hfuel ⊢
      rw [Stmt.onLine]
      exact exprStatement_takes hs (by omega) h
  | .assign _ [] value, depth, fuel + 1, rest, hs, _, _ => by
      rw [Stmt.Written] at hs
      exact absurd rfl hs.1
  | .assign _ (first :: more) value, depth, fuel + 1, rest, hs, hfuel, h => by
      have hmore := length_le_commas (more.map fun t => [⟨.identifier, t.name, 1⟩])
      rw [Stmt.Written] at hs
      rw [Stmt.tokens, List.map_cons, separated, List.length_append, List.length_append,
        List.length_singleton, List.length_cons] at hfuel
      rw [List.length_map] at hmore
      rw [Stmt.tokens, Stmt.onLine, statement]
      refine Takes.look current_takes ?_
      exact assignment_takes hs.2.2 (by omega) (by omega) (h.mono endsExpr_of_endsStmt)
  | .decl _ vars value, depth, fuel + 1, rest, hs, hfuel, h => by
      -- The word that begins a declaration is left to the parser of declarations.
      have hread := declaration_takes hs (by omega : _ ≤ fuel) h
      rw [statement]
      cases value with
      | none =>
          rw [Stmt.tokens] at hread ⊢
          exact Takes.look current_takes hread
      | some value =>
          rw [Stmt.tokens] at hread ⊢
          exact Takes.look current_takes hread
  | .func _ name params returns body, depth, fuel + 1, rest, hs, hfuel, h => by
      have hparams := length_le_separated params
      rw [Stmt.Written] at hs
      rw [Stmt.tokens] at hfuel
      simp only [List.length_cons, List.length_append] at hfuel
      have hreturnTokens := length_returnTokens returns
      -- The tokens of the head in front of those of the body.
      have htokens : (separated (params.map TypedName.tokens) ++ ⟨.rightParen, ")", 1⟩ ::
          (returnTokens returns ++ body.tokens)) = (separated (params.map TypedName.tokens) ++
            ⟨.rightParen, ")", 1⟩ :: returnTokens returns) ++ body.tokens := by
        rw [List.append_assoc, List.cons_append]
      rw [Stmt.tokens, Stmt.onLine, statement, htokens]
      refine Takes.look current_takes (Takes.bind (functionHead_takes ?_ ?_ ?_) ?_)
      · omega
      · omega
      · exact (Block.ahead_tokens rfl).append
      exact (block_takes hs.2.2.2 (by omega) (h.mono readable_of_endsStmt)).last .pure
  | .cond _ test body, depth, fuel + 1, rest, hs, hfuel, h => by
      rw [Stmt.Written] at hs
      rw [Stmt.tokens, List.length_cons, List.length_append] at hfuel
      rw [Stmt.tokens, Stmt.onLine, statement]
      have htest := (Expr.ahead_tokens hs.1).mono readable_of_startsExpr
      refine Takes.look current_takes (Takes.step (advance_takes htest.append.append) ?_)
      refine Takes.bind (expression_takes hs.1 (by omega) (Block.ahead_tokens rfl).append) ?_
      exact (block_takes hs.2 (by omega) (h.mono readable_of_endsStmt)).last .pure
  | .switch _ subject cs, depth, fuel + 1, rest, hs, hfuel, h => by
      rw [Stmt.Written] at hs
      rw [Stmt.tokens, List.length_cons, List.length_append] at hfuel
      rw [Stmt.tokens, Stmt.onLine, statement]
      have hsubject := (Expr.ahead_tokens hs.1).mono readable_of_startsExpr
      -- What follows the subject is a case, as there is one.
      have hcases := cases_ahead cs (h.mono endsExpr_of_endsStmt) rfl
      refine Takes.look current_takes (Takes.step (advance_takes hsubject.append.append) ?_)
      refine Takes.bind (expression_takes hs.1 (by omega) hcases) ?_
      refine Takes.last (cases_takes hs.2.2 (by omega) h) ?_
      exact Takes.look (checkCases_takes (Case.onLineSeq_ne_nil hs.2.1) h) .pure
  | .loop _ pre test post body, depth, fuel + 1, rest, hs, hfuel, h => by
      rw [Stmt.Written] at hs
      rw [Stmt.tokens, List.length_cons, List.length_append, List.length_append,
        List.length_append] at hfuel
      rw [Stmt.tokens, Stmt.onLine, statement]
      have htest := (Expr.ahead_tokens hs.2.1).mono readable_of_startsExpr
      refine Takes.look current_takes (Takes.step (advance_takes ?_) ?_)
      · exact (Block.ahead_tokens rfl).append.append
      -- The parts in the order they are written: init, condition, post, body.
      refine Takes.bind (block_takes hs.1 (by omega) htest.append.append) ?_
      refine Takes.bind (expression_takes hs.2.1 (by omega) ?_) ?_
      · exact (Block.ahead_tokens rfl).append.append
      refine Takes.bind (block_takes hs.2.2.1 (by omega) (Block.ahead_tokens rfl).append) ?_
      exact (block_takes hs.2.2.2 (by omega) (h.mono readable_of_endsStmt)).last .pure
  | .brk _, depth, fuel + 1, rest, _, _, h => by
      rw [Stmt.tokens, Stmt.onLine, statement]
      refine Takes.look current_takes ?_
      exact (advance_takes (h.mono readable_of_endsStmt)).last .pure
  | .cont _, depth, fuel + 1, rest, _, _, h => by
      rw [Stmt.tokens, Stmt.onLine, statement]
      refine Takes.look current_takes ?_
      exact (advance_takes (h.mono readable_of_endsStmt)).last .pure
  | .block ⟨line, stmts⟩, depth, fuel + 1, rest, hs, hfuel, h => by
      rw [Stmt.Written] at hs
      rw [Stmt.tokens] at hfuel ⊢
      have hread := block_takes hs (by omega : _ ≤ fuel) (h.mono readable_of_endsStmt)
      rw [Stmt.onLine, statement]
      rw [Block.tokens] at hread ⊢
      exact Takes.look current_takes (hread.last .pure)
  | .label _ name, depth, fuel + 1, rest, hs, _, h => by
      rw [Stmt.Written] at hs
      rw [Stmt.tokens, Stmt.onLine, statement]
      refine Takes.look current_takes (Takes.step (identifier_takes (.cons rfl)) ?_)
      -- A colon behind the name, where the dialect has labels.
      refine Takes.look current_takes (Takes.look (requireLoose_takes hs.1) ?_)
      exact (advance_takes (h.mono readable_of_endsStmt)).last .pure
  | .stackAssign _ target, depth, fuel + 1, rest, hs, _, h => by
      rw [Stmt.Written] at hs
      rw [Stmt.tokens, Stmt.onLine, statement]
      refine Takes.look current_takes (Takes.look (requireLoose_takes hs.1) ?_)
      refine Takes.step (advance_takes (.cons rfl)) ?_
      exact (identifier_takes (h.mono readable_of_endsStmt)).last .pure

/-- The cases are taken up to the end of the switch. -/
theorem cases_takes : ∀ {cs : List Case} {depth fuel : Nat} {rest : List Token},
    Case.WrittenSeq d depth cs → 2 * (Case.tokensSeq cs).length < fuel →
    Ahead TokenKind.endsStmt rest →
    Takes (cases d fuel depth) (Case.tokensSeq cs) rest (Case.onLineSeq 1 cs)
  | cs, depth, 0, rest, _, hfuel, _ => absurd hfuel (Nat.not_lt_zero _)
  | [], depth, fuel + 1, rest, _, _, h => by
      rw [Case.tokensSeq, Case.onLineSeq, cases]
      rcases h with ⟨t, more, rfl, ht⟩
      have h : Ahead TokenKind.endsStmt (t :: more) := .cons ht
      -- Neither a case nor a default follows.
      refine Takes.look current_takes (Takes.look (accept_no h rfl) (.no ?_))
      exact Takes.look (accept_no h rfl) (.no .pure)
  | ⟨_, some value, body⟩ :: cs, depth, fuel + 1, rest, hcs, hfuel, h => by
      rw [Case.WrittenSeq] at hcs
      rw [Case.tokensSeq, List.length_cons, List.length_append, List.length_append] at hfuel
      rw [Case.tokensSeq, Case.onLineSeq, cases]
      have hvalue := (Literal.ahead_tokens hcs.1).mono readable_of_startsExpr
      have hrest := cases_ahead cs (h.mono readable_of_endsStmt) rfl
      refine Takes.look current_takes ?_
      refine Takes.step (accept_yes hvalue.append.append) (.yes ?_)
      refine Takes.bind (caseValue_takes hcs.1 (by omega) (Block.ahead_tokens rfl).append.append) ?_
      refine Takes.bind (block_takes hcs.2.1 (by omega) hrest) ?_
      exact (cases_takes hcs.2.2 (by omega) h).last .pure
  | ⟨_, none, body⟩ :: cs, depth, fuel + 1, rest, hcs, hfuel, h => by
      rw [Case.WrittenSeq] at hcs
      -- No case follows the default.
      rw [hcs.2] at hfuel ⊢
      rw [Case.tokensSeq, Case.tokensSeq, List.append_nil, List.length_cons] at hfuel
      rw [Case.tokensSeq, Case.onLineSeq, Case.tokensSeq, Case.onLineSeq, List.append_nil, cases]
      refine Takes.look current_takes ?_
      refine Takes.look (accept_no (p := (· == .defaultWord)) (.cons rfl) rfl) (.no ?_)
      refine Takes.step (accept_yes (Block.ahead_tokens rfl).append) (.yes ?_)
      exact (block_takes hcs.1 (by omega) (h.mono readable_of_endsStmt)).last .pure

end

end Statements

section Objects

variable {rest : List Token} {d : Dialect}

/-- Data is taken with its name. -/
theorem data_takes {name : String} {bytes : List UInt8} (h : Ahead TokenKind.readable rest) :
    Takes data [⟨.string, "\"" ++ name ++ "\"", 1⟩,
      ⟨.hexString, "hex\"" ++ Hex.encode bytes ++ "\"", 1⟩] rest (.data name bytes) := by
  have hname : (⟨.string, "\"" ++ name ++ "\"", 1⟩ : Token).contents = name :=
    contents_quoted rfl
  have hbytes : (⟨.hexString, "hex\"" ++ Hex.encode bytes ++ "\"", 1⟩ : Token).contents
      = Hex.encode bytes := contents_hex rfl
  refine Takes.step (consume_takes (.cons rfl)) (Takes.look current_takes ?_)
  refine Takes.step (accept_yes h) (.yes ?_)
  rw [hbytes, decode?_encode, hname]
  exact .pure

mutual

/-- An object is taken with all that is attached. -/
theorem object_takes : ∀ {o : Object} {fuel : Nat} {rest : List Token}, o.Written d →
    2 * o.tokens.length ≤ fuel → Ahead TokenKind.readable rest →
    Takes (object d fuel) o.tokens rest (o.onLine 1)
  | ⟨name, code, as⟩, 0, rest, _, hfuel, _ => by
      rw [Object.tokens, List.length_cons] at hfuel
      omega
  | ⟨name, code, as⟩, fuel + 1, rest, ho, hfuel, h => by
      rw [Object.Written] at ho
      rw [Object.tokens] at hfuel
      simp only [List.length_cons, List.length_append] at hfuel
      have hlen := length_attachments as
      have hname : (⟨.string, "\"" ++ name ++ "\"", 1⟩ : Token).contents = name :=
        contents_quoted rfl
      rw [Object.tokens, Object.onLine, object]
      refine Takes.step (consume_takes (.cons rfl)) (Takes.step (consume_takes (.cons rfl)) ?_)
      refine Takes.step (consume_takes (.cons rfl)) ?_
      refine Takes.step (consume_takes (Block.ahead_tokens rfl).append.append) ?_
      refine Takes.bind (block_takes ho.2.1 (by omega) (attachments_ahead as _)) ?_
      rw [hname]
      exact (attachments_takes ho.2.2 (by omega) h).last .pure

/-- What is attached is taken up to the closing brace. -/
theorem attachments_takes : ∀ {as : List Attachment} {fuel : Nat} {rest : List Token},
    Attachment.WrittenSeq d as →
    2 * (Attachment.tokensSeq as ++ [⟨.rightBrace, "\x7d", 1⟩] : List Token).length ≤ fuel →
    Ahead TokenKind.readable rest →
    Takes (attachments d fuel) (Attachment.tokensSeq as ++ [⟨.rightBrace, "\x7d", 1⟩]) rest
      (Attachment.onLineSeq 1 as)
  | as, 0, rest, _, hfuel, _ => by
      rw [List.length_append, List.length_singleton] at hfuel
      omega
  | [], fuel + 1, rest, _, _, h => by
      rw [Attachment.tokensSeq, Attachment.onLineSeq, attachments]
      exact Takes.step (accept_yes h) (.yes .pure)
  | .object ⟨name, code, inner⟩ :: as, fuel + 1, rest, ha, hfuel, h => by
      rw [Attachment.WrittenSeq] at ha
      rw [Attachment.tokensSeq, List.append_assoc, List.length_append] at hfuel
      have hlen := length_attachments as
      -- The word that an object begins with tells it from data.
      have hstart : Ahead (· == .objectWord) (Object.tokens ⟨name, code, inner⟩) := by
        rw [Object.tokens]
        exact .cons rfl
      have hpos := hstart.length_pos
      have hnext := attachments_ahead as rest
      have hread := object_takes ha.1 (by omega : _ ≤ fuel) hnext
      rw [Attachment.tokensSeq, List.append_assoc, Attachment.onLineSeq, attachments]
      refine Takes.look (accept_no hstart.append.append rfl) (.no ?_)
      rw [Object.tokens] at hread ⊢
      refine Takes.look check_yes (.yes ?_)
      exact Takes.bind hread ((attachments_takes ha.2 (by omega) h).last .pure)
  | .data name bytes :: as, fuel + 1, rest, ha, hfuel, h => by
      rw [Attachment.WrittenSeq] at ha
      rw [Attachment.tokensSeq] at hfuel
      simp only [List.cons_append, List.length_cons] at hfuel
      -- The word that data begins with tells it from objects.
      have hword : ∀ ts, Ahead (· == .dataWord) (⟨.dataWord, "data", 1⟩ :: ts) :=
        fun ts => .cons rfl
      rw [Attachment.tokensSeq, Attachment.onLineSeq, attachments]
      refine Takes.look (accept_no (hword _) rfl) (.no ?_)
      refine Takes.look (check_no (hword _) rfl) (.no ?_)
      refine Takes.step (accept_yes (.cons rfl)) (.yes ?_)
      have hrest := attachments_takes ha.2 (by omega : _ ≤ fuel) h
      show Takes _ ([_, _] ++ (Attachment.tokensSeq as ++ [⟨.rightBrace, "\x7d", 1⟩])) rest _
      exact Takes.bind (data_takes (attachments_ahead as _)) (hrest.last .pure)

end

/-- The end of the input is not taken off it. -/
theorem consume_end_takes {why : Complaint} :
    Takes (consume .endOfInput why) [] [⟨.endOfInput, "", 1⟩] ⟨.endOfInput, "", 1⟩ := fun _ =>
  ⟨_, rfl⟩

/-- What a parser takes is what it gives when it is run on these tokens. -/
theorem Takes.result {α : Type} {m : Parse α} {ts : List Token} {a : α}
    (h : Takes m ts rest a) (hstart : Ahead TokenKind.readable ts) :
    (do let start ← Cursor.ofTokens (ts ++ rest); (fun r : α × Cursor => r.1) <$> m.run start)
      = .ok a := by
  rcases h endToken with ⟨prev, hrun⟩
  rcases hstart with ⟨t, more, rfl, ht⟩
  -- The cursor starts at a token that is no fault.
  have hchecked : Cursor.ofTokens (t :: more ++ rest) = .ok ⟨endToken, t :: more ++ rest⟩ := by
    unfold Cursor.ofTokens Cursor.checked
    split
    · rename_i why hkind
      have hkind : t.kind = .fault why := hkind
      rw [hkind] at ht
      exact absurd ht (by rintro ⟨⟩)
    · rfl
  rw [hchecked]
  show (fun r : α × Cursor => r.1) <$> m.run ⟨endToken, t :: more ++ rest⟩ = .ok a
  rw [hrun]
  rfl

end Objects

end Parse

/-- A printed object is lexed as its tokens. -/
theorem tokens_object_print {d : Dialect} {o : Object} (h : o.Written d) :
    tokens o.print = o.tokens ++ [⟨.endOfInput, "", 1⟩] := by
  have hlexes := Object.print_lexes h Lexes.done
  rw [List.append_nil] at hlexes
  exact tokens_printed hlexes

/-- A printed block is lexed as its tokens. -/
theorem tokens_block_print {d : Dialect} {b : Block} (h : b.Written d 0) :
    tokens b.print = b.tokens ++ [⟨.endOfInput, "", 1⟩] := by
  have hlexes := Block.print_lexes h Lexes.done
  rw [List.append_nil] at hlexes
  exact tokens_printed hlexes

/-- The bound of the recursion is larger than what the tokens need. -/
theorem le_fuelFor (ts : List Token) (t : Token) :
    2 * ts.length ≤ Parse.fuelFor (ts ++ [t]).length := by
  rw [Parse.fuelFor, List.length_append]
  omega

/-- What can be written down is read back from its printed form. -/
theorem parseBlock_print {d : Dialect} {b : Block} (h : b.Written d 0) :
    parseBlock d b.print = .ok (b.onLine 1) := by
  unfold parseBlock
  rw [tokens_block_print h]
  refine Parse.Takes.result ?_ (Block.ahead_tokens rfl)
  refine Parse.Takes.last (Parse.block_takes h (le_fuelFor _ _) (.cons rfl)) ?_
  exact Parse.Takes.look Parse.consume_end_takes .pure

/-- Reading undoes printing on everything that reading gives: the printed form of an
    object or a block that was read is read as the same object or block, with every node
    of it on the first line and no other difference. -/
theorem parse_print (d : Dialect) (source : String) :
    (∀ o, parseObject d source = .ok o → parseObject d o.print = .ok (o.onLine 1)) ∧
      ∀ b, parseBlock d source = .ok b → parseBlock d b.print = .ok (b.onLine 1) := by
  constructor
  · rintro ⟨name, code, as⟩ ho
    have hwritten := parseObject_written ho
    -- An object begins with its word, which is how the parser tells it from a block.
    have hstart : Ahead (· == .objectWord) (Object.tokens ⟨name, code, as⟩) := by
      rw [Object.tokens]
      exact .cons rfl
    unfold parseObject
    rw [tokens_object_print hwritten]
    refine Parse.Takes.result ?_ (hstart.mono fun k hk => ?_)
    · refine Parse.Takes.look (Parse.check_no hstart.append rfl) (.no ?_)
      refine Parse.Takes.last (Parse.object_takes hwritten (le_fuelFor _ _) (.cons rfl)) ?_
      exact Parse.Takes.look Parse.consume_end_takes .pure
    · rw [beq_iff_eq.mp hk]
      rfl
  · intro b hb
    exact parseBlock_print (parseBlock_written hb)

/-- An object in loose assembly with data, whose code has a label, a string and an
    assignment from the stack on lines of their own. -/
theorem parse_print_loose : ∃ o, parseObject .looseAssembly
    "object \"A\" \x7b code \x7b\n again: sstore(0x0, \"a\")\n =: x \x7d data \"d\" \"\\x01z\" \x7d"
      = .ok o ∧ parseObject .looseAssembly o.print = .ok (o.onLine 1) := by
  exact exists_of_object? (fun _ => true) (by decide +kernel) fun o hread _ =>
    (parse_print _ _).1 o hread

end YulToolchain
