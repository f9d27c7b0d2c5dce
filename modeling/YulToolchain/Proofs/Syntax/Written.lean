import YulToolchain.Parser.Object
import YulToolchain.Proofs.Static.Builtin
import YulToolchain.Proofs.Syntax.Lexeme

/-!
# Trees That Can Be Written Down

What a tree has to be like for its text to be read as that tree again.

Not every tree is. A name could be a keyword, a switch could have no cases, an
instruction could be one that the dialect does not offer. Trees that were read have
none of these. `Written` collects what is needed, node by node, and this module shows
that reading gives nothing else.

What reading a token gives depends on what the lexer made of the source, so the proof
goes along with all tokens being genuine.

## Main definitions

* `Literal.Written`, `Expr.Written`, `Stmt.Written`, `Block.Written`,
  `Object.Written`: Trees that can be written down.
* `Parse.Gains`: A reader of genuine tokens only returns what has a property.

## Theorems

* `Parse.expression_written`, `Parse.block_written`, `Parse.object_written`: What the
  readers return.
* `parseBlock_written`, `parseObject_written`: What a source gives.
-/

namespace YulToolchain

/-- A type that can be written down: none, or a name. -/
def TypeWritten (type : String) : Prop := type = "" ∨ IsName type

/-- A declared name that can be written down. -/
def TypedName.Written (v : TypedName) : Prop := IsName v.name ∧ TypeWritten v.type

/-- A literal that can be written down. -/
def Literal.Written (l : Literal) : Prop :=
  TypeWritten l.type ∧
    match l.kind with
    | .number => IsNumber l.text
    | .boolean => l.text = "true" ∨ l.text = "false"
    | .string => IsQuoted l.text ∧ ∃ bytes, l.stringBytes = .ok bytes ∧ bytes.length ≤ 32

mutual

/-- An expression that can be written down inside some levels of nesting. -/
def Expr.Written (d : Dialect) (depth : Nat) : Expr → Prop
  | .literal l => l.Written
  | .ident _ x => IsName x
  | .instr _ op args =>
    IsName op.mnemonic ∧
      (∀ line args, Parse.resolveCall d ⟨line, op.mnemonic⟩ args = .ok (.instr line op args)) ∧
      depth + 1 ≤ maxNesting ∧ Expr.WrittenAll d (depth + 1) args
  | .call _ name args =>
    IsName name ∧
      (∀ line args, Parse.resolveCall d ⟨line, name⟩ args = .ok (.call line name args)) ∧
      depth + 1 ≤ maxNesting ∧ Expr.WrittenAll d (depth + 1) args

/-- Some expressions that can be written down. -/
def Expr.WrittenAll (d : Dialect) (depth : Nat) : List Expr → Prop
  | [] => True
  | e :: rest => e.Written d depth ∧ Expr.WrittenAll d depth rest

end

mutual

/-- A block that can be written down inside some levels of nesting. -/
def Block.Written (d : Dialect) (depth : Nat) : Block → Prop
  | ⟨_, stmts⟩ => depth + 1 ≤ maxNesting ∧ Stmt.WrittenSeq d (depth + 1) stmts

/-- Statements that can be written down. -/
def Stmt.WrittenSeq (d : Dialect) (depth : Nat) : List Stmt → Prop
  | [] => True
  | s :: rest => s.Written d depth ∧ Stmt.WrittenSeq d depth rest

/-- A statement that can be written down. -/
def Stmt.Written (d : Dialect) (depth : Nat) : Stmt → Prop
  | .expr _ e => e.Written d depth
  | .assign _ targets value =>
    targets ≠ [] ∧ (∀ t ∈ targets, IsName t.name) ∧ value.Written d depth
  | .decl _ vars value =>
    vars ≠ [] ∧ (∀ v ∈ vars, v.Written) ∧ ∀ e, value = some e → e.Written d depth
  | .func _ name params returns body =>
    IsName name ∧ (∀ v ∈ params, v.Written) ∧ (∀ v ∈ returns, v.Written) ∧ body.Written d depth
  | .cond _ test body => test.Written d depth ∧ body.Written d depth
  | .switch _ subject cases =>
    subject.Written d depth ∧ cases ≠ [] ∧ Case.WrittenSeq d depth cases
  | .loop _ pre test post body =>
    pre.Written d depth ∧ test.Written d depth ∧ post.Written d depth ∧ body.Written d depth
  | .brk _ => True
  | .cont _ => True
  | .block b => b.Written d depth
  | .label _ name => d.flavour = .loose ∧ IsName name
  | .stackAssign _ target => d.flavour = .loose ∧ IsName target.name

/-- Cases that can be written down. The default comes last. -/
def Case.WrittenSeq (d : Dialect) (depth : Nat) : List Case → Prop
  | [] => True
  | ⟨_, none, body⟩ :: rest => body.Written d depth ∧ rest = []
  | ⟨_, some l, body⟩ :: rest => l.Written ∧ body.Written d depth ∧ Case.WrittenSeq d depth rest

end

mutual

/-- An object that can be written down. -/
def Object.Written (d : Dialect) : Object → Prop
  | ⟨name, code, attachments⟩ =>
    IsQuoted name ∧ code.Written d 0 ∧ Attachment.WrittenSeq d attachments

/-- Attachments that can be written down. -/
def Attachment.WrittenSeq (d : Dialect) : List Attachment → Prop
  | [] => True
  | .object o :: rest => o.Written d ∧ Attachment.WrittenSeq d rest
  | .data name _ :: rest => IsQuoted name ∧ Attachment.WrittenSeq d rest

end

/-- The tokens to come are genuine. -/
def Cursor.Genuine (c : Cursor) : Prop := ∀ t ∈ c.rest, t.Genuine

/-- The current token of a genuine cursor is genuine. -/
theorem Cursor.Genuine.current {c : Cursor} (h : c.Genuine) : c.current.Genuine := by
  unfold Cursor.current
  rcases hrest : c.rest with _ | ⟨t, rest⟩
  · exact Token.genuine_of_other (by decide)
  · exact h t (by rw [hrest]; exact List.mem_cons_self)

/-- A genuine cursor stays genuine when it moves on. -/
theorem Cursor.Genuine.advance {c c' : Cursor} (h : c.Genuine) (hrun : c.advance = .ok c') :
    c'.Genuine := by
  -- A fault stops the parser, so the next token is none.
  have hchecked : ∀ next : Cursor, next.Genuine → next.checked = .ok c' → c'.Genuine := by
    intro next hnext hrun
    unfold Cursor.checked at hrun
    split at hrun
    · exact absurd hrun (by rintro ⟨⟩)
    · cases hrun
      exact hnext
  unfold Cursor.advance at hrun
  split at hrun
  · cases hrun
    exact h
  · rename_i t hrest
    cases hrun
    intro t' ht'
    exact h t' (by rw [hrest]; exact ht')
  · rename_i t rest hmore hrest
    refine hchecked ⟨t, rest⟩ (fun t' ht' => h t' ?_) hrun
    rw [hrest]
    exact List.mem_cons_of_mem _ ht'

namespace Parse

/-- Where a reader stands on genuine tokens, it only returns what has a property, and
    it leaves genuine tokens. -/
def GainsAt {α : Type} (c : Cursor) (m : Parse α) (P : α → Prop) : Prop :=
  ∀ a c', m.run c = .ok (a, c') → P a ∧ c'.Genuine

/-- A reader of genuine tokens only returns what has a property. -/
def Gains {α : Type} (m : Parse α) (P : α → Prop) : Prop := ∀ c, c.Genuine → GainsAt c m P

section Rules

variable {α β : Type} {P : α → Prop} {Q : β → Prop} {c : Cursor}

theorem Gains.pure {a : α} (h : P a) : Gains (pure a) P := by
  intro c hc b c' hrun
  cases hrun
  exact ⟨h, hc⟩

/-- What the first step gains from here is there for the second. -/
theorem GainsAt.bind {m : Parse α} {f : α → Parse β} (hm : GainsAt c m P)
    (hf : ∀ a, P a → Gains (f a) Q) : GainsAt c (m >>= f) Q := by
  intro b c' hrun
  rw [StateT.run_bind] at hrun
  rcases hr : m.run c with e | ⟨a, c₁⟩
  · rw [hr] at hrun
    exact absurd hrun (by rintro ⟨⟩)
  · rw [hr] at hrun
    rcases hm a c₁ hr with ⟨ha, hc₁⟩
    exact hf a ha c₁ hc₁ b c' hrun

theorem Gains.bind {m : Parse α} {f : α → Parse β} (hm : Gains m P)
    (hf : ∀ a, P a → Gains (f a) Q) : Gains (m >>= f) Q := fun c hc => (hm c hc).bind hf

/-- Both branches gain it. -/
theorem Gains.ite {b : Prop} [Decidable b] {m n : Parse α} (hm : Gains m P) (hn : Gains n P) :
    Gains (if b then m else n) P := by
  split
  · exact hm
  · exact hn

theorem Gains.throw {e : ParseError} : Gains (throw e : Parse α) P := by
  intro c _ a c' hrun
  exact absurd hrun (by rintro ⟨⟩)

theorem Gains.complain {t : Token} {why : Complaint} : Gains (complain t why : Parse α) P :=
  Gains.throw

/-- What is gained holds of what was read. -/
theorem Gains.result {m : Parse α} (hm : GainsAt c m P) {a : α}
    (h : (·.1) <$> m.run c = .ok a) : P a := by
  rcases hr : m.run c with e | ⟨a', c'⟩
  · rw [hr] at h
    exact absurd h (by rintro ⟨⟩)
  · rw [hr] at h
    cases h
    exact (hm a' c' hr).1

end Rules

section Tokens

theorem current_gains : Gains current Token.Genuine := by
  intro c hc a c' hrun
  cases hrun
  exact ⟨hc.current, hc⟩

/-- Moving on gives the token that the cursor was at. -/
theorem advance_gainsAt {c : Cursor} (hc : c.Genuine) : GainsAt c advance (· = c.current) := by
  intro a c' hrun
  unfold advance at hrun
  rcases hnext : c.advance with e | next
  · simp only [StateT.run_bind, StateT.run_get, pure_bind, hnext] at hrun
    exact absurd hrun (by rintro ⟨⟩)
  · simp only [StateT.run_bind, StateT.run_get, pure_bind, hnext] at hrun
    cases hrun
    exact ⟨rfl, hc.advance hnext⟩

theorem advance_gains : Gains advance Token.Genuine := fun c hc a c' hrun => by
  rcases advance_gainsAt hc a c' hrun with ⟨rfl, hc'⟩
  exact ⟨hc.current, hc'⟩

theorem check_gains (kind : TokenKind) : Gains (check kind) fun _ => True :=
  current_gains.bind fun _ _ => .pure trivial

theorem accept_gains (kind : TokenKind) : Gains (accept kind) fun _ => True :=
  (check_gains kind).bind fun _ _ => .ite (advance_gains.bind fun _ _ => .pure trivial)
    (.pure trivial)

/-- A token that has to be there is genuine and of the kind asked for. -/
theorem consume_gains (kind : TokenKind) (why : Complaint) :
    Gains (consume kind why) fun t => t.kind = kind ∧ t.Genuine := by
  intro c hc a c' hrun
  have hrun :
      (if c.current.kind == kind then advance else complain c.current why : Parse Token).run c
      = .ok (a, c') := hrun
  split at hrun
  · rename_i hkind
    rcases advance_gainsAt hc a c' hrun with ⟨rfl, hc'⟩
    exact ⟨⟨beq_iff_eq.mp hkind, hc.current⟩, hc'⟩
  · exact absurd hrun (by rintro ⟨⟩)

/-- Nesting stays within its limit. -/
theorem nest_gains (depth : Nat) :
    Gains (nest depth) fun n => n = depth + 1 ∧ depth + 1 ≤ maxNesting := by
  unfold nest
  split
  · exact current_gains.bind fun _ _ => .complain
  · exact .pure ⟨rfl, by omega⟩

/-- A name has the form of one. -/
theorem identifier_gains : Gains identifier fun id => IsName id.name := by
  refine (consume_gains .identifier _).bind fun t ht => .pure ?_
  rcases ht with ⟨hkind, ht⟩
  rw [Token.Genuine, hkind] at ht
  exact ht

theorem optionalType_gains : Gains optionalType TypeWritten := by
  refine (accept_gains .colon).bind fun _ _ => .ite ?_ (.pure (Or.inl rfl))
  exact identifier_gains.bind fun id hid => .pure (Or.inr hid)

theorem typedName_gains : Gains typedName TypedName.Written :=
  identifier_gains.bind fun _ hid => optionalType_gains.bind fun _ htype => .pure ⟨hid, htype⟩

end Tokens

section Expressions

/-- What stands between the quotes of a text in quotes. -/
theorem contents_quoted {t : Token} {s : String} (h : t.text = "\"" ++ s ++ "\"") :
    t.contents = s := by
  have hchars : t.text.toList = '"' :: (s.toList ++ ['"']) := by
    rw [h]
    simp only [String.toList_append]
    rfl
  apply String.toList_injective
  rw [Token.contents, String.toList_ofList, hchars, List.dropWhile_cons]
  simp only [ne_eq, not_true_eq_false, decide_false, Bool.false_eq_true, if_false,
    List.drop_succ_cons, List.drop_zero, List.dropLast_concat]

/-- A literal of the kind its token tells is written. -/
theorem plainLiteral_written {d : Dialect} {depth : Nat} {c : Cursor} (hc : c.Genuine)
    {kind : LiteralKind} (hkind : kind = .number ∧ c.current.kind = .number ∨
      kind = .boolean ∧ (c.current.kind = .trueWord ∨ c.current.kind = .falseWord)) :
    GainsAt c (plainLiteral kind) (Expr.Written d depth) := by
  refine (advance_gainsAt hc).bind ?_
  rintro _ rfl
  refine optionalType_gains.bind fun type htype => .pure ?_
  have ht := hc.current
  rw [Token.Genuine] at ht
  rw [Expr.Written]
  rcases hkind with ⟨rfl, hk⟩ | ⟨rfl, hk | hk⟩
  · rw [hk] at ht
    exact ⟨htype, ht⟩
  · rw [hk] at ht
    exact ⟨htype, Or.inl ht⟩
  · rw [hk] at ht
    exact ⟨htype, Or.inr ht⟩

/-- A string is written with what can stand in quotes. -/
theorem stringLiteral_written {d : Dialect} {depth : Nat} {c : Cursor} (hc : c.Genuine)
    (hkind : c.current.kind = .string) : GainsAt c stringLiteral (Expr.Written d depth) := by
  refine (advance_gainsAt hc).bind ?_
  rintro _ rfl
  have ht := hc.current
  rw [Token.Genuine, hkind] at ht
  rcases ht with ⟨s, htext, hquoted⟩
  rw [contents_quoted htext]
  dsimp only
  split
  · rename_i bytes hbytes
    split
    · exact .complain
    · refine optionalType_gains.bind fun type htype => .pure ?_
      rw [Expr.Written]
      exact ⟨htype, hquoted, bytes, hbytes, by omega⟩
  · exact .complain

/-- What a call becomes does not depend on its arguments, and an instruction is
    called by its own name. -/
theorem resolveCall_written {d : Dialect} {depth : Nat} {id : Identifier} {args : List Expr}
    (hname : IsName id.name) (hdepth : depth + 1 ≤ maxNesting)
    (hargs : Expr.WrittenAll d (depth + 1) args) :
    Gains (liftM (resolveCall d id args)) (Expr.Written d depth) := by
  intro c hc e c' hrun
  -- Resolving reads no tokens.
  have hres : resolveCall d id args = .ok e ∧ c' = c := by
    rcases h : resolveCall d id args with why | e'
    · rw [h] at hrun
      exact absurd hrun (by rintro ⟨⟩)
    · rw [h] at hrun
      cases hrun
      exact ⟨rfl, rfl⟩
  refine ⟨?_, hres.2 ▸ hc⟩
  have hres := hres.1
  unfold resolveCall at hres
  split at hres
  -- An instruction is written as its mnemonic, which is the name that was read.
  · rename_i op hop
    cases hres
    have hmnemonic := Dialect.mnemonic_of_functionalInstruction? hop
    rw [Expr.Written, hmnemonic]
    refine ⟨hname, fun line args => ?_, hdepth, hargs⟩
    simp only [resolveCall, hop]
  -- Any other name stays the one of a call.
  · rename_i hop
    split at hres
    · exact absurd hres (by rintro ⟨⟩)
    · rename_i hother
      cases hres
      rw [Expr.Written]
      refine ⟨hname, fun line args => ?_, hdepth, hargs⟩
      simp only [resolveCall, hop, if_neg hother]

mutual

/-- What is read as an expression is written as one. -/
theorem expression_written (d : Dialect) : ∀ fuel depth,
    Gains (expression d fuel depth) (Expr.Written d depth)
  | 0, depth => by
      unfold expression
      exact current_gains.bind fun _ _ => .complain
  | fuel + 1, depth => by
      intro c hc
      -- A name, and a call if a parenthesis follows.
      have hident : Gains (do
          let id ← identifier
          if ← check .leftParen then call d fuel depth id else return .ident id.line id.name)
          (Expr.Written d depth) := by
        refine identifier_gains.bind fun id hid => (check_gains .leftParen).bind fun _ _ => ?_
        refine .ite (call_written d fuel depth id hid) (.pure ?_)
        rw [Expr.Written]
        exact hid
      unfold expression
      -- The literal depends on the token at the cursor, so the match is kept on it.
      show GainsAt c (match c.current.kind with
        | .identifier => _
        | .number => _
        | .trueWord => _
        | .falseWord => _
        | .string => _
        | _ => _) _
      split
      · exact hident c hc
      · exact plainLiteral_written hc (Or.inl ⟨rfl, ‹_›⟩)
      · exact plainLiteral_written hc (Or.inr ⟨rfl, Or.inl ‹_›⟩)
      · exact plainLiteral_written hc (Or.inr ⟨rfl, Or.inr ‹_›⟩)
      · exact stringLiteral_written hc ‹_›
      · exact Gains.complain c hc

/-- What is read as a call is written as one, within the limit of nesting. -/
theorem call_written (d : Dialect) : ∀ fuel depth id, IsName id.name →
    Gains (call d fuel depth id) (Expr.Written d depth)
  | 0, depth, id, _ => by
      unfold call
      exact current_gains.bind fun _ _ => .complain
  | fuel + 1, depth, id, hid => by
      unfold call
      refine (consume_gains .leftParen _).bind fun _ _ => ?_
      refine (nest_gains depth).bind ?_
      rintro _ ⟨rfl, hdepth⟩
      refine (check_gains .rightParen).bind fun _ _ => ?_
      -- The closing parenthesis and the resolution behind the arguments.
      have hend : ∀ args, Expr.WrittenAll d (depth + 1) args → Gains (do
          let _ ← consume .rightParen .expectedArgumentsEnd
          resolveCall d id args) (Expr.Written d depth) := fun args hargs =>
        (consume_gains .rightParen _).bind fun _ _ => resolveCall_written hid hdepth hargs
      refine .ite (hend [] ?_) ((arguments_written d fuel (depth + 1)).bind hend)
      rw [Expr.WrittenAll]
      trivial

theorem arguments_written (d : Dialect) : ∀ fuel depth,
    Gains (arguments d fuel depth) (Expr.WrittenAll d depth)
  | 0, depth => by
      unfold arguments
      exact current_gains.bind fun _ _ => .complain
  | fuel + 1, depth => by
      unfold arguments
      refine (expression_written d fuel depth).bind fun e he => ?_
      refine (accept_gains .comma).bind fun _ _ => .ite ?_ (.pure ?_)
      · refine (arguments_written d fuel depth).bind fun es hes => .pure ?_
        rw [Expr.WrittenAll]
        exact ⟨he, hes⟩
      · rw [Expr.WrittenAll, Expr.WrittenAll]
        exact ⟨he, trivial⟩

end

end Expressions

section Names

/-- The further names of a list are written. -/
theorem moreTypedNames_written (fuel : Nat) :
    Gains (moreTypedNames fuel) fun vs => ∀ v ∈ vs, v.Written := by
  induction fuel with
  | zero => exact .pure fun _ h => absurd h (List.not_mem_nil)
  | succ fuel ih =>
      unfold moreTypedNames
      refine (accept_gains .comma).bind fun _ _ => .ite ?_ (.pure fun _ h =>
        absurd h (List.not_mem_nil))
      refine typedName_gains.bind fun v hv => ?_
      refine ih.bind fun vs hvs => .pure ?_
      intro v' hv'
      rcases List.mem_cons.mp hv' with rfl | hv'
      · exact hv
      · exact hvs v' hv'

/-- A list of names is not empty and written. -/
theorem typedNames_written (fuel : Nat) :
    Gains (typedNames fuel) fun vs => vs ≠ [] ∧ ∀ v ∈ vs, v.Written := by
  refine typedName_gains.bind fun v hv => ?_
  refine (moreTypedNames_written fuel).bind fun vs hvs => .pure ⟨List.cons_ne_nil _ _, ?_⟩
  intro v' hv'
  rcases List.mem_cons.mp hv' with rfl | hv'
  · exact hv
  · exact hvs v' hv'

/-- The further targets of an assignment are names. -/
theorem moreIdentifiers_written (fuel : Nat) :
    Gains (moreIdentifiers fuel) fun ids => ∀ id ∈ ids, IsName id.name := by
  induction fuel with
  | zero => exact .pure fun _ h => absurd h (List.not_mem_nil)
  | succ fuel ih =>
      unfold moreIdentifiers
      refine (accept_gains .comma).bind fun _ _ => .ite ?_ (.pure fun _ h =>
        absurd h (List.not_mem_nil))
      refine identifier_gains.bind fun id hid => ?_
      refine ih.bind fun ids hids => .pure ?_
      intro id' hid'
      rcases List.mem_cons.mp hid' with rfl | hid'
      · exact hid
      · exact hids id' hid'

/-- Behind this the dialect is the loose one. -/
theorem requireLoose_gains (d : Dialect) (why : Complaint) :
    Gains (requireLoose d why) fun _ => d.flavour = .loose := by
  unfold requireLoose
  split
  · exact .pure ‹_›
  · exact current_gains.bind fun _ _ => .complain

end Names

section Statements

/-- What is read as a declaration is written as one. -/
theorem declaration_written (d : Dialect) (fuel depth : Nat) :
    Gains (declaration d fuel depth) (Stmt.Written d depth) := by
  refine advance_gains.bind fun _ _ => ?_
  refine (typedNames_written fuel).bind fun vars hvars => ?_
  refine (accept_gains .colonEqual).bind fun _ _ => .ite ?_ (.pure ?_)
  · refine (expression_written d fuel depth).bind fun e he => .pure ?_
    rw [Stmt.Written]
    exact ⟨hvars.1, hvars.2, fun e' he' => Option.some.inj he' ▸ he⟩
  · rw [Stmt.Written]
    exact ⟨hvars.1, hvars.2, fun e' he' => absurd he' (by rintro ⟨⟩)⟩

/-- What is read as a stack assignment is written as one. -/
theorem stackAssignment_written (d : Dialect) (depth : Nat) :
    Gains (stackAssignment d) (Stmt.Written d depth) := by
  refine (requireLoose_gains d _).bind fun _ hloose => advance_gains.bind fun _ _ => ?_
  refine identifier_gains.bind fun id hid => .pure ?_
  rw [Stmt.Written]
  exact ⟨hloose, hid⟩

/-- What begins with a name is written as a call, an assignment, a label or that name. -/
theorem identifierStatement_written (d : Dialect) (fuel depth : Nat) :
    Gains (identifierStatement d fuel depth) (Stmt.Written d depth) := by
  refine identifier_gains.bind fun first hfirst => current_gains.bind fun t _ => ?_
  -- An assignment, whether to one target or to more.
  have hassign : Gains (do
      let targets := first :: (← moreIdentifiers fuel)
      let _ ← consume .colonEqual .expectedAssign
      return .assign first.line targets (← expression d fuel depth)) (Stmt.Written d depth) := by
    refine (moreIdentifiers_written fuel).bind fun ids hids => ?_
    refine (consume_gains .colonEqual _).bind fun _ _ => ?_
    refine (expression_written d fuel depth).bind fun e he => .pure ?_
    rw [Stmt.Written]
    refine ⟨List.cons_ne_nil _ _, fun id hid => ?_, he⟩
    rcases List.mem_cons.mp hid with rfl | hid
    · exact hfirst
    · exact hids id hid
  -- Which of them it is, by the token behind the name.
  split
  · refine (call_written d fuel depth first hfirst).bind fun e he => .pure ?_
    rw [Stmt.Written]
    exact he
  · exact hassign
  · exact hassign
  · refine (requireLoose_gains d _).bind fun _ hloose => advance_gains.bind fun _ _ => .pure ?_
    rw [Stmt.Written]
    exact ⟨hloose, hfirst⟩
  · refine .pure ?_
    rw [Stmt.Written, Expr.Written]
    exact hfirst

/-- The head of a function has a name and written variables. -/
theorem functionHead_written (fuel : Nat) : Gains (functionHead fuel) fun head =>
    IsName head.2.1 ∧ (∀ v ∈ head.2.2.1, v.Written) ∧ ∀ v ∈ head.2.2.2, v.Written := by
  refine advance_gains.bind fun _ _ => identifier_gains.bind fun id hid => ?_
  refine (consume_gains .leftParen _).bind fun _ _ => (check_gains .rightParen).bind fun _ _ => ?_
  have hrest : ∀ params : List TypedName, (∀ v ∈ params, v.Written) → ∀ line : Nat,
      Gains (do
        let _ ← consume .rightParen .expectedParametersEnd
        let returns ← if ← accept .rightArrow then typedNames fuel else pure []
        return (line, id.name, params, returns)) fun head =>
          IsName head.2.1 ∧ (∀ v ∈ head.2.2.1, v.Written) ∧ ∀ v ∈ head.2.2.2, v.Written := by
    intro params hparams line
    refine (consume_gains .rightParen _).bind fun _ _ => ?_
    refine (accept_gains .rightArrow).bind fun _ _ => .ite ?_ (.pure ?_)
    · exact (typedNames_written fuel).bind fun vs hvs => .pure ⟨hid, hparams, hvs.2⟩
    · exact ⟨hid, hparams, fun _ h => absurd h (List.not_mem_nil)⟩
  refine .ite (hrest [] (fun _ h => absurd h (List.not_mem_nil)) _) ?_
  exact (typedNames_written fuel).bind fun vs hvs => hrest vs hvs.2 _

/-- A switch without cases is refused. -/
theorem checkCases_gains (cs : List Case) : Gains (checkCases cs) fun _ => cs ≠ [] := by
  refine current_gains.bind fun t _ => ?_
  split
  · exact .complain
  · rename_i hempty
    refine .ite .complain (.pure fun hc => hempty ?_)
    rw [hc]
    rfl

/-- The literal of a case is written. -/
theorem caseValue_written (d : Dialect) (fuel depth : Nat) :
    Gains (caseValue d fuel depth) Literal.Written := by
  refine (expression_written d fuel depth).bind fun e he => ?_
  split
  · rw [Expr.Written] at he
    exact .pure he
  · intro c hc a c' hrun
    exact absurd hrun (by rintro ⟨⟩)

mutual

/-- What is read as a block is written as one, within the limit of nesting. -/
theorem block_written (d : Dialect) : ∀ fuel depth,
    Gains (block d fuel depth) (Block.Written d depth)
  | 0, depth => by
      unfold block
      exact current_gains.bind fun _ _ => .complain
  | fuel + 1, depth => by
      unfold block
      refine (consume_gains .leftBrace _).bind fun t _ => (nest_gains depth).bind ?_
      rintro _ ⟨rfl, hdepth⟩
      refine (statements_written d fuel (depth + 1)).bind fun ss hss => .pure ?_
      rw [Block.Written]
      exact ⟨hdepth, hss⟩

/-- What is read as a sequence is written as one. -/
theorem statements_written (d : Dialect) : ∀ fuel depth,
    Gains (statements d fuel depth) (Stmt.WrittenSeq d depth)
  | 0, depth => by
      unfold statements
      exact current_gains.bind fun _ _ => .complain
  | fuel + 1, depth => by
      unfold statements
      refine (accept_gains .rightBrace).bind fun _ _ => .ite (.pure ?_) ?_
      · rw [Stmt.WrittenSeq]
        trivial
      refine (check_gains .endOfInput).bind fun _ _ =>
        .ite (current_gains.bind fun _ _ => .complain) ?_
      refine (statement_written d fuel depth).bind fun s hs => ?_
      refine (statements_written d fuel depth).bind fun ss hss => .pure ?_
      rw [Stmt.WrittenSeq]
      exact ⟨hs, hss⟩

/-- What is read as a statement is written as one. -/
theorem statement_written (d : Dialect) : ∀ fuel depth,
    Gains (statement d fuel depth) (Stmt.Written d depth)
  | 0, depth => by
      unfold statement
      exact current_gains.bind fun _ _ => .complain
  | fuel + 1, depth => by
      have hexpr := expression_written d fuel depth
      have hblock := block_written d fuel depth
      unfold statement
      refine current_gains.bind fun t _ => ?_
      -- The first token decides which statement it is.
      split
      · refine hblock.bind fun b hb => .pure ?_
        rw [Stmt.Written]
        exact hb
      · refine (functionHead_written fuel).bind ?_
        rintro ⟨line, name, params, returns⟩ ⟨hname, hparams, hreturns⟩
        refine hblock.bind fun b hb => .pure ?_
        rw [Stmt.Written]
        exact ⟨hname, hparams, hreturns, hb⟩
      · exact declaration_written d fuel depth
      · refine advance_gains.bind fun _ _ => hexpr.bind fun e he => hblock.bind fun b hb => .pure ?_
        rw [Stmt.Written]
        exact ⟨he, hb⟩
      · refine advance_gains.bind fun _ _ => hexpr.bind fun e he => ?_
        refine (cases_written d fuel depth).bind fun cs hcs => ?_
        refine (checkCases_gains cs).bind fun _ hne => .pure ?_
        rw [Stmt.Written]
        exact ⟨he, hne, hcs⟩
      · refine advance_gains.bind fun _ _ => hblock.bind fun pre hpre => hexpr.bind fun e he => ?_
        refine hblock.bind fun post hpost => hblock.bind fun body hbody => .pure ?_
        rw [Stmt.Written]
        exact ⟨hpre, he, hpost, hbody⟩
      · refine advance_gains.bind fun _ _ => .pure ?_
        rw [Stmt.Written]
        trivial
      · refine advance_gains.bind fun _ _ => .pure ?_
        rw [Stmt.Written]
        trivial
      · exact stackAssignment_written d depth
      · exact identifierStatement_written d fuel depth
      · refine hexpr.bind fun e he => .pure ?_
        rw [Stmt.Written]
        exact he

/-- What is read as cases is written so, with nothing behind a default. -/
theorem cases_written (d : Dialect) : ∀ fuel depth,
    Gains (cases d fuel depth) (Case.WrittenSeq d depth)
  | 0, depth => by
      unfold cases
      exact current_gains.bind fun _ _ => .complain
  | fuel + 1, depth => by
      have hblock := block_written d fuel depth
      unfold cases
      refine current_gains.bind fun t _ => (accept_gains .caseWord).bind fun _ _ => .ite ?_ ?_
      · refine (caseValue_written d fuel depth).bind fun l hl => hblock.bind fun b hb => ?_
        refine (cases_written d fuel depth).bind fun cs hcs => .pure ?_
        rw [Case.WrittenSeq]
        exact ⟨hl, hb, hcs⟩
      · refine (accept_gains .defaultWord).bind fun _ _ => .ite ?_ (.pure ?_)
        · refine hblock.bind fun b hb => .pure ?_
          rw [Case.WrittenSeq]
          exact ⟨hb, rfl⟩
        · rw [Case.WrittenSeq]
          trivial

end

end Statements

section Objects

/-- A genuine string has contents that can stand in quotes. -/
theorem quoted_of_genuine {t : Token} (hkind : t.kind = .string) (ht : t.Genuine) :
    IsQuoted t.contents := by
  rw [Token.Genuine, hkind] at ht
  rcases ht with ⟨s, htext, hquoted⟩
  rw [contents_quoted htext]
  exact hquoted

/-- What is read as data has a name that can stand in quotes. -/
theorem data_written : Gains data fun a => ∃ name bytes, a = .data name bytes ∧ IsQuoted name := by
  unfold data
  refine (consume_gains .string _).bind fun name hname => current_gains.bind fun next _ => ?_
  have hquoted := quoted_of_genuine hname.1 hname.2
  refine (accept_gains .hexString).bind fun _ _ => .ite ?_ ?_
  · split
    · exact .pure ⟨_, _, rfl, hquoted⟩
    · exact .complain
  · refine (consume_gains .string _).bind fun text _ => ?_
    split
    · exact .pure ⟨_, _, rfl, hquoted⟩
    · exact .throw

mutual

/-- What is read as an object is written as one. -/
theorem object_written (d : Dialect) : ∀ fuel, Gains (object d fuel) (Object.Written d)
  | 0 => by
      unfold object
      exact current_gains.bind fun _ _ => .complain
  | fuel + 1 => by
      unfold object
      refine (consume_gains .objectWord _).bind fun _ _ => ?_
      refine (consume_gains .string _).bind fun name hname => ?_
      refine (consume_gains .leftBrace _).bind fun _ _ => ?_
      refine (consume_gains .codeWord _).bind fun _ _ => ?_
      refine (block_written d fuel 0).bind fun code hcode => ?_
      refine (attachments_written d fuel).bind fun as has => .pure ?_
      rw [Object.Written]
      exact ⟨quoted_of_genuine hname.1 hname.2, hcode, has⟩

/-- What is read as attached to an object is written so. -/
theorem attachments_written (d : Dialect) : ∀ fuel,
    Gains (attachments d fuel) (Attachment.WrittenSeq d)
  | 0 => by
      unfold attachments
      exact current_gains.bind fun _ _ => .complain
  | fuel + 1 => by
      unfold attachments
      refine (accept_gains .rightBrace).bind fun _ _ => .ite (.pure ?_) ?_
      · rw [Attachment.WrittenSeq]
        trivial
      refine (check_gains .objectWord).bind fun _ _ => .ite ?_ ?_
      · refine (object_written d fuel).bind fun o ho => ?_
        refine (attachments_written d fuel).bind fun as has => .pure ?_
        rw [Attachment.WrittenSeq]
        exact ⟨ho, has⟩
      -- Neither an object nor the closing brace, so it is data or refused.
      refine (accept_gains .dataWord).bind fun _ _ => .ite ?_
        (current_gains.bind fun _ _ => .complain)
      refine data_written.bind ?_
      rintro _ ⟨name, bytes, rfl, hname⟩
      refine (attachments_written d fuel).bind fun as has => .pure ?_
      rw [Attachment.WrittenSeq]
      exact ⟨hname, has⟩

end

end Objects

/-- The tokens of a source are genuine where reading starts. -/
theorem ofTokens_genuine {source : String} {start : Cursor}
    (h : Cursor.ofTokens (tokens source) = .ok start) : start.Genuine := by
  unfold Cursor.ofTokens Cursor.checked at h
  split at h
  · exact absurd h (by rintro ⟨⟩)
  · cases h
    exact tokens_genuine source

end Parse

/-- A block that was read can be written down. -/
theorem parseBlock_written {d : Dialect} {source : String} {b : Block}
    (h : parseBlock d source = .ok b) : b.Written d 0 := by
  unfold parseBlock at h
  rcases hstart : Cursor.ofTokens (tokens source) with e | start
  · simp only [hstart, bind, Except.bind, reduceCtorEq] at h
  · simp only [hstart] at h
    refine Parse.Gains.result (P := Block.Written d 0) ?_ h
    refine Parse.Gains.bind (Parse.block_written d _ 0) ?_ start (Parse.ofTokens_genuine hstart)
    exact fun b hb => (Parse.consume_gains .endOfInput _).bind fun _ _ => .pure hb

/-- An object that was read can be written down. -/
theorem parseObject_written {d : Dialect} {source : String} {o : Object}
    (h : parseObject d source = .ok o) : o.Written d := by
  unfold parseObject at h
  rcases hstart : Cursor.ofTokens (tokens source) with e | start
  · simp only [hstart, bind, Except.bind, reduceCtorEq] at h
  · simp only [hstart] at h
    refine Parse.Gains.result (P := Object.Written d) ?_ h
    have hend : ∀ o, o.Written d → Parse.Gains (do
        let _ ← Parse.consume .endOfInput .expectedEnd
        return o) (Object.Written d) := fun o ho =>
      (Parse.consume_gains .endOfInput _).bind fun _ _ => .pure ho
    refine Parse.Gains.bind (Parse.check_gains .leftBrace) (fun _ _ => .ite ?_ ?_) start
      (Parse.ofTokens_genuine hstart)
    · refine Parse.Gains.bind (P := Object.Written d) ?_ hend
      refine (Parse.block_written d _ 0).bind fun code hcode => .pure ?_
      rw [Object.ofCode, Object.Written, Attachment.WrittenSeq]
      exact ⟨by rw [IsQuoted]; decide, hcode, trivial⟩
    · exact (Parse.object_written d _).bind hend

end YulToolchain
