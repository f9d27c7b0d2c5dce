import YulToolchain.Parser.Object
import YulToolchain.Proofs.Static.Builtin
import YulToolchain.Proofs.Static.Sight

/-!
# Code That Can Be Read

What reading a source guarantees about the tree, whatever the source was.

Outside of loose assembly a tree that was read has no labels and no stack
assignments, calls none of the instructions that address the stack or the code,
holds only strings whose escapes can be resolved, and keeps the default of a
switch for the end. The analysis checks none of this again.

Nothing of the kind is guaranteed about `break` and `continue` in the
initialisation of a loop. They are read, and the analysis accepts them if there
is a loop further out. `Block.initsStay` singles out the programs without them.

## Main definitions

* `Expr.Readable`, `Stmt.Readable`, `Block.Readable`: What reading guarantees.
* `Stmt.leaves`: Whether a statement may leave a loop around it.
* `Block.initsStay`: No loop may be left from an initialisation.
* `Object.codes`: The code of an object and of the objects inside it.
* `Reads`: A source holds a block, bare or inside an object.
* `Parse.Ensures`: A reader only returns what has a property.

## Theorems

* `Parse.expression_readable`: Expressions are readable.
* `Parse.block_readable`: Blocks are readable.
* `parseBlock_readable`: A source that is read gives a readable block.
* `Reads.readable`: So does every object of a source.
-/

namespace YulToolchain

mutual

/-- Reading can give an expression. -/
def Expr.Readable : Expr → Prop
  | .literal l => l.kind = .string → ∃ bytes, l.stringBytes = .ok bytes
  | .ident _ _ => True
  | .instr _ op args => op.isStackManipulation = false ∧ Expr.ReadableAll args
  | .call _ _ args => Expr.ReadableAll args

/-- Reading can give some expressions. -/
def Expr.ReadableAll : List Expr → Prop
  | [] => True
  | e :: rest => e.Readable ∧ Expr.ReadableAll rest

end

mutual

/-- Reading can give a block. -/
def Block.Readable : Block → Prop
  | ⟨_, stmts⟩ => Stmt.ReadableSeq stmts

/-- Reading can give some statements. -/
def Stmt.ReadableSeq : List Stmt → Prop
  | [] => True
  | s :: rest => s.Readable ∧ Stmt.ReadableSeq rest

/-- Reading can give a statement. -/
def Stmt.Readable : Stmt → Prop
  | .expr _ e => e.Readable
  | .assign _ _ value => value.Readable
  | .decl _ _ value => ∀ e, value = some e → e.Readable
  | .func _ _ _ _ body => body.Readable
  | .cond _ test body => test.Readable ∧ body.Readable
  | .switch _ subject cases => subject.Readable ∧ Case.ReadableSeq cases
  | .loop _ ⟨_, pre⟩ test post body =>
    Stmt.ReadableSeq pre ∧ test.Readable ∧ post.Readable ∧ body.Readable
  | .brk _ => True
  | .cont _ => True
  | .block b => b.Readable
  | .label _ _ => False
  | .stackAssign _ _ => False

/-- Reading can give some cases. -/
def Case.ReadableSeq : List Case → Prop
  | [] => True
  | ⟨_, none, body⟩ :: rest => body.Readable ∧ rest = []
  | ⟨_, some _, body⟩ :: rest => body.Readable ∧ Case.ReadableSeq rest

end

mutual

/-- Whether a block may leave a loop around it. -/
def Block.leaves : Block → Bool
  | ⟨_, stmts⟩ => Stmt.leavesSeq stmts

/-- Whether some statements may leave a loop around them. -/
def Stmt.leavesSeq : List Stmt → Bool
  | [] => false
  | s :: rest => s.leaves || Stmt.leavesSeq rest

/-- Whether a statement may leave a loop around it: it is or holds a `break` or
    `continue` outside of the bodies of the loops inside it. -/
def Stmt.leaves : Stmt → Bool
  | .func _ _ _ _ body => body.leaves
  | .cond _ _ body => body.leaves
  | .switch _ _ cases => Case.leavesSeq cases
  | .loop _ ⟨_, pre⟩ _ post _ => Stmt.leavesSeq pre || post.leaves
  | .brk _ => true
  | .cont _ => true
  | .block b => b.leaves
  | _ => false

/-- Whether some cases may leave a loop around them. -/
def Case.leavesSeq : List Case → Bool
  | [] => false
  | ⟨_, _, body⟩ :: rest => body.leaves || Case.leavesSeq rest

end

/-- Whether a statement is no loop that may leave another one from its
    initialisation. -/
def Stmt.initStays : Stmt → Bool
  | .loop _ pre _ _ _ => !pre.leaves
  | _ => true

/-- Whether no loop inside a block may leave another one from its
    initialisation. -/
def Block.initsStay (b : Block) : Bool := b.allStmts.all Stmt.initStays

mutual

/-- The code of an object and of the objects inside it. -/
def Object.codes : Object → List Block
  | ⟨_, code, attachments⟩ => code :: Attachment.codesSeq attachments

/-- The code of the objects among some attachments. -/
def Attachment.codesSeq : List Attachment → List Block
  | [] => []
  | .object o :: rest => o.codes ++ Attachment.codesSeq rest
  | .data _ _ :: rest => Attachment.codesSeq rest

end

theorem Object.code_mem_codes (o : Object) : o.code ∈ o.codes := by
  rcases o with ⟨name, code, attachments⟩
  rw [codes]
  exact List.mem_cons_self

/-- A source holds a block: it is the block, or an object with the block inside. -/
def Reads (d : Dialect) (source : String) (code : Block) : Prop :=
  parseBlock d source = .ok code ∨ ∃ o, parseObject d source = .ok o ∧ code ∈ o.codes

namespace Parse

/-- A reader only returns what has a property. -/
def Ensures {α : Type} (m : Parse α) (P : α → Prop) : Prop :=
  ∀ c a c', m.run c = .ok (a, c') → P a

section Rules

variable {α β : Type} {P : α → Prop} {Q : β → Prop}

theorem ensures_pure {a : α} (h : P a) : Ensures (pure a) P := by
  intro c b c' hrun
  cases hrun
  exact h

theorem ensures_true (m : Parse α) : Ensures m fun _ => True := fun _ _ _ _ => trivial

/-- What the first step ensures may be used for the second. -/
theorem ensures_bind {m : Parse α} {f : α → Parse β} (hm : Ensures m P)
    (hf : ∀ a, P a → Ensures (f a) Q) : Ensures (m >>= f) Q := by
  intro c b c' hrun
  rw [StateT.run_bind] at hrun
  rcases hr : m.run c with e | ⟨a, c1⟩
  · rw [hr] at hrun
    exact absurd hrun (by simp only [bind, Except.bind, reduceCtorEq, not_false_eq_true])
  · rw [hr] at hrun
    exact hf a (hm c a c1 hr) c1 b c' hrun

/-- Whatever the first reader returns, the second one has the property. -/
theorem ensures_then {m : Parse α} {f : α → Parse β} (hf : ∀ a, Ensures (f a) Q) :
    Ensures (m >>= f) Q :=
  ensures_bind (ensures_true m) fun a _ => hf a

/-- Both branches ensure it. -/
theorem ensures_ite {b : Prop} [Decidable b] {m n : Parse α} (hm : Ensures m P)
    (hn : Ensures n P) : Ensures (if b then m else n) P := by
  split
  · exact hm
  · exact hn

theorem ensures_throw {e : ParseError} : Ensures (throw e : Parse α) P := by
  intro c a c' hrun
  exact absurd hrun (by rintro ⟨⟩)

theorem ensures_complain {t : Token} {why : Complaint} : Ensures (complain t why : Parse α) P :=
  ensures_throw

/-- What is ensured holds of what was read. -/
theorem ensures_result {m : Parse α} (hm : Ensures m P) {c : Cursor} {a : α}
    (h : (·.1) <$> m.run c = .ok a) : P a := by
  rcases hr : m.run c with e | ⟨a', c'⟩
  · rw [hr] at h
    exact absurd h (by rintro ⟨⟩)
  · rw [hr] at h
    cases h
    exact hm c a' c' hr

end Rules

/-- What a call becomes is readable if its arguments are. -/
theorem resolveCall_readable {d : Dialect} (hd : d.flavour ≠ .loose) (id : Identifier)
    {args : List Expr} (hargs : Expr.ReadableAll args) :
    Ensures (liftM (resolveCall d id args)) Expr.Readable := by
  intro c e c' hrun
  -- Resolving reads nothing, so only its result matters.
  have hres : resolveCall d id args = .ok e := by
    rcases h : resolveCall d id args with why | e'
    · rw [h] at hrun
      exact absurd hrun (by rintro ⟨⟩)
    · rw [h] at hrun
      cases hrun
      rfl
  unfold resolveCall at hres
  split at hres
  · rename_i op hop
    -- Out of the loose dialect an instruction is there through its builtin, which moves no stack.
    rcases Dialect.functionalInstruction?_eq hd hop with ⟨b, hb, hcode⟩
    cases hres
    exact ⟨(Dialect.builtin?_instruction hb hcode).1, hargs⟩
  · split at hres
    · exact absurd hres (by rintro ⟨⟩)
    · cases hres
      exact hargs

/-- A literal that is no string has nothing that could fail to be read. -/
theorem plainLiteral_readable {kind : LiteralKind} (hk : kind ≠ .string) :
    Ensures (plainLiteral kind) Expr.Readable := by
  unfold plainLiteral
  refine ensures_then fun t => ensures_then fun type => ensures_pure ?_
  exact fun h => absurd h hk

/-- The bytes of a string are resolved while it is read. -/
theorem stringLiteral_readable : Ensures stringLiteral Expr.Readable := by
  unfold stringLiteral
  refine ensures_then fun t => ?_
  simp only
  split
  · rename_i bytes hbytes
    refine ensures_ite ensures_complain (ensures_then fun type => ensures_pure ?_)
    exact fun _ => ⟨bytes, hbytes⟩
  · exact ensures_complain

mutual

/-- Expressions are readable out of the loose dialect. -/
theorem expression_readable {d : Dialect} (hd : d.flavour ≠ .loose) :
    ∀ fuel depth, Ensures (expression d fuel depth) Expr.Readable
  | 0, _ => ensures_then fun _ => ensures_complain
  | fuel + 1, depth => by
      unfold expression
      refine ensures_then fun t => ?_
      split
      · refine ensures_then fun id => ensures_then fun b => ?_
        refine ensures_ite (call_readable hd fuel depth id) (ensures_pure ?_)
        trivial
      · exact plainLiteral_readable (by decide)
      · exact plainLiteral_readable (by decide)
      · exact plainLiteral_readable (by decide)
      · exact stringLiteral_readable
      · exact ensures_complain

/-- Calls are readable out of the loose dialect. -/
theorem call_readable {d : Dialect} (hd : d.flavour ≠ .loose) :
    ∀ fuel depth id, Ensures (call d fuel depth id) Expr.Readable
  | 0, _, _ => ensures_then fun _ => ensures_complain
  | fuel + 1, depth, id => by
      unfold call
      refine ensures_then fun _ => ensures_then fun depth' => ensures_then fun b => ?_
      have hrest : ∀ args, Expr.ReadableAll args → Ensures (do
          let _ ← consume .rightParen .expectedArgumentsEnd
          resolveCall d id args) Expr.Readable :=
        fun args h => ensures_then fun _ => resolveCall_readable hd id h
      refine ensures_ite (ensures_bind (ensures_pure trivial) hrest) ?_
      exact ensures_bind (arguments_readable hd fuel depth') hrest

/-- Arguments are readable out of the loose dialect. -/
theorem arguments_readable {d : Dialect} (hd : d.flavour ≠ .loose) :
    ∀ fuel depth, Ensures (arguments d fuel depth) Expr.ReadableAll
  | 0, _ => ensures_then fun _ => ensures_complain
  | fuel + 1, depth => by
      unfold arguments
      refine ensures_bind (expression_readable hd fuel depth) fun e he => ensures_then fun b => ?_
      refine ensures_ite ?_ (ensures_pure ⟨he, trivial⟩)
      exact ensures_bind (arguments_readable hd fuel depth) fun es hes => ensures_pure ⟨he, hes⟩

end

/-- Declarations are readable out of the loose dialect. -/
theorem declaration_readable {d : Dialect} (hd : d.flavour ≠ .loose) (fuel depth : Nat) :
    Ensures (declaration d fuel depth) Stmt.Readable := by
  unfold declaration
  refine ensures_then fun t => ensures_then fun vars => ensures_then fun b => ensures_ite ?_ ?_
  · refine ensures_bind (expression_readable hd fuel depth) fun e he => ensures_pure ?_
    exact fun e' h => Option.some.inj h ▸ he
  · exact ensures_pure fun e' h => absurd h (by rintro ⟨⟩)

/-- What needs the loose dialect is never passed elsewhere. -/
theorem requireLoose_ensures {d : Dialect} (hd : d.flavour ≠ .loose) {why : Complaint} :
    Ensures (requireLoose d why) fun _ => False := by
  unfold requireLoose
  rw [if_neg hd]
  exact ensures_then fun _ => ensures_complain

theorem stackAssignment_readable {d : Dialect} (hd : d.flavour ≠ .loose) :
    Ensures (stackAssignment d) Stmt.Readable :=
  ensures_bind (requireLoose_ensures hd) fun _ h => h.elim

/-- A statement that begins with a name is readable, as labels are not read. -/
theorem identifierStatement_readable {d : Dialect} (hd : d.flavour ≠ .loose) (fuel depth : Nat) :
    Ensures (identifierStatement d fuel depth) Stmt.Readable := by
  have hassign : ∀ first, Ensures (do
      let targets := first :: (← moreIdentifiers fuel)
      let _ ← consume .colonEqual .expectedAssign
      return Stmt.assign first.line targets (← expression d fuel depth)) Stmt.Readable :=
    fun first => ensures_then fun more => ensures_then fun _ =>
      ensures_bind (expression_readable hd fuel depth) fun e he => ensures_pure he
  unfold identifierStatement
  refine ensures_then fun first => ensures_then fun t => ?_
  split
  · exact ensures_bind (call_readable hd fuel depth first) fun e he => ensures_pure he
  · exact hassign first
  · exact hassign first
  · exact ensures_bind (requireLoose_ensures hd) fun _ h => h.elim
  · exact ensures_pure trivial

mutual

/-- Blocks are readable out of the loose dialect. -/
theorem block_readable {d : Dialect} (hd : d.flavour ≠ .loose) :
    ∀ fuel depth, Ensures (block d fuel depth) Block.Readable
  | 0, _ => by
      unfold block
      exact ensures_then fun _ => ensures_complain
  | fuel + 1, depth => by
      unfold block
      refine ensures_then fun t => ensures_then fun depth' => ?_
      exact ensures_bind (statements_readable hd fuel depth') fun ss hss => ensures_pure hss

/-- Sequences are readable out of the loose dialect. -/
theorem statements_readable {d : Dialect} (hd : d.flavour ≠ .loose) :
    ∀ fuel depth, Ensures (statements d fuel depth) Stmt.ReadableSeq
  | 0, _ => by
      unfold statements
      exact ensures_then fun _ => ensures_complain
  | fuel + 1, depth => by
      unfold statements
      refine ensures_then fun b => ensures_ite (ensures_pure trivial) ?_
      refine ensures_then fun b' => ensures_ite (ensures_then fun _ => ensures_complain) ?_
      refine ensures_bind (statement_readable hd fuel depth) fun s hs => ?_
      exact ensures_bind (statements_readable hd fuel depth) fun ss hss => ensures_pure ⟨hs, hss⟩

/-- Statements are readable out of the loose dialect. -/
theorem statement_readable {d : Dialect} (hd : d.flavour ≠ .loose) :
    ∀ fuel depth, Ensures (statement d fuel depth) Stmt.Readable
  | 0, _ => by
      unfold statement
      exact ensures_then fun _ => ensures_complain
  | fuel + 1, depth => by
      have hexpr := expression_readable hd fuel depth
      have hblock := block_readable hd fuel depth
      unfold statement
      refine ensures_then fun t => ?_
      -- The cases are the words a statement begins with, as the parser has them.
      split
      · exact ensures_bind hblock fun b hb => ensures_pure hb
      · exact ensures_then fun head => ensures_bind hblock fun b hb => ensures_pure hb
      · exact declaration_readable hd fuel depth
      · refine ensures_then fun _ => ensures_bind hexpr fun e he => ?_
        exact ensures_bind hblock fun b hb => ensures_pure ⟨he, hb⟩
      · refine ensures_then fun _ => ensures_bind hexpr fun e he => ?_
        refine ensures_bind (cases_readable hd fuel depth) fun cs hcs => ?_
        exact ensures_then fun _ => ensures_pure ⟨he, hcs⟩
      · refine ensures_then fun _ => ensures_bind hblock fun ⟨_, pre⟩ hpre => ?_
        refine ensures_bind hexpr fun e he => ensures_bind hblock fun post hpost => ?_
        exact ensures_bind hblock fun body hbody => ensures_pure ⟨hpre, he, hpost, hbody⟩
      · exact ensures_then fun _ => ensures_pure trivial
      · exact ensures_then fun _ => ensures_pure trivial
      -- The statements of the loose dialect are refused.
      · exact stackAssignment_readable hd
      · exact identifierStatement_readable hd fuel depth
      · exact ensures_bind hexpr fun e he => ensures_pure he

/-- The cases of a switch are readable out of the loose dialect. -/
theorem cases_readable {d : Dialect} (hd : d.flavour ≠ .loose) :
    ∀ fuel depth, Ensures (cases d fuel depth) Case.ReadableSeq
  | 0, _ => by
      unfold cases
      exact ensures_then fun _ => ensures_complain
  | fuel + 1, depth => by
      have hblock := block_readable hd fuel depth
      unfold cases
      refine ensures_then fun t => ensures_then fun b => ensures_ite ?_ ?_
      · refine ensures_then fun value => ensures_bind hblock fun body hbody => ?_
        refine ensures_bind (cases_readable hd fuel depth) fun cs hcs => ensures_pure ?_
        exact ⟨hbody, hcs⟩
      · refine ensures_then fun b' => ensures_ite ?_ (ensures_pure trivial)
        exact ensures_bind hblock fun body hbody => ensures_pure ⟨hbody, rfl⟩

end

theorem data_noCode : Ensures data fun a => ∃ name bytes, a = .data name bytes := by
  unfold data
  refine ensures_then fun name => ensures_then fun next => ensures_then fun _ => ?_
  refine ensures_ite ?_ (ensures_then fun text => ?_)
  · split
    · exact ensures_pure ⟨_, _, rfl⟩
    · exact ensures_complain
  · split
    · exact ensures_pure ⟨_, _, rfl⟩
    · exact ensures_throw

mutual

theorem object_readable {d : Dialect} (hd : d.flavour ≠ .loose) :
    ∀ fuel, Ensures (object d fuel) fun o => ∀ b ∈ o.codes, b.Readable
  | 0 => by
      unfold object
      exact ensures_then fun _ => ensures_complain
  | fuel + 1 => by
      unfold object
      refine ensures_then fun _ => ensures_then fun name => ensures_then fun _ => ?_
      refine ensures_then fun _ => ensures_bind (block_readable hd fuel 0) fun code hcode => ?_
      refine ensures_bind (attachments_readable hd fuel) fun as has => ensures_pure ?_
      intro b hb
      rw [Object.codes] at hb
      rcases List.mem_cons.mp hb with rfl | hb
      · exact hcode
      · exact has b hb

/-- The code in what is attached to an object is readable. -/
theorem attachments_readable {d : Dialect} (hd : d.flavour ≠ .loose) :
    ∀ fuel, Ensures (attachments d fuel) fun as => ∀ b ∈ Attachment.codesSeq as, b.Readable
  | 0 => by
      unfold attachments
      exact ensures_then fun _ => ensures_complain
  | fuel + 1 => by
      unfold attachments
      refine ensures_then fun _ => ensures_ite (ensures_pure ?_) ?_
      · intro b hb
        rw [Attachment.codesSeq] at hb
        exact absurd hb (List.not_mem_nil)
      -- An object, data, or something that is refused.
      refine ensures_then fun _ => ensures_ite ?_ (ensures_then fun _ => ensures_ite ?_ ?_)
      · refine ensures_bind (object_readable hd fuel) fun o ho => ?_
        refine ensures_bind (attachments_readable hd fuel) fun as has => ensures_pure ?_
        intro b hb
        rw [Attachment.codesSeq] at hb
        rcases List.mem_append.mp hb with hb | hb
        · exact ho b hb
        · exact has b hb
      · -- Data holds no code, whatever its name and bytes are.
        refine ensures_bind data_noCode fun a ha => ?_
        refine ensures_bind (attachments_readable hd fuel) fun as has => ensures_pure ?_
        rcases ha with ⟨name, bytes, rfl⟩
        intro b hb
        rw [Attachment.codesSeq] at hb
        exact has b hb
      · exact ensures_then fun _ => ensures_complain

end

end Parse

/-- A source that is read outside of loose assembly gives a readable block. -/
theorem parseBlock_readable {d : Dialect} (hd : d.flavour ≠ .loose) {source : String} {b : Block}
    (h : parseBlock d source = .ok b) : b.Readable := by
  unfold parseBlock at h
  rcases hstart : Cursor.ofTokens (tokens source) with e | start
  · simp only [hstart, bind, Except.bind, reduceCtorEq] at h
  · simp only [hstart] at h
    refine Parse.ensures_result (Parse.ensures_bind (Parse.block_readable hd _ _) ?_) h
    exact fun b hb => Parse.ensures_then fun _ => Parse.ensures_pure hb

/-- Every block of a source that is read outside of loose assembly is readable. -/
theorem Reads.readable {d : Dialect} (hd : d.flavour ≠ .loose) {source : String} {b : Block}
    (h : Reads d source b) : b.Readable := by
  rcases h with h | ⟨o, h, hb⟩
  · exact parseBlock_readable hd h
  · unfold parseObject at h
    rcases hstart : Cursor.ofTokens (tokens source) with e | start
    · simp only [hstart, bind, Except.bind, reduceCtorEq] at h
    · simp only [hstart] at h
      refine Parse.ensures_result (P := fun o => ∀ b ∈ o.codes, b.Readable) ?_ h b hb
      refine Parse.ensures_then fun _ => Parse.ensures_ite ?_ ?_
      -- A source that begins with a brace is one block, made an object of its own.
      · refine Parse.ensures_bind (P := fun o => ∀ b ∈ o.codes, b.Readable) ?_
          fun o ho => Parse.ensures_then fun _ => Parse.ensures_pure ho
        refine Parse.ensures_bind (Parse.block_readable hd _ _) fun code hcode =>
          Parse.ensures_pure ?_
        intro b hb
        rw [Object.ofCode, Object.codes, Attachment.codesSeq] at hb
        exact List.mem_singleton.mp hb ▸ hcode
      · exact Parse.ensures_bind (Parse.object_readable hd _)
          fun o ho => Parse.ensures_then fun _ => Parse.ensures_pure ho

end YulToolchain
