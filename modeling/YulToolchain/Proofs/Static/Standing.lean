import YulToolchain.Proofs.Flow.Transfer
import YulToolchain.Proofs.Static.Passage
import YulToolchain.Proofs.Syntax.Numbers

/-!
# Code That Can Stand at a Place

Which code is in order at a place, if all its declarations have different names.

Then it does not matter which scope declares a name, and how many scopes there are. What can be
seen is a list of names with what they stand for, the `Outlook`. It gets longer when a block is
entered and when a declaration is passed, and it never has to be asked whether a name is
taken. Code that stands somewhere also stands where more can be seen (`Block.Stands.mono`).

Being in order means that the analysis has no complaints, and that the code can be written
down. Both are asked of each node and of little more than the names around it. The depth
of the nesting is left out, since it is not a matter of the place alone.

A value that is declared or assigned may be copied to other places as long as its variables
are there. A label in it has to be there as well, but nothing is forgotten about a label when its
block ends. So such values may read the labels of the outermost block, which are seen
everywhere, and no others.

## Main definitions

* `Ground`, `Expr.Counts`: What expressions are built on, and how many values they have.
* `Setting`, `Outlook`: What is fixed for a program, and what can be seen at a place.
* `Block.Stands`, `Stmt.Stands`: Code that can stand at a place.
* `Known.Stands`: So can what is known.

## Theorems

* `Expr.Counts.congr`: The values of an expression depend on what it mentions.
* `Block.Stands.mono`: Code can stand where more is seen.
* `Stmt.flowSeq_stands`: What is known behind code can stand there.
-/

namespace YulToolchain

/-- What expressions are built on. -/
structure Ground where
  /-- The names that can be read. -/
  reads : String → Prop
  /-- The functions that can be called, by the numbers of their parameters and values. -/
  calls : String → Nat → Nat → Prop
  /-- The instructions that can be used. -/
  ops : Instruction → Prop

/-- An instruction that a dialect has a call for. -/
def Dialect.Offers (d : Dialect) (op : Instruction) : Prop :=
  IsName op.mnemonic ∧ ∀ line args,
    Parse.resolveCall d ⟨line, op.mnemonic⟩ args = .ok (.instr line op args)

/-- A name that is read as that of a function. -/
def Dialect.Calls (d : Dialect) (name : String) : Prop :=
  IsName name ∧ ∀ line args, Parse.resolveCall d ⟨line, name⟩ args = .ok (.call line name args)

/-- A name that code can declare. -/
def Dialect.Admits (d : Dialect) (name : String) : Prop :=
  IsName name ∧ d.reserved name = false

/-- A string that can be written down. -/
def Expr.Quoted (e : Expr) : Prop := ∃ l, e = .literal l ∧ l.kind = .string ∧ l.Written

mutual

/-- An expression is in order on some ground, and has a number of values. -/
def Expr.Counts (d : Dialect) (g : Ground) : Expr → Nat → Prop
  | .literal l, n => l.Written ∧ (∃ w, l.value = .ok w) ∧ n = 1
  | .ident _ x, n => IsName x ∧ g.reads x ∧ n = 1
  | .instr _ op args, n =>
    g.ops op ∧ args.length = op.args ∧ n = op.returns ∧ Expr.CountOnes d g args
  | .call _ name args, n => d.Calls name ∧ match d.builtin? name with
    | some b => args.length = b.params ∧ n = b.returns ∧
      if b.literalArguments then ∀ e ∈ args, e.Quoted else Expr.CountOnes d g args
    | none => g.calls name args.length n ∧ Expr.CountOnes d g args

/-- Some expressions are in order, and each has one value. -/
def Expr.CountOnes (d : Dialect) (g : Ground) : List Expr → Prop
  | [] => True
  | e :: rest => e.Counts d g 1 ∧ Expr.CountOnes d g rest

end

section Expressions

variable {d : Dialect} {g g' : Ground}

mutual

/-- The values of an expression depend on what it mentions. A movable expression calls no
    functions of the program. -/
theorem Expr.Counts.congr (hops : ∀ op, g.ops op → g'.ops op) : ∀ {e : Expr} {n : Nat},
    e.Counts d g n → (∀ x ∈ e.reads, g.reads x → g'.reads x) →
    (e.movable d = true ∨ ∀ x p r, g.calls x p r → g'.calls x p r) → e.Counts d g' n
  | .literal _, _, h, _, _ => by
      rw [Expr.Counts] at h ⊢
      exact h
  | .ident _ x, _, h, hreads, _ => by
      rw [Expr.Counts] at h ⊢
      exact ⟨h.1, hreads x (by rw [Expr.reads]; exact List.mem_singleton_self x) h.2.1, h.2.2⟩
  | .instr _ op args, _, h, hreads, hcalls => by
      rw [Expr.movable, Bool.and_eq_true] at hcalls
      rw [Expr.reads] at hreads
      rw [Expr.Counts] at h ⊢
      exact ⟨hops op h.1, h.2.1, h.2.2.1,
        Expr.CountOnes.congr hops h.2.2.2 hreads (hcalls.imp_left (·.2))⟩
  | .call _ name args, _, h, hreads, hcalls => by
      rw [Expr.movable, Bool.and_eq_true] at hcalls
      rw [Expr.reads] at hreads
      rw [Expr.Counts] at h ⊢
      refine ⟨h.1, ?_⟩
      rcases hb : d.builtin? name with _ | b
      · simp only [hb] at h ⊢
        -- A call of a function is not movable, so all functions count alike on both sides.
        have hcalls : ∀ x p r, g.calls x p r → g'.calls x p r := by
          refine hcalls.resolve_left fun hm => ?_
          rw [hb] at hm
          exact absurd hm.1 Bool.noConfusion
        exact ⟨hcalls _ _ _ h.2.1, Expr.CountOnes.congr hops h.2.2 hreads (.inr hcalls)⟩
      · simp only [hb] at h ⊢
        refine ⟨h.2.1, h.2.2.1, ?_⟩
        by_cases hlit : b.literalArguments = true
        -- Literal arguments read no names.
        · simpa only [hlit, if_true] using h.2.2.2
        · rw [if_neg hlit] at h ⊢
          exact Expr.CountOnes.congr hops h.2.2.2 hreads (hcalls.imp_left (·.2))
termination_by structural e => e

/-- The arguments together read the names of each of them. -/
theorem Expr.CountOnes.congr (hops : ∀ op, g.ops op → g'.ops op) : ∀ {es : List Expr},
    Expr.CountOnes d g es → (∀ x ∈ Expr.readsAll es, g.reads x → g'.reads x) →
    (Expr.movableAll d es = true ∨ ∀ x p r, g.calls x p r → g'.calls x p r) →
      Expr.CountOnes d g' es
  | [], _, _, _ => by
      rw [Expr.CountOnes]
      trivial
  | e :: rest, h, hreads, hcalls => by
      rw [Expr.movableAll, Bool.and_eq_true] at hcalls
      rw [Expr.readsAll, List.forall_mem_append] at hreads
      rw [Expr.CountOnes] at h ⊢
      exact ⟨Expr.Counts.congr hops h.1 hreads.1 (hcalls.imp_left (·.1)),
        Expr.CountOnes.congr hops h.2 hreads.2 (hcalls.imp_left (·.2))⟩
termination_by structural es => es

end

/-- Strings read no names. -/
theorem Expr.readsAll_quoted : ∀ {es : List Expr}, (∀ e ∈ es, e.Quoted) → Expr.readsAll es = []
  | [], _ => by rw [Expr.readsAll]
  | e :: rest, h => by
      rcases h e List.mem_cons_self with ⟨l, rfl, _⟩
      rw [Expr.readsAll, Expr.reads, List.nil_append,
        Expr.readsAll_quoted fun e' he' => h e' (List.mem_cons_of_mem _ he')]

mutual

/-- An expression reads what can be read. -/
theorem Expr.Counts.reads : ∀ {e : Expr} {n : Nat}, e.Counts d g n → ∀ x ∈ e.reads, g.reads x
  | .literal _, _, _, x, hx => by
      rw [Expr.reads] at hx
      exact absurd hx List.not_mem_nil
  | .ident _ y, _, h, x, hx => by
      rw [Expr.reads, List.mem_singleton] at hx
      rw [Expr.Counts] at h
      exact hx ▸ h.2.1
  | .instr _ _ args, _, h, x, hx => by
      rw [Expr.reads] at hx
      rw [Expr.Counts] at h
      exact Expr.CountOnes.reads h.2.2.2 x hx
  | .call _ name args, _, h, x, hx => by
      rw [Expr.reads] at hx
      rw [Expr.Counts] at h
      rcases hb : d.builtin? name with _ | b
      · simp only [hb] at h
        exact Expr.CountOnes.reads h.2.2 x hx
      · simp only [hb] at h
        by_cases hlit : b.literalArguments = true
        · rw [if_pos hlit] at h
          -- Strings as arguments read nothing.
          rw [Expr.readsAll_quoted h.2.2.2] at hx
          exact absurd hx List.not_mem_nil
        · rw [if_neg hlit] at h
          exact Expr.CountOnes.reads h.2.2.2 x hx
termination_by structural e => e

/-- Arguments that count are given all the names they read. -/
theorem Expr.CountOnes.reads : ∀ {es : List Expr}, Expr.CountOnes d g es →
    ∀ x ∈ Expr.readsAll es, g.reads x
  | [], _, x, hx => by
      rw [Expr.readsAll] at hx
      exact absurd hx List.not_mem_nil
  | e :: rest, h, x, hx => by
      rw [Expr.CountOnes] at h
      rw [Expr.readsAll, List.mem_append] at hx
      rcases hx with hx | hx
      · exact Expr.Counts.reads h.1 x hx
      · exact Expr.CountOnes.reads h.2 x hx
termination_by structural es => es

end

/-- An instruction that is movable leaves at most one value. -/
theorem Instruction.returns_le_one {op : Instruction} (h : op.movable = true) :
    op.returns ≤ 1 := by
  cases op with
  | dup k => exact absurd h Bool.noConfusion
  | swap k => exact absurd h Bool.noConfusion
  | _ => exact Nat.le_of_ble_eq_true rfl

/-- A builtin that is movable leaves at most one value. -/
theorem Dialect.builtin_returns_le_one {name : String} {b : Builtin}
    (hb : d.builtin? name = some b) (h : b.movable = true) : b.returns ≤ 1 := by
  have hproper : ∀ b' : Builtin, b'.Proper → b'.movable = true → b'.returns ≤ 1 := by
    rintro b' (⟨op, _, rfl⟩ | rfl | rfl | rfl) h'
    · exact Instruction.returns_le_one h'
    · exact Nat.le_refl 1
    · exact Nat.le_refl 1
    · exact absurd h' Bool.noConfusion
  rcases Dialect.builtin?_cases hb with ⟨b', hb', rfl | rfl⟩
  · exact hproper _ hb' h
  · exact hproper b' hb' h

/-- A movable expression has at most one value. -/
theorem Expr.Counts.movable_le_one {e : Expr} {n : Nat} (h : e.Counts d g n)
    (hmovable : e.movable d = true) : n ≤ 1 := by
  cases e with
  | literal l =>
      rw [Expr.Counts] at h
      exact Nat.le_of_eq h.2.2
  | ident line x =>
      rw [Expr.Counts] at h
      exact Nat.le_of_eq h.2.2
  | instr line op args =>
      rw [Expr.Counts] at h
      rw [Expr.movable, Bool.and_eq_true] at hmovable
      exact h.2.2.1 ▸ Instruction.returns_le_one hmovable.1
  | call line name args =>
      rw [Expr.Counts] at h
      rw [Expr.movable, Bool.and_eq_true] at hmovable
      rcases hb : d.builtin? name with _ | b
      -- Calls of functions are not movable.
      · rw [hb] at hmovable
        exact absurd hmovable.1 Bool.noConfusion
      · simp only [hb] at h
        rw [hb] at hmovable
        exact h.2.2.1 ▸ Dialect.builtin_returns_le_one hb hmovable.1

end Expressions

/-- What is fixed for a program: its dialect, the instructions that it can use, and the
    labels of its outermost block. -/
structure Setting where
  dialect : Dialect
  ops : Instruction → Prop
  labels : List String

/-- What can be seen at a place. -/
abbrev Outlook := List (String × Symbol)

namespace Outlook

/-- A variable that can be seen. -/
def HasVar (o : Outlook) (x : String) : Prop := ∃ type, (x, Symbol.var type) ∈ o

/-- What expressions are built on at a place. -/
def ground (S : Setting) (o : Outlook) : Ground where
  reads x := o.HasVar x ∨ (x, Symbol.label) ∈ o
  calls x params returns := ∃ ps rs, (x, Symbol.function ps rs) ∈ o ∧ ps.length = params ∧
    rs.length = returns
  ops := S.ops

/-- What values are built on that may be copied to other places. -/
def lasting (S : Setting) (o : Outlook) : Ground :=
  { o.ground S with reads := fun x => o.HasVar x ∨ x ∈ S.labels }

/-- What can be seen in a function. -/
def behind (o : Outlook) : Outlook := o.filter fun p => !p.2.isVariable

/-- The labels of the outermost block can be seen. -/
def Tops (S : Setting) (o : Outlook) : Prop := ∀ x ∈ S.labels, (x, Symbol.label) ∈ o

end Outlook

mutual

/-- A block can stand at a place. -/
def Block.Stands (S : Setting) (o : Outlook) (inLoop : Bool) : Block → Prop
  | ⟨_, stmts⟩ => Stmt.StandSeq S (o ++ stmts.flatMap Stmt.hoists) inLoop stmts

/-- Statements can stand at a place one after the other. -/
def Stmt.StandSeq (S : Setting) (o : Outlook) (inLoop : Bool) : List Stmt → Prop
  | [] => True
  | s :: rest => s.Stands S o inLoop ∧ Stmt.StandSeq S (o ++ s.adds) inLoop rest

/-- A statement can stand at a place. -/
def Stmt.Stands (S : Setting) (o : Outlook) (inLoop : Bool) : Stmt → Prop
  | .expr _ e => ∃ n, e.Counts S.dialect (o.ground S) n ∧ (n = 0 ∨ S.dialect.flavour = .loose)
  | .assign _ targets value =>
    targets ≠ [] ∧ (∀ t ∈ targets, IsName t.name ∧ o.HasVar t.name) ∧
      value.Counts S.dialect (o.lasting S) targets.length
  | .decl _ vars value =>
    vars ≠ [] ∧ (∀ v ∈ vars, v.Written ∧ S.dialect.reserved v.name = false) ∧
      ∀ e, value = some e → e.Counts S.dialect (o.lasting S) vars.length
  | .func _ name params returns body =>
    S.dialect.Admits name ∧
      (∀ v ∈ params ++ returns, v.Written ∧ S.dialect.reserved v.name = false) ∧
      body.Stands S (o.behind ++ TypedName.symbols (params ++ returns)) false
  | .cond _ test body => test.Counts S.dialect (o.ground S) 1 ∧ body.Stands S o inLoop
  | .switch _ subject cases =>
    subject.Counts S.dialect (o.ground S) 1 ∧ cases ≠ [] ∧ Case.StandSeq S o inLoop [] cases
  | .loop _ ⟨_, pre⟩ test post body =>
    Stmt.StandSeq S (o ++ pre.flatMap Stmt.hoists) inLoop pre ∧
      test.Counts S.dialect
        ((o ++ pre.flatMap Stmt.hoists ++ pre.flatMap Stmt.adds : Outlook).ground S) 1 ∧
      body.Stands S (o ++ pre.flatMap Stmt.hoists ++ pre.flatMap Stmt.adds) true ∧
      post.Stands S (o ++ pre.flatMap Stmt.hoists ++ pre.flatMap Stmt.adds) false
  | .brk _ => inLoop = true
  | .cont _ => inLoop = true
  | .block b => b.Stands S o inLoop
  | .label _ name => S.dialect.flavour = .loose ∧ S.dialect.Admits name
  | .stackAssign _ target =>
    S.dialect.flavour = .loose ∧ IsName target.name ∧ o.HasVar target.name

/-- The cases of a switch can stand at a place, given the values of those before. -/
def Case.StandSeq (S : Setting) (o : Outlook) (inLoop : Bool) (seen : List Word) :
    List Case → Prop
  | [] => True
  | ⟨_, none, body⟩ :: rest => body.Stands S o inLoop ∧ rest = []
  | ⟨_, some l, body⟩ :: rest => l.Written ∧ ∃ w, l.value = .ok w ∧ w ∉ seen ∧
      body.Stands S o inLoop ∧ Case.StandSeq S o inLoop (seen ++ [w]) rest

end

section Monotone

variable {S : Setting} {o o' : Outlook}

theorem Outlook.HasVar.mono {x : String} (h : o.HasVar x) (hsub : o ⊆ o') : o'.HasVar x := by
  rcases h with ⟨type, h⟩
  exact ⟨type, hsub h⟩

/-- Functions stay in sight in a wider outlook. -/
theorem Outlook.calls_mono {x : String} {params returns : Nat}
    (h : (o.ground S).calls x params returns) (hsub : o ⊆ o') :
    (o'.ground S).calls x params returns := by
  rcases h with ⟨ps, rs, hx, hparams, hreturns⟩
  exact ⟨ps, rs, hsub hx, hparams, hreturns⟩

/-- An expression counts in a wider outlook as it does here. -/
theorem Expr.Counts.ground_mono {e : Expr} {n : Nat} (h : e.Counts S.dialect (o.ground S) n)
    (hsub : o ⊆ o') : e.Counts S.dialect (o'.ground S) n := by
  have hops : ∀ op, (o.ground S).ops op → (o'.ground S).ops op := fun _ hop => hop
  refine h.congr hops (fun x _ hx => ?_) (.inr fun x p r hx => Outlook.calls_mono hx hsub)
  exact hx.imp (·.mono hsub) (hsub ·)

/-- A value that lasts does so in a wider outlook. -/
theorem Expr.Counts.lasting_mono {e : Expr} {n : Nat} (h : e.Counts S.dialect (o.lasting S) n)
    (hsub : o ⊆ o') : e.Counts S.dialect (o'.lasting S) n := by
  have hops : ∀ op, (o.lasting S).ops op → (o'.lasting S).ops op := fun _ hop => hop
  have hcalls : ∀ x p r, (o.lasting S).calls x p r → (o'.lasting S).calls x p r :=
    fun _ _ _ hx => Outlook.calls_mono (S := S) hx hsub
  exact h.congr hops (fun x _ hx => hx.imp_left (·.mono hsub)) (.inr hcalls)

/-- What lasts can be used at once. -/
theorem Expr.Counts.ground {e : Expr} {n : Nat} (h : e.Counts S.dialect (o.lasting S) n)
    (htops : o.Tops S) : e.Counts S.dialect (o.ground S) n := by
  have hops : ∀ op, (o.lasting S).ops op → (o.ground S).ops op := fun _ hop => hop
  refine h.congr hops (fun x _ hx => ?_) (.inr fun x p r hx => hx)
  exact hx.imp_right (htops x)

/-- Behind a function's border outlooks are wider still. -/
theorem Outlook.behind_mono (hsub : o ⊆ o') : o.behind ⊆ o'.behind := by
  intro p hp
  rw [Outlook.behind, List.mem_filter] at hp ⊢
  exact ⟨hsub hp.1, hp.2⟩

theorem Outlook.append_mono (hsub : o ⊆ o') (added : Outlook) : o ++ added ⊆ o' ++ added :=
  List.append_subset.mpr ⟨List.Subset.trans hsub (List.subset_append_left _ _),
    List.subset_append_right _ _⟩

mutual

/-- A block can stand where more is seen. -/
theorem Block.Stands.mono : ∀ {b : Block} {o o' : Outlook} {inLoop : Bool},
    b.Stands S o inLoop → o ⊆ o' → b.Stands S o' inLoop
  | ⟨_, stmts⟩, o, o', inLoop, h, hsub => by
      rw [Block.Stands] at h ⊢
      exact Stmt.StandSeq.mono h (Outlook.append_mono hsub _)
termination_by structural b => b

/-- A sequence stands in a wider outlook. -/
theorem Stmt.StandSeq.mono : ∀ {stmts : List Stmt} {o o' : Outlook} {inLoop : Bool},
    Stmt.StandSeq S o inLoop stmts → o ⊆ o' → Stmt.StandSeq S o' inLoop stmts
  | [], _, _, _, _, _ => by
      rw [Stmt.StandSeq]
      trivial
  | s :: rest, o, o', inLoop, h, hsub => by
      rw [Stmt.StandSeq] at h ⊢
      exact ⟨Stmt.Stands.mono h.1 hsub, Stmt.StandSeq.mono h.2 (Outlook.append_mono hsub _)⟩
termination_by structural stmts => stmts

/-- A statement can stand where more is seen. -/
theorem Stmt.Stands.mono : ∀ {s : Stmt} {o o' : Outlook} {inLoop : Bool},
    s.Stands S o inLoop → o ⊆ o' → s.Stands S o' inLoop
  | .expr _ _, o, o', _, h, hsub => by
      rw [Stmt.Stands] at h ⊢
      rcases h with ⟨n, he, hn⟩
      exact ⟨n, he.ground_mono hsub, hn⟩
  | .assign _ _ _, o, o', _, h, hsub => by
      rw [Stmt.Stands] at h ⊢
      exact ⟨h.1, fun t ht => ⟨(h.2.1 t ht).1, (h.2.1 t ht).2.mono hsub⟩,
        h.2.2.lasting_mono hsub⟩
  | .decl _ _ _, o, o', _, h, hsub => by
      rw [Stmt.Stands] at h ⊢
      exact ⟨h.1, h.2.1, fun e he => (h.2.2 e he).lasting_mono hsub⟩
  | .func _ _ _ _ body, o, o', _, h, hsub => by
      rw [Stmt.Stands] at h ⊢
      exact ⟨h.1, h.2.1,
        Block.Stands.mono h.2.2 (Outlook.append_mono (Outlook.behind_mono hsub) _)⟩
  | .cond _ _ body, o, o', _, h, hsub => by
      rw [Stmt.Stands] at h ⊢
      exact ⟨h.1.ground_mono hsub, Block.Stands.mono h.2 hsub⟩
  | .switch _ _ cases, o, o', _, h, hsub => by
      rw [Stmt.Stands] at h ⊢
      exact ⟨h.1.ground_mono hsub, h.2.1, Case.StandSeq.mono h.2.2 hsub⟩
  -- The init block adds the same to both outlooks.
  | .loop _ ⟨_, pre⟩ _ post body, o, o', _, h, hsub => by
      have hpre := Outlook.append_mono hsub (pre.flatMap Stmt.hoists)
      have hin := Outlook.append_mono hpre (pre.flatMap Stmt.adds)
      rw [Stmt.Stands] at h ⊢
      exact ⟨Stmt.StandSeq.mono h.1 hpre, h.2.1.ground_mono hin, Block.Stands.mono h.2.2.1 hin,
        Block.Stands.mono h.2.2.2 hin⟩
  | .brk _, _, _, _, h, _ => by
      rw [Stmt.Stands] at h ⊢
      exact h
  | .cont _, _, _, _, h, _ => by
      rw [Stmt.Stands] at h ⊢
      exact h
  | .block b, o, o', _, h, hsub => by
      rw [Stmt.Stands] at h ⊢
      exact Block.Stands.mono h hsub
  | .label _ _, _, _, _, h, _ => by
      rw [Stmt.Stands] at h ⊢
      exact h
  | .stackAssign _ _, _, _, _, h, hsub => by
      rw [Stmt.Stands] at h ⊢
      exact ⟨h.1, h.2.1, h.2.2.mono hsub⟩
termination_by structural s => s

/-- The cases stand in a wider outlook. -/
theorem Case.StandSeq.mono : ∀ {cases : List Case} {o o' : Outlook} {inLoop : Bool}
    {seen : List Word}, Case.StandSeq S o inLoop seen cases → o ⊆ o' →
      Case.StandSeq S o' inLoop seen cases
  | [], _, _, _, _, _, _ => by
      rw [Case.StandSeq]
      trivial
  | ⟨_, none, body⟩ :: rest, o, o', _, _, h, hsub => by
      rw [Case.StandSeq] at h ⊢
      exact ⟨Block.Stands.mono h.1 hsub, h.2⟩
  | ⟨_, some l, body⟩ :: rest, o, o', _, _, h, hsub => by
      rw [Case.StandSeq] at h ⊢
      rcases h with ⟨hl, w, hw, hseen, hbody, hrest⟩
      exact ⟨hl, w, hw, hseen, Block.Stands.mono hbody hsub, Case.StandSeq.mono hrest hsub⟩
termination_by structural cases => cases

end

end Monotone

/-- What is known can stand at a place. -/
def Known.Stands (S : Setting) (o : Outlook) (k : Known) : Prop :=
  ∀ x e, (x, e) ∈ k.entries → e.movable S.dialect = true ∧
    e.Counts S.dialect (o.lasting S) 1 ∧ IsName x ∧ o.HasVar x

section Flow

open Known

variable {S : Setting} {o o' : Outlook} {k k' : Known}

theorem Known.stands_nothing (S : Setting) (o : Outlook) : nothing.Stands S o :=
  fun _ _ h => absurd h not_mem_nothing

theorem Known.Stands.sub (h : k.Stands S o) (hsub : k'.Sub k) : k'.Stands S o :=
  fun x e hx => h x e (hsub x e hx)

theorem Known.Stands.mono (h : k.Stands S o) (hsub : o ⊆ o') : k.Stands S o' := by
  intro x e hx
  rcases h x e hx with ⟨hmovable, hcounts, hname, hvar⟩
  exact ⟨hmovable, hcounts.lasting_mono hsub, hname, hvar.mono hsub⟩

/-- What an assignment teaches can stand behind it: a movable value goes to a single variable. -/
theorem Known.Stands.assigned {names : List String} {value : Option Expr} (h : k.Stands S o)
    (hsub : o ⊆ o') (hnames : ∀ x ∈ names, IsName x ∧ o'.HasVar x)
    (hvalue : ∀ e, value = some e → e.Counts S.dialect (o.lasting S) names.length) :
    (k.assigned S.dialect names value).Stands S o' := by
  intro x e hx
  rcases mem_assigned hx with hx | ⟨hsome, hmovable, _, hx⟩
  · exact (h.mono hsub).sub (forget_sub k names) x e hx
  · have hcounts := hvalue e hsome
    have hxmem : x ∈ names := (hx x).mpr rfl
    have hlength : names.length = 1 :=
      Nat.le_antisymm (hcounts.movable_le_one hmovable) (List.length_pos_of_mem hxmem)
    rw [hlength] at hcounts
    exact ⟨hmovable, hcounts.lasting_mono hsub, hnames x hxmem⟩

/-- What is known in a scope and not about its variables is known outside. It does not matter that
    labels and functions of the scope are not seen there: the one are not read by what lasts, and
    the other are not called by what is movable. -/
theorem Known.Stands.close {names : List String} (h : k.Stands S o')
    (hvars : ∀ x, o'.HasVar x → x ∈ names ∨ o.HasVar x) : (k.forget names).Stands S o := by
  intro x e hx
  rcases mem_forget.mp hx with ⟨hx, hname, hreads⟩
  rcases h x e hx with ⟨hmovable, hcounts, hisName, hvar⟩
  have hops : ∀ op, (o'.lasting S).ops op → (o.lasting S).ops op := fun _ hop => hop
  refine ⟨hmovable, ?_, hisName, (hvars x hvar).resolve_left hname⟩
  refine hcounts.congr hops (fun y hy hread => ?_) (.inl hmovable)
  exact hread.imp_left fun hy' => (hvars y hy').resolve_left (hreads y hy)

theorem Outlook.hasVar_append {added : Outlook} {x : String} :
    (o ++ added : Outlook).HasVar x ↔ o.HasVar x ∨ Outlook.HasVar added x := by
  simp only [Outlook.HasVar, List.mem_append, exists_or]

/-- What is hoisted is no variable. -/
theorem Stmt.hoists_novar (s : Stmt) (x : String) : ¬Outlook.HasVar s.hoists x := by
  rintro ⟨type, h⟩
  cases s with
  | func line name params returns body =>
      exact absurd (List.mem_singleton.mp h) (by rintro ⟨⟩)
  | label line name => exact absurd (List.mem_singleton.mp h) (by rintro ⟨⟩)
  | _ => exact absurd h List.not_mem_nil

/-- Hoisting shows no variables. -/
theorem Outlook.hasVar_hoists {stmts : List Stmt} {x : String} :
    (o ++ stmts.flatMap Stmt.hoists : Outlook).HasVar x ↔ o.HasVar x := by
  rw [Outlook.hasVar_append]
  refine or_iff_left ?_
  rintro ⟨type, h⟩
  rcases List.mem_flatMap.mp h with ⟨s, _, hs⟩
  exact s.hoists_novar x ⟨type, hs⟩

/-- The variables declared are those listed. -/
theorem TypedName.hasVar_symbols {vars : List TypedName} {x : String} :
    Outlook.HasVar (TypedName.symbols vars) x ↔ x ∈ vars.map (·.name) := by
  simp only [Outlook.HasVar, TypedName.symbols, List.mem_map, Prod.mk.injEq, Symbol.var.injEq]
  constructor
  · rintro ⟨_, v, hv, rfl, _⟩
    exact ⟨v, hv, rfl⟩
  · rintro ⟨v, hv, rfl⟩
    exact ⟨_, v, hv, rfl, rfl⟩

/-- A declaration adds the variables it declares, other statements add none. -/
theorem Stmt.hasVar_adds {s : Stmt} {x : String} :
    Outlook.HasVar s.adds x ↔ x ∈ s.declaresVars := by
  cases s with
  | decl line vars value => exact TypedName.hasVar_symbols
  | _ => exact ⟨fun ⟨_, h⟩ => absurd h List.not_mem_nil, fun h => absurd h List.not_mem_nil⟩

/-- The statements behind each other add what they declare. -/
theorem Outlook.hasVar_adds {stmts : List Stmt} {x : String} :
    (o ++ stmts.flatMap Stmt.adds : Outlook).HasVar x ↔
      o.HasVar x ∨ x ∈ Stmt.declaredSeq stmts := by
  rw [Outlook.hasVar_append]
  refine or_congr_right ?_
  simp only [Stmt.declaredSeq, List.mem_flatMap, ← Stmt.hasVar_adds, Outlook.HasVar]
  exact exists_comm.trans (exists_congr fun s => exists_and_left)

/-- The variables seen at the end of a block are those of the block and those around it. -/
theorem Outlook.hasVar_inside {stmts : List Stmt} {x : String}
    (h : (o ++ stmts.flatMap Stmt.hoists ++ stmts.flatMap Stmt.adds : Outlook).HasVar x) :
    x ∈ Stmt.declaredSeq stmts ∨ o.HasVar x := by
  rw [Outlook.hasVar_adds, Outlook.hasVar_hoists] at h
  exact h.symm

theorem Expr.counts_zero {d : Dialect} {g : Ground} {line : Nat} {type : String}
    (h : TypeWritten type) : (Expr.literal (Literal.zero line type)).Counts d g 1 := by
  rw [Expr.Counts]
  exact ⟨Literal.written_number h, ⟨0, Literal.value_zero line type⟩, rfl⟩

mutual

/-- What is known behind a block stands in front of it. -/
theorem Block.flow_stands : ∀ {b : Block} {o : Outlook} {inLoop : Bool} {k : Known},
    b.Stands S o inLoop → k.Stands S o → (b.flow S.dialect k).Stands S o
  | ⟨_, stmts⟩, o, inLoop, k, h, hk => by
      rw [Block.Stands] at h
      rw [Block.flow]
      have hin := hk.mono (List.subset_append_left o (stmts.flatMap Stmt.hoists))
      exact (Stmt.flowSeq_stands h hin).close fun x => Outlook.hasVar_inside
termination_by structural b => b

/-- What is known behind some statements can stand there. -/
theorem Stmt.flowSeq_stands : ∀ {stmts : List Stmt} {o : Outlook} {inLoop : Bool} {k : Known},
    Stmt.StandSeq S o inLoop stmts → k.Stands S o →
      (Stmt.flowSeq S.dialect k stmts).Stands S (o ++ stmts.flatMap Stmt.adds)
  | [], o, inLoop, k, _, hk => by
      rw [Stmt.flowSeq, List.flatMap_nil, List.append_nil]
      exact hk
  | s :: rest, o, inLoop, k, h, hk => by
      rw [Stmt.StandSeq] at h
      rw [Stmt.flowSeq, List.flatMap_cons, ← List.append_assoc]
      exact Stmt.flowSeq_stands h.2 (Stmt.flow_stands h.1 hk)
termination_by structural stmts => stmts

/-- What the flow knows behind a statement stands there. -/
theorem Stmt.flow_stands : ∀ {s : Stmt} {o : Outlook} {inLoop : Bool} {k : Known},
    s.Stands S o inLoop → k.Stands S o → (s.flow S.dialect k).Stands S (o ++ s.adds)
  | .expr _ e, o, inLoop, k, _, hk => by
      simp only [Stmt.flow, Stmt.adds, List.append_nil]
      exact hk.sub (evaluated_sub _ e k)
  | .assign _ targets value, o, inLoop, k, h, hk => by
      rw [Stmt.Stands] at h
      simp only [Stmt.flow, Stmt.adds, List.append_nil]
      refine (hk.sub (evaluated_sub _ value k)).assigned (List.Subset.refl _) ?_ ?_
      · exact List.forall_mem_map.mpr h.2.1
      · intro e he
        rw [List.length_map, ← Option.some.inj he]
        exact h.2.2
  -- The declared variables are in sight from here on.
  | .decl line vars none, o, inLoop, k, h, hk => by
      rw [Stmt.Stands] at h
      rw [Stmt.flow]
      refine hk.assigned (List.subset_append_left _ _) (List.forall_mem_map.mpr fun v hv => ?_) ?_
      · exact ⟨(h.2.1 v hv).1.1, Outlook.hasVar_append.mpr
          (.inr (Stmt.hasVar_adds.mpr (List.mem_map_of_mem hv)))⟩
      · intro e he
        -- Only a single variable is known to be zero.
        match vars, h, he with
        | [v], h, he =>
            rw [Flow.declaredValue, Option.some.injEq] at he
            subst he
            exact Expr.counts_zero (h.2.1 v List.mem_cons_self).1.2
  | .decl line vars (some value), o, inLoop, k, h, hk => by
      rw [Stmt.Stands] at h
      rw [Stmt.flow]
      refine (hk.sub (evaluated_sub _ value k)).assigned (List.subset_append_left _ _)
        (List.forall_mem_map.mpr fun v hv => ?_) ?_
      · exact ⟨(h.2.1 v hv).1.1, Outlook.hasVar_append.mpr
          (.inr (Stmt.hasVar_adds.mpr (List.mem_map_of_mem hv)))⟩
      · intro e he
        rw [List.length_map]
        -- The value stands for one variable or for none.
        refine h.2.2 e ?_
        cases vars <;> exact he
  | .func _ _ _ _ _, o, inLoop, k, _, hk => by
      simp only [Stmt.flow, Stmt.adds, List.append_nil]
      exact hk
  -- The flow forgets what the body may assign, so less is known than before.
  | .cond _ test body, o, inLoop, k, _, hk => by
      simp only [Stmt.flow, Stmt.adds, List.append_nil]
      exact hk.sub (((Block.flow_forget_sub (List.Subset.refl _)).trans (forget_sub _ _)).trans
        (evaluated_sub _ test k))
  | .switch _ subject cases, o, inLoop, k, _, hk => by
      simp only [Stmt.flow, Stmt.adds, List.append_nil]
      exact hk.sub ((Case.flowSeq_forget_sub.trans (forget_sub _ _)).trans
        (evaluated_sub _ subject k))
  | .loop _ ⟨_, pre⟩ _ post body, o, inLoop, k, h, hk => by
      rw [Stmt.Stands] at h
      have hin := hk.mono (List.subset_append_left o (pre.flatMap Stmt.hoists))
      have hpre := Stmt.flowSeq_stands h.1 hin
      simp only [Stmt.adds, List.append_nil]
      -- Behind a loop at most the init block's knowledge is left, less what the loop assigns.
      refine Known.Stands.sub ?_ Stmt.flow_loop_sub
      exact (hpre.sub (forget_sub _ _)).close fun x => Outlook.hasVar_inside
  | .brk _, o, inLoop, k, _, hk => by
      simp only [Stmt.flow, Stmt.adds, List.append_nil]
      exact hk
  | .cont _, o, inLoop, k, _, hk => by
      simp only [Stmt.flow, Stmt.adds, List.append_nil]
      exact hk
  | .block b, o, inLoop, k, h, hk => by
      rw [Stmt.Stands] at h
      simp only [Stmt.flow, Stmt.adds, List.append_nil]
      exact Block.flow_stands h hk
  -- A label may be reached from anywhere, so nothing is known.
  | .label _ _, o, inLoop, k, _, _ => by
      rw [Stmt.flow]
      exact Known.stands_nothing S _
  | .stackAssign _ target, o, inLoop, k, _, hk => by
      simp only [Stmt.flow, Stmt.adds, List.append_nil]
      exact hk.sub (forget_sub _ _)
termination_by structural s => s

end

end Flow

end YulToolchain
