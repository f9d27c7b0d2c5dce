import YulToolchain.Pass.Declarations
import YulToolchain.Pass.LoopCondition
import YulToolchain.Pass.LoopInit
import YulToolchain.Pass.Structure
import YulToolchain.Proofs.Pass.Expression

/-!
# Replacing Statements

What the passes may do to statements, as one relation between code and what it
becomes.

A statement becomes a statement of the same kind with other parts, or something
else altogether: its declarations are split up, its scope is opened, its
initialisation moves out in front, its condition moves inside, or it gives way to
what is known to be executed. The relation says nothing about which pass does what
in which order. Each pass is an instance, and all of them share one proof that the
relation preserves the meaning of programs.

Expressions are replaced on the grounds of what is known at their place. The known
values are those of the new code, and any part of them will do.

A block may be opened into the block around it only if everything that it declares
is among names that are declared only once in the program.

What is asked of the expressions depends on what is to be shown of the new code: that it
does the same, that it is accepted, that it can be written down. So it is part of a
`Licence`, together with the names that are declared only once, and the relation between
statements is the same for all of these.

## Main definitions

* `Licence`: What may be done to expressions, and which names are declared only once.
* `Liberty`: How far new code may differ from the old one.
* `Licence.running`: The licence of passes that preserve what code does.
* `Block.Opens`: What may stand for a block.
* `Known.atHead`: What is known at the head of a loop.
* `Block.Becomes`, `Stmt.BecomesSeq`, `Stmt.Becomes`: What code may become.
* `Stmt.Role`: The names that statements mention in some role.
* `Stmt.Mirrors`: The functions of some statements are there in others.

## Theorems

* `Stmt.BecomesSeq.split`: What a sequence becomes can be split like the sequence.
* `Block.Becomes.count_le`: New code has no more declarations and assignments than the
  old one.
* `Stmt.Becomes.vars`, `Stmt.BecomesSeq.mirrors`: Code declares in its scope what it did
  before, and names that are declared only once.
-/

namespace YulToolchain

/-- All names that some statements declare in their scope have a property. -/
def Stmt.BindIn (U : String → Prop) (stmts : List Stmt) : Prop :=
  ∀ s ∈ stmts, ∀ x ∈ s.bindsHere, U x

/-- What may stand for a block: the block, or its statements if everything they
    declare in their scope has a property. -/
def Block.Opens (U : String → Prop) (b : Block) (out : List Stmt) : Prop :=
  out = [.block b] ∨ Stmt.BindIn U b.stmts ∧ out = b.stmts

/-- What may be done to code. -/
structure Licence where
  /-- The dialect of the code. -/
  dialect : Dialect
  /-- How expressions may be replaced, given what is known. -/
  expr : Known → Expr → Expr → Prop
  /-- Which expressions count as numbers, given what is known. -/
  constant : Known → Expr → Word → Prop
  /-- The names whose declarations may be moved to another scope. -/
  once : String → Prop
  /-- Whether statements may be replaced by others. -/
  reshapes : Prop
  /-- Whether the condition of a loop may move into its body. -/
  guards : Prop
  /-- Whether new code may take more steps than the old one. -/
  costs : Prop

/-- How far code that goes on to do the same may differ from what it was. -/
inductive Liberty where
  /-- It has other expressions. -/
  | exact
  /-- It takes no more steps. -/
  | thrifty
  /-- It may take more steps. -/
  | free

/-- What may be done to code that goes on to do the same. -/
abbrev Licence.running (c : RunContext) (U : String → Prop) (r : Liberty) : Licence :=
  ⟨c.dialect, Expr.Becomes c, Expr.Constant c, U, r ≠ .exact, r = .free, r = .free⟩

/-- What is known at the head of a loop, in each round. -/
def Known.atHead (d : Dialect) (k : Known) (pre : List Stmt) (post body : Block) : Known :=
  (Stmt.flowSeq d k pre).forget (body.assigned ++ post.assigned)

mutual

/-- What a block may become, given what is known in front of it. -/
def Block.Becomes (L : Licence) (k : Known) : Block → Block → Prop
  | ⟨line, stmts⟩, b' => b'.line = line ∧ ∃ k₁ : Known, k₁.Sub k ∧
      Stmt.BecomesSeq L k₁ stmts b'.stmts
termination_by structural code => code

/-- What some statements may become. -/
def Stmt.BecomesSeq (L : Licence) (k : Known) :
    List Stmt → List Stmt → Prop
  | [], out => out = []
  | s :: rest, out => ∃ (first more : List Stmt) (k₁ : Known), out = first ++ more ∧
      ((∃ s', s.Alike L k s' ∧ first = [s']) ∨ (L.reshapes ∧ s.GivesWay L k first)) ∧
      k₁.Sub (Stmt.flowSeq L.dialect k first) ∧ Stmt.BecomesSeq L k₁ rest more
termination_by structural code => code

/-- The statements of the same kind that a statement may become. -/
def Stmt.Alike (L : Licence) (k : Known) : Stmt → Stmt → Prop
  | .expr line e, s' => ∃ e', s' = .expr line e' ∧ L.expr k e e'
  | .assign line targets value, s' =>
    ∃ value', s' = .assign line targets value' ∧ L.expr k value value'
  | .decl line vars none, s' => s' = .decl line vars none
  | .decl line vars (some value), s' =>
    ∃ value', s' = .decl line vars (some value') ∧ L.expr k value value'
  | .func line name params returns body, s' =>
    ∃ body', s' = .func line name params returns body' ∧ body.Becomes L .nothing body'
  | .cond line test body, s' =>
    ∃ test' body', s' = .cond line test' body' ∧ L.expr k test test' ∧ body.Becomes L k body'
  | .switch line subject cases, s' =>
    ∃ subject' cases', s' = .switch line subject' cases' ∧ L.expr k subject subject' ∧
      Case.AlikeSeq L k cases cases'
  | .loop line ⟨preLine, pre⟩ test post body, s' =>
    ∃ pre' test' post' body', s' = .loop line ⟨preLine, pre'⟩ test' post' body' ∧
      Stmt.BecomesSeq L k pre pre' ∧
      L.expr (k.atHead L.dialect pre' post' body') test test' ∧
      post.Becomes L (k.atHead L.dialect pre' post' body') post' ∧
      body.Becomes L (k.atHead L.dialect pre' post' body') body'
  | .brk line, s' => s' = .brk line
  | .cont line, s' => s' = .cont line
  | .block b, s' => ∃ b', s' = .block b' ∧ b.Becomes L k b'
  | .label line name, s' => s' = .label line name
  | .stackAssign line target, s' => s' = .stackAssign line target
termination_by structural code => code

/-- What may take the place of a statement. -/
def Stmt.GivesWay (L : Licence) (k : Known) : Stmt → List Stmt → Prop
  | .decl line vars none, out => L.costs ∧ out = Pass.initializeStmt (.decl line vars none)
  | .cond _ test body, out =>
    (L.constant k test 0 ∧ out = []) ∨
      ∃ w b', L.constant k test w ∧ w ≠ 0 ∧ body.Becomes L k b' ∧ b'.Opens L.once out
  | .switch _ subject cases, out =>
    ∃ w, L.constant k subject w ∧ Case.Selected L k w cases out
  | .loop line ⟨preLine, pre⟩ test post body, out =>
    (∃ (pre' : List Stmt) (k₁ : Known), L.constant k test 0 ∧
      (∀ x ∈ test.reads, x ∉ Stmt.assignedSeq pre ∧ x ∉ Stmt.declaredSeq pre) ∧
      k₁.Sub k ∧ Stmt.BecomesSeq L k₁ pre pre' ∧ (⟨preLine, pre'⟩ : Block).Opens L.once out) ∨
    ∃ pre' test' post' body', Stmt.BecomesSeq L k pre pre' ∧
      L.expr (k.atHead L.dialect pre' post' body') test test' ∧
      post.Becomes L (k.atHead L.dialect pre' post' body') post' ∧
      body.Becomes L (k.atHead L.dialect pre' post' body') body' ∧
      ((⟨line, pre' ++ [.loop line ⟨preLine, []⟩ test' post' body']⟩ : Block).Opens L.once out ∧
          (L.costs ∨ out = pre' ++ [.loop line ⟨preLine, []⟩ test' post' body']) ∨
        L.guards ∧ out = [.loop line ⟨preLine, pre'⟩ (.number test'.line 1) post'
          ⟨body'.line, Pass.guard test' :: body'.stmts⟩])
  | .block b, out => ∃ b', b.Becomes L k b' ∧ Stmt.BindIn L.once b'.stmts ∧ out = b'.stmts
  | _, _ => False
termination_by structural code => code

/-- The same cases with other bodies. -/
def Case.AlikeSeq (L : Licence) (k : Known) : List Case → List Case → Prop
  | [], out => out = []
  | ⟨line, value, body⟩ :: rest, out => ∃ body' rest', out = ⟨line, value, body'⟩ :: rest' ∧
      body.Becomes L k body' ∧ Case.AlikeSeq L k rest rest'
termination_by structural code => code

/-- What may take the place of a switch if its subject is known. -/
def Case.Selected (L : Licence) (k : Known) (w : Word) :
    List Case → List Stmt → Prop
  | [], out => out = []
  | ⟨_, none, body⟩ :: rest, out =>
    if rest.any (Case.selects w) then Case.Selected L k w rest out
    else ∃ b', body.Becomes L k b' ∧ b'.Opens L.once out
  | ⟨_, some l, body⟩ :: rest, out =>
    if l.value.toOption = some w then ∃ b', body.Becomes L k b' ∧ b'.Opens L.once out
    else Case.Selected L k w rest out
termination_by structural code => code

end

/-- What a statement may become. -/
def Stmt.Becomes (L : Licence) (k : Known) (s : Stmt) (out : List Stmt) :
    Prop :=
  (∃ s', s.Alike L k s' ∧ out = [s']) ∨ (L.reshapes ∧ s.GivesWay L k out)

section Structure

variable {L : Licence} {k k' : Known}

/-- A block becomes another one if its statements do, from less knowledge. -/
theorem Block.becomes_iff {b b' : Block} : b.Becomes L k b' ↔
    b'.line = b.line ∧ ∃ k₁ : Known, k₁.Sub k ∧ Stmt.BecomesSeq L k₁ b.stmts b'.stmts := by
  rcases b with ⟨line, stmts⟩
  rw [Block.Becomes]

theorem Block.Becomes.mono {b b' : Block} (h : b.Becomes L k b') (hsub : k.Sub k') :
    b.Becomes L k' b' := by
  rcases Block.becomes_iff.mp h with ⟨hline, k₁, hk₁, h⟩
  exact Block.becomes_iff.mpr ⟨hline, k₁, hk₁.trans hsub, h⟩

/-- More knowledge allows as much in the cases of a switch. -/
theorem Case.AlikeSeq.mono (hsub : k.Sub k') : ∀ {cases out : List Case},
    Case.AlikeSeq L k cases out → Case.AlikeSeq L k' cases out
  | [], out, h => by
      rw [Case.AlikeSeq] at h ⊢
      exact h
  | ⟨_, _, body⟩ :: rest, out, h => by
      rw [Case.AlikeSeq] at h ⊢
      rcases h with ⟨body', rest', rfl, hbody, hrest⟩
      exact ⟨body', rest', rfl, hbody.mono hsub, hrest.mono hsub⟩

theorem Stmt.becomesSeq_nil {out : List Stmt} : Stmt.BecomesSeq L k [] out ↔ out = [] := by
  rw [Stmt.BecomesSeq]

/-- Statements become others one by one, and the rest with what the new first ones teach. -/
theorem Stmt.becomesSeq_cons {s : Stmt} {rest out : List Stmt} :
    Stmt.BecomesSeq L k (s :: rest) out ↔ ∃ (first more : List Stmt) (k₁ : Known),
      out = first ++ more ∧ s.Becomes L k first ∧
        k₁.Sub (Stmt.flowSeq L.dialect k first) ∧ Stmt.BecomesSeq L k₁ rest more := by
  rw [Stmt.BecomesSeq]
  rfl

/-- What a sequence becomes can be split like the sequence. -/
theorem Stmt.BecomesSeq.split {rest : List Stmt} : ∀ {stmts : List Stmt} {k : Known}
    {out : List Stmt}, Stmt.BecomesSeq L k (stmts ++ rest) out →
      ∃ (first more : List Stmt) (k₁ : Known), out = first ++ more ∧
        Stmt.BecomesSeq L k stmts first ∧ k₁.Sub (Stmt.flowSeq L.dialect k first) ∧
        Stmt.BecomesSeq L k₁ rest more
  | [], k, out, h => ⟨[], out, k, rfl, Stmt.becomesSeq_nil.mpr rfl, .refl k, h⟩
  | s :: stmts, k, out, h => by
      rcases Stmt.becomesSeq_cons.mp h with ⟨first, more, k₁, rfl, hs, hk₁, hmore⟩
      rcases Stmt.BecomesSeq.split hmore with ⟨first', more', k₂, rfl, hfirst', hk₂, hmore'⟩
      refine ⟨first ++ first', more', k₂, (List.append_assoc _ _ _).symm,
        Stmt.becomesSeq_cons.mpr ⟨first, first', k₁, rfl, hs, hk₁, hfirst'⟩, ?_, hmore'⟩
      rw [Stmt.flowSeq_append]
      exact hk₂.trans (Stmt.flowSeq_mono hk₁)

/-- A single statement becomes what it becomes in a list. -/
theorem Stmt.becomesSeq_singleton {s : Stmt} {out : List Stmt} :
    Stmt.BecomesSeq L k [s] out ↔ s.Becomes L k out := by
  constructor
  · intro h
    rcases Stmt.becomesSeq_cons.mp h with ⟨first, more, k₁, rfl, hs, _, hmore⟩
    rw [Stmt.becomesSeq_nil.mp hmore, List.append_nil]
    exact hs
  · intro h
    exact Stmt.becomesSeq_cons.mpr ⟨out, [], _, (List.append_nil out).symm, h, .refl _,
      Stmt.becomesSeq_nil.mpr rfl⟩

end Structure

/-- The statements of two lists in a row. -/
theorem Stmt.allStmtsSeq_append (stmts rest : List Stmt) :
    Stmt.allStmtsSeq (stmts ++ rest) = Stmt.allStmtsSeq stmts ++ Stmt.allStmtsSeq rest := by
  induction stmts with
  | nil => rw [List.nil_append, Stmt.allStmtsSeq, List.nil_append]
  | cons s stmts ih =>
      simp only [List.cons_append, Stmt.allStmtsSeq, ih, List.append_assoc]

/-- A declaration that is split up has no statements inside. -/
theorem Stmt.allStmtsSeq_split (line : Nat) (vars : List TypedName) :
    Stmt.allStmtsSeq (Pass.initializeStmt (.decl line vars none))
      = Pass.initializeStmt (.decl line vars none) := by
  rw [Pass.initializeStmt]
  induction vars with
  | nil => rfl
  | cons v rest ih =>
      simp only [List.map_cons, Stmt.allStmtsSeq, Stmt.allInner, List.nil_append, ih]

/-- The names that a statement itself mentions in some role, which has nothing to do
    with its expressions and with the statements inside it. -/
structure Stmt.Role (here : Stmt → List String) : Prop where
  alike : ∀ {L : Licence} {k : Known} {s s' : Stmt},
    s.Alike L k s' → here s' = here s
  split : ∀ (line : Nat) (vars : List TypedName),
    (Pass.initializeStmt (.decl line vars none)).flatMap here = here (.decl line vars none)
  cond : ∀ line test body, here (.cond line test body) = []
  loop : ∀ line pre test post body, here (.loop line pre test post body) = []
  block : ∀ b, here (.block b) = []
  brk : ∀ line, here (.brk line) = []

section Occurrences

variable {L : Licence} {here : Stmt → List String} {x : String}

/-- An opened block mentions what the block does. -/
theorem Block.Opens.occurrences {U : String → Prop} (hrole : Stmt.Role here) {b : Block}
    {out : List Stmt} (h : b.Opens U out) :
    (Stmt.allStmtsSeq out).flatMap here = b.allStmts.flatMap here := by
  rcases b with ⟨line, stmts⟩
  rcases h with rfl | ⟨_, rfl⟩
  · simp only [Stmt.allStmtsSeq, Stmt.allInner, List.append_nil, List.flatMap_cons, hrole.block,
      List.nil_append]
  · rw [Block.allStmts]

mutual

/-- A block mentions no name more often in a role than what it came from. -/
theorem Block.Becomes.count_le (hrole : Stmt.Role here) : ∀ {b b' : Block} {k : Known},
    b.Becomes L k b' →
      (b'.allStmts.flatMap here).count x ≤ (b.allStmts.flatMap here).count x
  | ⟨_, stmts⟩, ⟨_, stmts'⟩, k, h => by
      rw [Block.Becomes] at h
      rcases h with ⟨_, k₁, _, h⟩
      rw [Block.allStmts, Block.allStmts]
      exact Stmt.BecomesSeq.count_le hrole h
termination_by structural b => b

/-- A name does not occur more often behind the rewriting of statements. -/
theorem Stmt.BecomesSeq.count_le (hrole : Stmt.Role here) : ∀ {stmts out : List Stmt} {k : Known},
    Stmt.BecomesSeq L k stmts out →
      ((Stmt.allStmtsSeq out).flatMap here).count x
        ≤ ((Stmt.allStmtsSeq stmts).flatMap here).count x
  | [], out, k, h => by
      obtain rfl := Stmt.becomesSeq_nil.mp h
      exact Nat.le_refl _
  | s :: rest, out, k, h => by
      rcases Stmt.becomesSeq_cons.mp h with ⟨first, more, k₁, rfl, hs, _, hmore⟩
      have hrest := Stmt.BecomesSeq.count_le hrole hmore
      have hfirst : ((Stmt.allStmtsSeq first).flatMap here).count x
          ≤ (here s).count x + (s.allInner.flatMap here).count x := by
        -- Either the first statement keeps its form or it gives way to others.
        rcases hs with ⟨s', hs', rfl⟩ | ⟨_, hs⟩
        · have hinner := Stmt.Alike.count_le hrole hs'
          simp only [Stmt.allStmtsSeq, List.append_nil, List.flatMap_cons, List.count_append,
            hrole.alike hs']
          omega
        · exact Stmt.GivesWay.count_le hrole hs
      simp only [Stmt.allStmtsSeq_append, Stmt.allStmtsSeq, List.flatMap_append, List.flatMap_cons,
        List.count_append]
      omega
termination_by structural stmts => stmts

/-- A name does not occur more often inside of a statement that keeps its form. -/
theorem Stmt.Alike.count_le (hrole : Stmt.Role here) : ∀ {s s' : Stmt} {k : Known},
    s.Alike L k s' →
      (s'.allInner.flatMap here).count x ≤ (s.allInner.flatMap here).count x
  | .expr _ _, s', k, h => by
      rw [Stmt.Alike] at h
      rcases h with ⟨_, rfl, _⟩
      exact Nat.le_refl _
  | .assign _ _ _, s', k, h => by
      rw [Stmt.Alike] at h
      rcases h with ⟨_, rfl, _⟩
      exact Nat.le_refl _
  | .decl _ _ none, s', k, h => by
      rw [Stmt.Alike] at h
      subst h
      exact Nat.le_refl _
  | .decl _ _ (some _), s', k, h => by
      rw [Stmt.Alike] at h
      rcases h with ⟨_, rfl, _⟩
      exact Nat.le_refl _
  | .func _ _ _ _ body, s', k, h => by
      rw [Stmt.Alike] at h
      rcases h with ⟨body', rfl, hbody⟩
      simp only [Stmt.allInner]
      exact Block.Becomes.count_le hrole hbody
  | .cond _ _ body, s', k, h => by
      rw [Stmt.Alike] at h
      rcases h with ⟨_, body', rfl, _, hbody⟩
      simp only [Stmt.allInner]
      exact Block.Becomes.count_le hrole hbody
  | .switch _ _ cases, s', k, h => by
      rw [Stmt.Alike] at h
      rcases h with ⟨_, cases', rfl, _, hcases⟩
      simp only [Stmt.allInner]
      exact Case.AlikeSeq.count_le hrole hcases
  | .loop _ ⟨_, pre⟩ _ post body, s', k, h => by
      rw [Stmt.Alike] at h
      rcases h with ⟨pre', _, post', body', rfl, hpre, _, hpost, hbody⟩
      have hpre' := Stmt.BecomesSeq.count_le hrole hpre
      have hpost' := Block.Becomes.count_le hrole hpost
      have hbody' := Block.Becomes.count_le hrole hbody
      -- Three parts, none with more occurrences than before.
      simp only [Stmt.allInner, Block.allStmts, List.flatMap_append, List.count_append]
        at hpre' hpost' hbody' ⊢
      omega
  | .brk _, s', k, h => by
      rw [Stmt.Alike] at h
      subst h
      exact Nat.le_refl _
  | .cont _, s', k, h => by
      rw [Stmt.Alike] at h
      subst h
      exact Nat.le_refl _
  | .block b, s', k, h => by
      rw [Stmt.Alike] at h
      rcases h with ⟨b', rfl, hb⟩
      simp only [Stmt.allInner]
      exact Block.Becomes.count_le hrole hb
  | .label _ _, s', k, h => by
      rw [Stmt.Alike] at h
      subst h
      exact Nat.le_refl _
  | .stackAssign _ _, s', k, h => by
      rw [Stmt.Alike] at h
      subst h
      exact Nat.le_refl _
termination_by structural s => s

/-- A name does not occur more often in what a statement gives way to. -/
theorem Stmt.GivesWay.count_le (hrole : Stmt.Role here) : ∀ {s : Stmt} {out : List Stmt}
    {k : Known}, s.GivesWay L k out → ((Stmt.allStmtsSeq out).flatMap here).count x
      ≤ (here s).count x + (s.allInner.flatMap here).count x
  | .decl line vars none, out, k, h => by
      simp only [Stmt.GivesWay] at h
      rw [h.2, Stmt.allStmtsSeq_split, hrole.split line vars]
      exact Nat.le_add_right _ _
  | .cond _ _ body, out, k, h => by
      simp only [Stmt.GivesWay] at h
      -- A conditional is dropped, or its body takes its place.
      rcases h with ⟨_, rfl⟩ | ⟨w, b', _, _, hbody, hopens⟩
      · exact Nat.zero_le _
      · rw [hopens.occurrences hrole, Stmt.allInner]
        exact Nat.le_trans (Block.Becomes.count_le hrole hbody) (Nat.le_add_left _ _)
  | .switch _ _ cases, out, k, h => by
      simp only [Stmt.GivesWay] at h
      rcases h with ⟨w, _, hselected⟩
      rw [Stmt.allInner]
      exact Nat.le_trans (Case.Selected.count_le hrole hselected) (Nat.le_add_left _ _)
  | .loop _ ⟨_, pre⟩ test post body, out, k, h => by
      simp only [Stmt.GivesWay] at h
      -- The init part stays alone, is put before the loop, or the condition moves into the body.
      rcases h with ⟨pre', _, _, _, _, hpre, hopens⟩ |
        ⟨pre', test', post', body', hpre, _, hpost, hbody, h⟩
      · have hpre' := Stmt.BecomesSeq.count_le hrole hpre
        rw [hopens.occurrences hrole]
        simp only [Stmt.allInner, Block.allStmts, List.flatMap_append, List.count_append]
        omega
      · have hpre' := Stmt.BecomesSeq.count_le hrole hpre
        have hpost' := Block.Becomes.count_le hrole hpost
        have hbody' := Block.Becomes.count_le hrole hbody
        rcases h with ⟨hopens, _⟩ | ⟨_, rfl⟩
        · rw [hopens.occurrences hrole]
          simp only [Stmt.allInner, Block.allStmts, Stmt.allStmtsSeq_append, Stmt.allStmtsSeq,
            List.flatMap_append, List.flatMap_cons, List.count_append, hrole.loop,
            List.append_nil, List.nil_append, List.count_nil] at hpre' hpost' hbody' ⊢
          omega
        · rcases body' with ⟨bodyLine, stmts⟩
          simp only [Stmt.allInner, Block.allStmts, Stmt.allStmtsSeq, Pass.guard,
            List.flatMap_append, List.flatMap_cons, List.flatMap_nil, List.count_append, hrole.loop,
            hrole.cond, hrole.brk, List.append_nil, List.nil_append, List.count_nil]
            at hpre' hpost' hbody' ⊢
          omega
  | .block b, out, k, h => by
      simp only [Stmt.GivesWay] at h
      rcases h with ⟨b', hb, _, rfl⟩
      have hb' := Block.Becomes.count_le hrole hb
      rcases b' with ⟨line, stmts⟩
      rw [Block.allStmts] at hb'
      rw [Stmt.allInner]
      exact Nat.le_trans hb' (Nat.le_add_left _ _)
  | .expr _ _, out, k, h => by simp only [Stmt.GivesWay] at h
  | .assign _ _ _, out, k, h => by simp only [Stmt.GivesWay] at h
  | .decl _ _ (some _), out, k, h => by simp only [Stmt.GivesWay] at h
  | .func _ _ _ _ _, out, k, h => by simp only [Stmt.GivesWay] at h
  | .brk _, out, k, h => by simp only [Stmt.GivesWay] at h
  | .cont _, out, k, h => by simp only [Stmt.GivesWay] at h
  | .label _ _, out, k, h => by simp only [Stmt.GivesWay] at h
  | .stackAssign _ _, out, k, h => by simp only [Stmt.GivesWay] at h
termination_by structural s => s

/-- A name does not occur more often in rewritten cases. -/
theorem Case.AlikeSeq.count_le (hrole : Stmt.Role here) : ∀ {cases out : List Case} {k : Known},
    Case.AlikeSeq L k cases out → ((Case.allStmtsSeq out).flatMap here).count x
      ≤ ((Case.allStmtsSeq cases).flatMap here).count x
  | [], out, k, h => by
      rw [Case.AlikeSeq] at h
      subst h
      exact Nat.le_refl _
  | ⟨_, _, body⟩ :: rest, out, k, h => by
      rw [Case.AlikeSeq] at h
      rcases h with ⟨body', rest', rfl, hbody, hrest⟩
      have hbody' := Block.Becomes.count_le hrole hbody
      have hrest' := Case.AlikeSeq.count_le hrole hrest
      simp only [Case.allStmtsSeq, List.flatMap_append, List.count_append]
      omega
termination_by structural cases => cases

/-- A name does not occur more often in the selected case. -/
theorem Case.Selected.count_le (hrole : Stmt.Role here) {w : Word} : ∀ {cases : List Case}
    {out : List Stmt} {k : Known}, Case.Selected L k w cases out →
      ((Stmt.allStmtsSeq out).flatMap here).count x
        ≤ ((Case.allStmtsSeq cases).flatMap here).count x
  | [], out, k, h => by
      rw [Case.Selected] at h
      subst h
      exact Nat.zero_le _
  | ⟨_, none, body⟩ :: rest, out, k, h => by
      rw [Case.Selected] at h
      simp only [Case.allStmtsSeq, List.flatMap_append, List.count_append]
      split at h
      · exact Nat.le_trans (Case.Selected.count_le hrole h) (Nat.le_add_left _ _)
      · rcases h with ⟨b', hbody, hopens⟩
        rw [hopens.occurrences hrole]
        exact Nat.le_trans (Block.Becomes.count_le hrole hbody) (Nat.le_add_right _ _)
  | ⟨_, some l, body⟩ :: rest, out, k, h => by
      rw [Case.Selected] at h
      simp only [Case.allStmtsSeq, List.flatMap_append, List.count_append]
      split at h
      · rcases h with ⟨b', hbody, hopens⟩
        rw [hopens.occurrences hrole]
        exact Nat.le_trans (Block.Becomes.count_le hrole hbody) (Nat.le_add_right _ _)
      · exact Nat.le_trans (Case.Selected.count_le hrole h) (Nat.le_add_left _ _)
termination_by structural cases => cases

end

end Occurrences

/-- What a function is to its callers. -/
def FunctionDef.header (f : FunctionDef) : String × List TypedName × List TypedName :=
  (f.name, f.params, f.returns)

/-- Two statements declare and assign the same names. -/
structure Stmt.SameNames (s s' : Stmt) : Prop where
  header : s'.function?.map FunctionDef.header = s.function?.map FunctionDef.header
  declares : s'.declaresHere = s.declaresHere
  assigns : s'.assignsHere = s.assignsHere
  binds : s'.bindsHere = s.bindsHere
  vars : s'.declaresVars = s.declaresVars

theorem Stmt.SameNames.refl (s : Stmt) : s.SameNames s := ⟨rfl, rfl, rfl, rfl, rfl⟩

/-- A statement that keeps its form keeps its names. -/
theorem Stmt.Alike.sameNames {L : Licence} {k : Known} :
    ∀ {s s' : Stmt}, s.Alike L k s' → s.SameNames s'
  | .expr _ _, s', h => by
      rw [Stmt.Alike] at h
      rcases h with ⟨_, rfl, _⟩
      exact ⟨rfl, rfl, rfl, rfl, rfl⟩
  | .assign _ _ _, s', h => by
      rw [Stmt.Alike] at h
      rcases h with ⟨_, rfl, _⟩
      exact ⟨rfl, rfl, rfl, rfl, rfl⟩
  | .decl _ _ none, s', h => by
      rw [Stmt.Alike] at h
      exact h ▸ .refl _
  | .decl _ _ (some _), s', h => by
      rw [Stmt.Alike] at h
      rcases h with ⟨_, rfl, _⟩
      exact ⟨rfl, rfl, rfl, rfl, rfl⟩
  | .func _ _ _ _ _, s', h => by
      rw [Stmt.Alike] at h
      rcases h with ⟨_, rfl, _⟩
      exact ⟨rfl, rfl, rfl, rfl, rfl⟩
  | .cond _ _ _, s', h => by
      rw [Stmt.Alike] at h
      rcases h with ⟨_, _, rfl, _⟩
      exact ⟨rfl, rfl, rfl, rfl, rfl⟩
  | .switch _ _ _, s', h => by
      rw [Stmt.Alike] at h
      rcases h with ⟨_, _, rfl, _⟩
      exact ⟨rfl, rfl, rfl, rfl, rfl⟩
  | .loop _ ⟨_, _⟩ _ _ _, s', h => by
      rw [Stmt.Alike] at h
      rcases h with ⟨_, _, _, _, rfl, _⟩
      exact ⟨rfl, rfl, rfl, rfl, rfl⟩
  | .brk _, s', h => by
      rw [Stmt.Alike] at h
      exact h ▸ .refl _
  | .cont _, s', h => by
      rw [Stmt.Alike] at h
      exact h ▸ .refl _
  | .block _, s', h => by
      rw [Stmt.Alike] at h
      rcases h with ⟨_, rfl, _⟩
      exact ⟨rfl, rfl, rfl, rfl, rfl⟩
  | .label _ _, s', h => by
      rw [Stmt.Alike] at h
      exact h ▸ .refl _
  | .stackAssign _ _, s', h => by
      rw [Stmt.Alike] at h
      exact h ▸ .refl _

/-- The names of a declaration that is split up. -/
theorem Stmt.flatMap_split (here : Stmt → List String)
    (h : ∀ line vars value, here (.decl line vars value) = vars.map (·.name)) (line : Nat)
    (vars : List TypedName) :
    (Pass.initializeStmt (.decl line vars none)).flatMap here = vars.map (·.name) := by
  rw [Pass.initializeStmt, List.flatMap_map]
  induction vars with
  | nil => rfl
  | cons v rest ih =>
      rw [List.flatMap_cons, h, ih, List.map_cons, List.map_nil, List.map_cons,
        List.singleton_append]

/-- Declared names are a role of names. -/
theorem Stmt.declaresHere_role : Stmt.Role Stmt.declaresHere where
  alike h := h.sameNames.declares
  split line vars := Stmt.flatMap_split _ (fun _ _ _ => rfl) line vars
  cond _ _ _ := rfl
  loop _ _ _ _ _ := rfl
  block _ := rfl
  brk _ := rfl

/-- Assigned names are a role of names. -/
theorem Stmt.assignsHere_role : Stmt.Role Stmt.assignsHere where
  alike h := h.sameNames.assigns
  split line vars := by
    rw [Pass.initializeStmt, List.flatMap_map]
    exact List.flatMap_eq_nil_iff.mpr fun _ _ => rfl
  cond _ _ _ := rfl
  loop _ _ _ _ _ := rfl
  block _ := rfl
  brk _ := rfl

section Names

variable {L : Licence} {U : String → Prop} {k : Known}

/-- A block assigns to no variable that it did not assign to before. -/
theorem Block.Becomes.assigned_subset {b b' : Block} (h : b.Becomes L k b') :
    b'.assigned ⊆ b.assigned := by
  intro x hx
  have hcount := h.count_le Stmt.assignsHere_role (x := x)
  rw [← List.one_le_count_iff] at hx ⊢
  exact Nat.le_trans hx hcount

/-- What takes the place of a statement declares nothing but names that are declared only once,
    apart from a declaration that is split up. -/
theorem Block.Opens.bindIn {U : String → Prop} {b : Block} {out : List Stmt}
    (h : b.Opens U out) : Stmt.BindIn U out := by
  rcases h with rfl | ⟨hbind, rfl⟩
  · intro s hs x hx
    obtain rfl := List.mem_singleton.mp hs
    exact absurd hx List.not_mem_nil
  · exact hbind

/-- What the selected case leaves binds only names declared once. -/
theorem Case.Selected.bindIn {w : Word} : ∀ {cases : List Case} {out : List Stmt},
    Case.Selected L k w cases out → Stmt.BindIn L.once out
  | [], out, h => by
      rw [Case.Selected] at h
      subst h
      exact fun s hs => absurd hs List.not_mem_nil
  | ⟨_, none, body⟩ :: rest, out, h => by
      rw [Case.Selected] at h
      split at h
      · exact Case.Selected.bindIn h
      · rcases h with ⟨_, _, hopens⟩
        exact hopens.bindIn
  | ⟨_, some l, body⟩ :: rest, out, h => by
      rw [Case.Selected] at h
      split at h
      · rcases h with ⟨_, _, hopens⟩
        exact hopens.bindIn
      · exact Case.Selected.bindIn h

/-- What a statement gives way to binds only names declared once, unless it is a split
    declaration. -/
theorem Stmt.GivesWay.bindIn : ∀ {s : Stmt} {out : List Stmt}, s.GivesWay L k out →
    Stmt.BindIn L.once out ∨ ∃ line vars, s = .decl line vars none ∧ out = Pass.initializeStmt s
  | .decl line vars none, out, h => by
      simp only [Stmt.GivesWay] at h
      exact Or.inr ⟨line, vars, rfl, h.2⟩
  | .cond _ _ _, out, h => by
      simp only [Stmt.GivesWay] at h
      rcases h with ⟨_, rfl⟩ | ⟨_, _, _, _, _, hopens⟩
      · exact Or.inl fun s hs => absurd hs List.not_mem_nil
      · exact Or.inl hopens.bindIn
  | .switch _ _ _, out, h => by
      simp only [Stmt.GivesWay] at h
      rcases h with ⟨_, _, hselected⟩
      exact Or.inl hselected.bindIn
  | .loop _ ⟨_, _⟩ _ _ _, out, h => by
      simp only [Stmt.GivesWay] at h
      rcases h with ⟨_, _, _, _, _, _, hopens⟩ | ⟨_, _, _, _, _, _, _, _, ⟨hopens, _⟩ | ⟨_, rfl⟩⟩
      · exact Or.inl hopens.bindIn
      · exact Or.inl hopens.bindIn
      · refine Or.inl fun s hs x hx => ?_
        obtain rfl := List.mem_singleton.mp hs
        exact absurd hx List.not_mem_nil
  | .block b, out, h => by
      simp only [Stmt.GivesWay] at h
      rcases h with ⟨_, _, hbind, rfl⟩
      exact Or.inl hbind
  | .expr _ _, out, h => by simp only [Stmt.GivesWay] at h
  | .assign _ _ _, out, h => by simp only [Stmt.GivesWay] at h
  | .decl _ _ (some _), out, h => by simp only [Stmt.GivesWay] at h
  | .func _ _ _ _ _, out, h => by simp only [Stmt.GivesWay] at h
  | .brk _, out, h => by simp only [Stmt.GivesWay] at h
  | .cont _, out, h => by simp only [Stmt.GivesWay] at h
  | .label _ _, out, h => by simp only [Stmt.GivesWay] at h
  | .stackAssign _ _, out, h => by simp only [Stmt.GivesWay] at h

/-- A declared variable is bound. -/
theorem Stmt.mem_bindsHere_of_vars {s : Stmt} {x : String} (h : x ∈ s.declaresVars) :
    x ∈ s.bindsHere := by
  cases s with
  | decl line vars value => exact h
  | _ => exact absurd h List.not_mem_nil

/-- A defined function is bound. -/
theorem Stmt.mem_bindsHere_of_function {s : Stmt} {f : FunctionDef} (h : s.function? = some f) :
    f.name ∈ s.bindsHere := by
  cases s with
  | func line name params returns body =>
      obtain rfl := Option.some.inj h
      exact List.mem_singleton_self name
  | _ => exact absurd h (by rintro ⟨⟩)

/-- The variables that a statement declares in its scope are those it declared before,
    and others that are declared only once. -/
theorem Stmt.Becomes.vars {s : Stmt} {out : List Stmt} (h : s.Becomes L k out) :
    s.declaresVars ⊆ Stmt.declaredSeq out ∧
      ∀ x ∈ Stmt.declaredSeq out, x ∈ s.declaresVars ∨ L.once x := by
  -- A statement that keeps its form declares the same.
  rcases h with ⟨s', h, rfl⟩ | ⟨_, h⟩
  · rw [Stmt.declaredSeq_cons, h.sameNames.vars]
    have hnil : Stmt.declaredSeq [] = [] := rfl
    rw [hnil, List.append_nil]
    exact ⟨List.Subset.refl _, fun _ hx => Or.inl hx⟩
  · rcases Stmt.GivesWay.bindIn h with hbind | ⟨line, vars, rfl, rfl⟩
    -- Only a declaration declares variables, and it gives way to its own parts.
    · refine ⟨?_, fun x hx => ?_⟩
      · cases s with
        | decl line vars value =>
            cases value with
            | none =>
                simp only [Stmt.GivesWay] at h
                rw [Stmt.declaredSeq, h.2, Stmt.flatMap_split _ fun _ _ _ => rfl]
                exact List.Subset.refl _
            | some e => simp only [Stmt.GivesWay] at h
        | _ => exact List.nil_subset _
      · rcases List.mem_flatMap.mp hx with ⟨s', hs', hx⟩
        exact Or.inr (hbind s' hs' x (Stmt.mem_bindsHere_of_vars hx))
    · rw [Stmt.declaredSeq, Stmt.flatMap_split _ fun _ _ _ => rfl]
      exact ⟨List.Subset.refl _, fun _ hx => Or.inl hx⟩

/-- The functions of some statements are there in others, and all further ones have
    names with a property. -/
structure Stmt.Mirrors (U : String → Prop) (stmts out : List Stmt) : Prop where
  names : ∀ x, ¬U x → ((out.filterMap Stmt.function?).map (·.name)).count x
    ≤ ((stmts.filterMap Stmt.function?).map (·.name)).count x
  found : ∀ f ∈ stmts.filterMap Stmt.function?, ∃ f' ∈ out.filterMap Stmt.function?,
    f'.header = f.header

/-- Mirrored parts in a row are mirrored. -/
theorem Stmt.Mirrors.append {stmts rest out more : List Stmt} (h : Stmt.Mirrors U stmts out)
    (h' : Stmt.Mirrors U rest more) : Stmt.Mirrors U (stmts ++ rest) (out ++ more) := by
  refine ⟨fun x hx => ?_, fun f hf => ?_⟩
  · have hfirst := h.names x hx
    have hrest := h'.names x hx
    simp only [List.filterMap_append, List.map_append, List.count_append]
    omega
  · rw [List.filterMap_append] at hf ⊢
    rcases List.mem_append.mp hf with hf | hf
    · rcases h.found f hf with ⟨f', hf', hsame⟩
      exact ⟨f', List.mem_append_left _ hf', hsame⟩
    · rcases h'.found f hf with ⟨f', hf', hsame⟩
      exact ⟨f', List.mem_append_right _ hf', hsame⟩

/-- What has no functions is mirrored by anything whose functions have the property. -/
theorem Stmt.Mirrors.of_none {stmts out : List Stmt}
    (hstmts : stmts.filterMap Stmt.function? = [])
    (h : ∀ f ∈ out.filterMap Stmt.function?, U f.name) : Stmt.Mirrors U stmts out := by
  refine ⟨fun x hx => ?_, fun f hf => absurd (hstmts ▸ hf) List.not_mem_nil⟩
  rw [List.count_eq_zero_of_not_mem fun hmem => ?_]
  · exact Nat.zero_le _
  · rcases List.mem_map.mp hmem with ⟨f, hf, rfl⟩
    exact hx (h f hf)

/-- Statements with equal headers mirror each other. -/
theorem Stmt.Mirrors.of_header {s s' : Stmt}
    (h : s'.function?.map FunctionDef.header = s.function?.map FunctionDef.header) :
    Stmt.Mirrors U [s] [s'] := by
  cases hs : s.function? with
  -- Neither of them is a function.
  | none =>
      rw [hs, Option.map_none, Option.map_eq_none_iff] at h
      refine .of_none (by rw [List.filterMap_cons_none hs, List.filterMap_nil]) fun f hf => ?_
      rw [List.filterMap_cons_none h] at hf
      exact absurd hf List.not_mem_nil
  -- Both are functions, with the same name.
  | some f =>
      rw [hs, Option.map_some, Option.map_eq_some_iff] at h
      rcases h with ⟨f', hf', hheader⟩
      have hname : f'.name = f.name := congrArg (·.1) hheader
      refine ⟨fun x _ => ?_, fun g hg => ?_⟩
      · simp only [List.filterMap_cons_some hs, List.filterMap_cons_some hf', List.map_cons, hname,
          List.filterMap_nil, Nat.le_refl]
      · rw [List.filterMap_cons_some hs, List.filterMap_nil, List.mem_singleton] at hg
        subst hg
        refine ⟨f', ?_, hheader⟩
        rw [List.filterMap_cons_some hf']
        exact List.mem_cons_self

/-- A function definition never gives way. -/
theorem Stmt.GivesWay.function?_eq_none {s : Stmt} {out : List Stmt} (h : s.GivesWay L k out) :
    s.function? = none := by
  cases s with
  | func line name params returns body => simp only [Stmt.GivesWay] at h
  | _ => rfl

/-- A rewritten statement mirrors its functions. -/
theorem Stmt.Becomes.mirrors {s : Stmt} {out : List Stmt} (h : s.Becomes L k out) :
    Stmt.Mirrors L.once [s] out := by
  rcases h with ⟨s', h, rfl⟩ | ⟨_, h⟩
  · exact .of_header h.sameNames.header
  · have hnone : [s].filterMap Stmt.function? = [] := by
      rw [List.filterMap_cons_none (Stmt.GivesWay.function?_eq_none h), List.filterMap_nil]
    refine .of_none hnone fun f hf => ?_
    rcases List.mem_filterMap.mp hf with ⟨s', hs', hsf⟩
    rcases Stmt.GivesWay.bindIn h with hbind | ⟨line, vars, rfl, rfl⟩
    · exact hbind s' hs' f.name (Stmt.mem_bindsHere_of_function hsf)
    · rcases List.mem_map.mp hs' with ⟨v, _, rfl⟩
      exact absurd hsf (by rintro ⟨⟩)

/-- Rewritten statements mirror their functions. -/
theorem Stmt.BecomesSeq.mirrors : ∀ {stmts out : List Stmt} {k : Known},
    Stmt.BecomesSeq L k stmts out → Stmt.Mirrors L.once stmts out
  | [], out, k, h => by
      rw [Stmt.becomesSeq_nil.mp h]
      exact .of_none rfl fun f hf => absurd hf List.not_mem_nil
  | s :: rest, out, k, h => by
      rcases Stmt.becomesSeq_cons.mp h with ⟨first, more, k₁, rfl, hs, _, hmore⟩
      exact hs.mirrors.append (Stmt.BecomesSeq.mirrors hmore)

end Names

end YulToolchain
