import YulToolchain.Ast.BottomUp
import YulToolchain.Proofs.Flow.Hooks
import YulToolchain.Proofs.Pass.Becomes

/-!
# Passes Are Instances

What a pass makes of code is something that the code may become.

There are two ways in which passes go through code: along the flow, acting on what is
known, and from the inside to the outside. What a pass does at a single expression or
statement is checked against a licence once; that its result as a whole is licensed is shown
here for all passes of either kind.

On the way along the flow, the known values are those of the code as it has become so far.
The walk may know less than what the flow of the new code would tell, since around a loop it
forgets what the old code assigned to. So it is always a part of the knowledge that the
relation grants.

## Main definitions

* `Licence.Closed`: Replacements may be chained and made in arguments.
* `Policy.Licensed`: A policy does only what a licence permits.
* `Flow.BlockBecomes`, `Flow.StmtBecomes`: What a walk with some fuel makes of code.

## Theorems

* `Flow.StmtBecomes.func`, `Flow.StmtBecomes.loop` and so on: One for each kind of statement, from
  what is known of walks through its parts.
* `Flow.run_becomes`: A walk along the flow makes of code what it may become.
* `Block.bottomUp_becomes`: So does a change from the inside to the outside.
-/

namespace YulToolchain

open Known

/-- Replacements of expressions may be chained and made in arguments, and more knowledge
    does not hurt. -/
structure Licence.Closed (L : Licence) : Prop where
  refl : ∀ (k : Known) (e : Expr), L.expr k e e
  trans : ∀ {k : Known} {e e' e'' : Expr}, L.expr k e e' → L.expr k e' e'' → L.expr k e e''
  mono : ∀ {k k' : Known} {e e' : Expr}, L.expr k e e' → k.Sub k' → L.expr k' e e'
  instr : ∀ {k : Known} {args args' : List Expr} (line : Nat) (op : Instruction),
    List.Forall₂ (L.expr k) args args' → L.expr k (.instr line op args) (.instr line op args')
  call : ∀ {k : Known} {name : String} {args args' : List Expr} (line : Nat),
    Flow.takesLiterals L.dialect name = false → List.Forall₂ (L.expr k) args args' →
      L.expr k (.call line name args) (.call line name args')

/-- What runs allow is closed. -/
theorem Licence.running_closed (c : RunContext) (U : String → Prop) (r : Liberty) :
    (Licence.running c U r).Closed where
  refl _ e := .refl e
  trans h h' := h.trans h'
  mono h hsub := h.mono hsub
  instr _ _ h := .instr h
  call _ hname h := .call hname h

variable {σ : Type}

/-- A policy does only what a licence permits. A statement may be replaced by others if
    what those become may take its place. -/
structure Policy.Licensed (L : Licence) (p : Policy σ) : Prop where
  enter : ∀ (k : Known) (e : Expr) (own : σ), L.expr k e (p.enter k e own).1
  leave : ∀ (k : Known) (e : Expr) (own : σ), L.expr k e (p.leave k e own).1
  replace : ∀ (k : Known) (s : Stmt) (own : σ) (stmts : List Stmt),
    (p.replace k s own).1 = some stmts → Stmt.weightSeq stmts < s.weight ∧ L.reshapes ∧
      ∀ out, Stmt.BecomesSeq L k stmts out → s.GivesWay L k out

namespace Flow

variable {L : Licence} {p : Policy σ}

theorem act_run {α : Type} (f : Known → σ → α × σ) (k : Known) (scopes : List (List String))
    (own : σ) : (act f : Walk σ α) ⟨k, scopes, own⟩
      = ((f k own).1, ⟨k, scopes, (f k own).2⟩) := rfl

mutual

/-- Walking an expression replaces it as the licence permits, and nothing is learned. -/
theorem visitExpr_becomes (hL : L.Closed) (hp : p.Licensed L) : ∀ (fuel : Nat) (e : Expr)
    (k : Known) (scopes : List (List String)) (own : σ), ∃ e' own',
      visitExpr L.dialect p fuel e ⟨k, scopes, own⟩ = (e', ⟨k, scopes, own'⟩) ∧ L.expr k e e'
  | 0, e, k, scopes, own => ⟨e, own, rfl, hL.refl k e⟩
  | fuel + 1, e, k, scopes, own => by
      have henter := hp.enter k e own
      rw [visitExpr, walk_bind (act_run _ k scopes own)]
      generalize (p.enter k e own).1 = e₁ at henter ⊢
      generalize (p.enter k e own).2 = own₁
      -- What the arguments become is licensed, and so is what is done to the result.
      cases e₁ with
      | literal l =>
          exact ⟨(p.leave k (.literal l) own₁).1, _, rfl, hL.trans henter (hp.leave k _ own₁)⟩
      | ident line name =>
          exact ⟨(p.leave k (.ident line name) own₁).1, _, rfl,
            hL.trans henter (hp.leave k _ own₁)⟩
      | instr line op args =>
          rcases visitArgs_becomes hL hp fuel args k scopes own₁ with ⟨args', own₂, hargs, h⟩
          refine ⟨(p.leave k (.instr line op args') own₂).1,
            (p.leave k (.instr line op args') own₂).2, ?_,
            hL.trans (hL.trans henter (hL.instr line op h)) (hp.leave k _ own₂)⟩
          dsimp only
          rw [walk_bind (walk_map hargs), act_run]
      | call line name args =>
          by_cases hname : takesLiterals L.dialect name = true
          · refine ⟨(p.leave k (.call line name args) own₁).1,
              (p.leave k (.call line name args) own₁).2,
              ?_,
              hL.trans henter (hp.leave k _ own₁)⟩
            simp only [hname, if_true]
            rfl
          · rcases visitArgs_becomes hL hp fuel args k scopes own₁ with ⟨args', own₂, hargs, h⟩
            rw [Bool.not_eq_true] at hname
            refine ⟨(p.leave k (.call line name args') own₂).1,
              (p.leave k (.call line name args') own₂).2,
              ?_,
              hL.trans (hL.trans henter (hL.call line hname h)) (hp.leave k _ own₂)⟩
            simp only [hname, Bool.false_eq_true, if_false]
            rw [walk_bind (walk_map hargs), act_run]

/-- Visiting arguments rewrites them as licensed. -/
theorem visitArgs_becomes (hL : L.Closed) (hp : p.Licensed L) : ∀ (fuel : Nat)
    (es : List Expr) (k : Known) (scopes : List (List String)) (own : σ), ∃ es' own',
      visitArgs L.dialect p fuel es ⟨k, scopes, own⟩ = (es', ⟨k, scopes, own'⟩) ∧
        List.Forall₂ (L.expr k) es es'
  | 0, es, k, scopes, own => by
      refine ⟨es, own, by rw [visitArgs]; rfl, ?_⟩
      exact List.forall₂_same.mpr fun e _ => hL.refl k e
  | fuel + 1, [], k, scopes, own => by
      refine ⟨[], own, ?_, .nil⟩
      rw [visitArgs]
      · rfl
      · rintro ⟨⟩
  | fuel + 1, e :: rest, k, scopes, own => by
      rcases visitArgs_becomes hL hp fuel rest k scopes own with ⟨rest', own₁, hrest, h⟩
      rcases visitExpr_becomes hL hp fuel e k scopes own₁ with ⟨e', own₂, he, h'⟩
      refine ⟨e' :: rest', own₂, ?_, .cons h' h⟩
      rw [visitArgs, walk_bind hrest, walk_bind he]
      rfl

end

/-- Visiting the expression of a statement rewrites it as licensed. -/
theorem visitRoot_becomes (hL : L.Closed) (hp : p.Licensed L) (e : Expr) (k : Known)
    (scopes : List (List String)) (own : σ) : ∃ e' own',
      visitRoot L.dialect p e ⟨k, scopes, own⟩
        = (e', ⟨k.evaluated L.dialect e', scopes, own'⟩) ∧ L.expr k e e' := by
  rcases visitExpr_becomes hL hp (2 * (e.size + k.size) + 1) e k scopes own with
    ⟨e', own', hrun, h⟩
  refine ⟨e', own', ?_, h⟩
  have hget : (get : Walk σ (FlowState σ)) ⟨k, scopes, own⟩
      = (⟨k, scopes, own⟩, ⟨k, scopes, own⟩) := rfl
  rw [visitRoot, walk_bind hget, walk_bind hrun]
  rfl

/-- Where the new code is known to assign to less, more would be known. -/
theorem known_around_loop {k k₁ kBody kPost : Known} {pre' : List Stmt} {test' : Expr}
    {post post' body body' : Block} (hbody : body'.assigned ⊆ body.assigned)
    (hpost : post'.assigned ⊆ post.assigned) (h₁ : k₁.Sub (Stmt.flowSeq L.dialect k pre'))
    (hBody : kBody.Sub (body'.flow L.dialect
      ((k₁.forget (body.assigned ++ post.assigned)).evaluated L.dialect test')))
    (hPost : kPost.Sub (post'.flow L.dialect (kBody.forget (body.assigned ++ post.assigned)))) :
    (kBody.forget (body.assigned ++ post.assigned)).Sub (k.atHead L.dialect pre' post' body') ∧
    ((kPost.forget (body.assigned ++ post.assigned)).forget (Stmt.declaredSeq pre')).Sub
      (((post'.flow L.dialect ((body'.flow L.dialect
        ((k.atHead L.dialect pre' post' body').evaluated L.dialect test')).forget
          (body'.assigned ++ post'.assigned))).forget (body'.assigned ++ post'.assigned)).forget
            (Stmt.declaredSeq pre')) := by
  -- The walk forgets what the old parts assign, and those assign more.
  have hassigned : body'.assigned ++ post'.assigned ⊆ body.assigned ++ post.assigned := by
    intro x hx
    rcases List.mem_append.mp hx with hx | hx
    · exact List.mem_append_left _ (hbody hx)
    · exact List.mem_append_right _ (hpost hx)
  have hhead : (k₁.forget (body.assigned ++ post.assigned)).Sub
      (k.atHead L.dialect pre' post' body') := h₁.forget hassigned
  refine ⟨?_, ?_⟩
  -- At the head of the loop, again behind the body.
  · refine (hBody.forget (List.Subset.refl _)).trans ?_
    refine (Block.flow_forget_sub fun x hx => List.mem_append_left _ (hbody hx)).trans ?_
    exact (forget_sub _ _).trans ((evaluated_sub _ _ _).trans hhead)
  -- And behind the whole loop.
  · refine Sub.forget (Sub.forget (hPost.trans (Block.flow_mono ?_)) hassigned)
      (List.Subset.refl _)
    exact Sub.forget (hBody.trans (Block.flow_mono (hhead.evaluated test'))) hassigned

/-- The weights of two lists add up. -/
theorem weightSeq_append (stmts rest : List Stmt) :
    Stmt.weightSeq (stmts ++ rest) = Stmt.weightSeq stmts + Stmt.weightSeq rest := by
  induction stmts with
  | nil => rw [List.nil_append, Stmt.weightSeq, Nat.zero_add]
  | cons s stmts ih => rw [List.cons_append, Stmt.weightSeq, Stmt.weightSeq, ih, Nat.add_assoc]

/-- With this much fuel, walking a block makes of it what it may become. -/
def BlockBecomes (L : Licence) (p : Policy σ) (fuel : Nat) (b : Block) : Prop :=
  ∀ (k : Known) (scopes : List (List String)) (own : σ),
    b.weight ≤ fuel → ∃ b' k' own',
    visitBlock L.dialect p fuel b ⟨k, scopes, own⟩ = (b', ⟨k', scopes, own'⟩) ∧
      b.Becomes L k b' ∧ k'.Sub (b'.flow L.dialect k)

/-- With this much fuel, walking statements makes of them what they may become. -/
def StmtsBecome (L : Licence) (p : Policy σ) (fuel : Nat) (stmts : List Stmt) : Prop :=
  ∀ (k : Known) (scope : List String) (outer : List (List String)) (own : σ),
    Stmt.weightSeq stmts ≤ fuel → ∃ out k' own',
      visitStmts L.dialect p fuel stmts ⟨k, scope :: outer, own⟩
        = (out, ⟨k', (scope ++ Stmt.declaredSeq out) :: outer, own'⟩) ∧
      Stmt.BecomesSeq L k stmts out ∧ k'.Sub (Stmt.flowSeq L.dialect k out)

/-- With this much fuel, walking a statement makes of it what it may become. -/
def StmtBecomes (L : Licence) (p : Policy σ) (fuel : Nat) (s : Stmt) : Prop :=
  ∀ (k : Known) (scope : List String) (outer : List (List String)) (own : σ),
    s.weight ≤ fuel + 1 → ∃ s' k' own',
      visitStmt L.dialect p fuel s ⟨k, scope :: outer, own⟩
        = (s', ⟨k', (scope ++ s'.declaresVars) :: outer, own'⟩) ∧
      s.Alike L k s' ∧ k'.Sub (s'.flow L.dialect k)

/-- With this much fuel, walking the cases of a switch makes of them what they may become. -/
def CasesBecome (L : Licence) (p : Policy σ) (fuel : Nat) (cases : List Case) : Prop :=
  ∀ (k : Known) (scopes : List (List String)) (own : σ),
    Case.weightSeq cases ≤ fuel → ∃ cases' k' own',
      visitCases L.dialect p fuel cases ⟨k, scopes, own⟩ = (cases', ⟨k', scopes, own'⟩) ∧
        Case.AlikeSeq L k cases cases' ∧ k'.Sub (Case.flowSeq L.dialect k cases')

variable {fuel : Nat}

namespace BlockBecomes

/-- Without fuel a block cannot weigh enough. -/
theorem zero {b : Block} : BlockBecomes L p 0 b := by
  rcases b with ⟨line, stmts⟩
  intro k scopes own hfuel
  rw [Block.weight] at hfuel
  omega

/-- A block becomes what its statements do. -/
theorem of_stmts {line : Nat} {stmts : List Stmt} (hinner : StmtsBecome L p fuel stmts) :
    BlockBecomes L p (fuel + 1) ⟨line, stmts⟩ := by
  intro k scopes own hfuel
  rw [Block.weight] at hfuel
  rcases hinner k [] scopes own (by omega) with ⟨out, k', own', hrun, h, hsub⟩
  have hopen : (openScope : Walk σ Unit) ⟨k, scopes, own⟩ = ((), ⟨k, [] :: scopes, own⟩) := rfl
  refine ⟨⟨line, out⟩, k'.forget (Stmt.declaredSeq out), own', ?_, ?_, ?_⟩
  · rw [visitBlock, walk_bind hopen, walk_bind hrun, walk_bind (closeScope_run _ _ _ _)]
    rfl
  · exact Block.becomes_iff.mpr ⟨rfl, k, .refl k, h⟩
  · rw [Block.flow]
    exact hsub.forget (List.Subset.refl _)

end BlockBecomes

namespace StmtsBecome

/-- No statements become none. -/
theorem nil : StmtsBecome L p fuel [] := by
  intro k scope outer own _
  refine ⟨[], k, own, ?_, Stmt.becomesSeq_nil.mpr rfl, .refl k⟩
  rw [Stmt.declaredSeq, List.flatMap_nil, List.append_nil]
  cases fuel <;> rfl

/-- Without fuel a statement cannot weigh enough. -/
theorem zero {s : Stmt} {rest : List Stmt} : StmtsBecome L p 0 (s :: rest) := by
  intro k scope outer own hfuel
  have := weight_pos s
  rw [Stmt.weightSeq] at hfuel
  omega

/-- If the policy replaces a statement then the walk goes on with what it is replaced by, and that
    is what takes the place of the statement in the end. -/
theorem cons (hp : p.Licensed L) {s : Stmt} {rest : List Stmt} (hone : StmtBecomes L p fuel s)
    (hlater : ∀ stmts, StmtsBecome L p fuel stmts) : StmtsBecome L p (fuel + 1) (s :: rest) := by
  intro k scope outer own hfuel
  have := weight_pos s
  rw [Stmt.weightSeq] at hfuel
  rw [visitStmts, walk_bind (act_run _ k (scope :: outer) own)]
  cases hreplace : (p.replace k s own).1 with
  -- The replacement is walked with the others, and it is split off again behind the walk.
  | some stmts =>
      rcases hp.replace k s own stmts hreplace with ⟨hweight, hreshapes, hgives⟩
      rcases hlater (stmts ++ rest) k scope outer (p.replace k s own).2
        (by rw [weightSeq_append]; omega) with ⟨out, k', own', hrun, h, hsub⟩
      refine ⟨out, k', own', hrun, ?_, hsub⟩
      rcases h.split with ⟨first, more, k₁, rfl, hfirst, hk₁, hmore⟩
      exact Stmt.becomesSeq_cons.mpr
        ⟨first, more, k₁, rfl, Or.inr ⟨hreshapes, hgives first hfirst⟩, hk₁, hmore⟩
  -- The statement is kept and walked itself.
  | none =>
      rcases hone k scope outer (p.replace k s own).2 (by omega) with ⟨s', k₁, own₁, hs, h, hsub⟩
      rcases hlater rest k₁ (scope ++ s'.declaresVars) outer own₁
        (by omega) with ⟨out, k', own', hrest, h', hsub'⟩
      refine ⟨s' :: out, k', own', ?_, ?_, ?_⟩
      · dsimp only
        rw [walk_bind hs, walk_bind hrest, Stmt.declaredSeq_cons, ← List.append_assoc]
        rfl
      · refine Stmt.becomesSeq_cons.mpr ⟨[s'], out, k₁, rfl, Or.inl ⟨s', h, rfl⟩, ?_, h'⟩
        rw [Stmt.flowSeq, Stmt.flowSeq]
        exact hsub
      · rw [Stmt.flowSeq]
        exact hsub'.trans (Stmt.flowSeq_mono hsub)

end StmtsBecome

namespace StmtBecomes

theorem zero {s : Stmt} : StmtBecomes L p 0 s := by
  intro k scope outer own hfuel
  have := weight_pos s
  omega

/-- A statement of one expression keeps its form. -/
theorem expr (hL : L.Closed) (hp : p.Licensed L) {line : Nat} {e : Expr} :
    StmtBecomes L p (fuel + 1) (Stmt.expr line e) := by
  intro k scope outer own _
  rcases visitRoot_becomes hL hp e k (scope :: outer) own with ⟨e', own', he, h⟩
  refine ⟨.expr line e', k.evaluated L.dialect e', own', ?_, ?_, ?_⟩
  · simp only [Stmt.declaresVars, List.append_nil]
    rw [visitStmt, walk_bind he]
    rfl
  · rw [Stmt.Alike]
    exact ⟨e', rfl, h⟩
  · rw [Stmt.flow]
    exact .refl _

/-- An assignment keeps its form. -/
theorem assign (hL : L.Closed) (hp : p.Licensed L) {line : Nat} {targets : List Identifier}
    {value : Expr} : StmtBecomes L p (fuel + 1) (Stmt.assign line targets value) := by
  intro k scope outer own _
  rcases visitRoot_becomes hL hp value k (scope :: outer) own with ⟨value', own', he, h⟩
  refine ⟨.assign line targets value', (k.evaluated L.dialect value').assigned L.dialect
    (targets.map (·.name)) (some value'), own', ?_, ?_, ?_⟩
  · simp only [Stmt.declaresVars, List.append_nil]
    rw [visitStmt, walk_bind he]
    rfl
  · rw [Stmt.Alike]
    exact ⟨value', rfl, h⟩
  · rw [Stmt.flow]
    exact .refl _

/-- A declaration without a value keeps its form. -/
theorem decl_none {line : Nat} {vars : List TypedName} :
    StmtBecomes L p (fuel + 1) (Stmt.decl line vars none) := by
  intro k scope outer own _
  refine ⟨.decl line vars none, k.assigned L.dialect (vars.map (·.name))
    (declaredValue line vars none), own, ?_, ?_, ?_⟩
  · rw [visitStmt, Stmt.declaresVars]
    rfl
  · rw [Stmt.Alike]
  · rw [Stmt.flow]
    exact .refl _

/-- A declaration with a value keeps its form. -/
theorem decl_some (hL : L.Closed) (hp : p.Licensed L) {line : Nat} {vars : List TypedName}
    {value : Expr} : StmtBecomes L p (fuel + 1) (Stmt.decl line vars (some value)) := by
  intro k scope outer own _
  rcases visitRoot_becomes hL hp value k (scope :: outer) own with ⟨value', own', he, h⟩
  have hvalue : ((some value).mapM (visitRoot L.dialect p) : Walk σ (Option Expr))
      ⟨k, scope :: outer, own⟩ = (some value', ⟨k.evaluated L.dialect value', scope :: outer,
        own'⟩) := walk_map he
  refine ⟨.decl line vars (some value'), (k.evaluated L.dialect value').assigned L.dialect
    (vars.map (·.name)) (declaredValue line vars (some value')), own', ?_, ?_, ?_⟩
  · rw [visitStmt, walk_bind hvalue, Stmt.declaresVars]
    rfl
  · rw [Stmt.Alike]
    exact ⟨value', rfl, h⟩
  · rw [Stmt.flow]
    exact .refl _

/-- Nothing is known at the start of a function, and what is known around it stays known. -/
theorem func {line : Nat} {name : String} {params returns : List TypedName} {body : Block}
    (hinner : BlockBecomes L p fuel body) :
    StmtBecomes L p (fuel + 1) (Stmt.func line name params returns body) := by
  intro k scope outer own hfuel
  rw [Stmt.weight] at hfuel
  rcases hinner .nothing [(params ++ returns).map (·.name)] own
    (by omega) with ⟨body', k', own', hbody, h, _⟩
  -- The body is walked on its own, from nothing known.
  have hget : (get : Walk σ (FlowState σ)) ⟨k, scope :: outer, own⟩
      = (⟨k, scope :: outer, own⟩, ⟨k, scope :: outer, own⟩) := rfl
  have hset : (set (⟨.nothing, [(params ++ returns).map TypedName.name], own⟩ : FlowState σ) :
      Walk σ PUnit) ⟨k, scope :: outer, own⟩
        = (⟨⟩, ⟨.nothing, [(params ++ returns).map TypedName.name], own⟩) := rfl
  refine ⟨.func line name params returns body', k, own', ?_, ?_, ?_⟩
  · simp only [Stmt.declaresVars, List.append_nil]
    rw [visitStmt, walk_bind hget, walk_bind hset, walk_bind hbody]
    rfl
  · rw [Stmt.Alike]
    exact ⟨body', rfl, h⟩
  · rw [Stmt.flow]
    exact .refl _

/-- A conditional keeps its form. -/
theorem cond (hL : L.Closed) (hp : p.Licensed L) {line : Nat} {test : Expr} {body : Block}
    (hinner : BlockBecomes L p fuel body) :
    StmtBecomes L p (fuel + 1) (Stmt.cond line test body) := by
  intro k scope outer own hfuel
  rw [Stmt.weight] at hfuel
  rcases visitRoot_becomes hL hp test k (scope :: outer) own with ⟨test', own₁, htest, h⟩
  rcases hinner (k.evaluated L.dialect test') (scope :: outer) own₁
    (by omega) with ⟨body', k', own', hbody, h', hsub⟩
  refine ⟨.cond line test' body', k'.forget body'.assigned, own', ?_, ?_, ?_⟩
  · simp only [Stmt.declaresVars, List.append_nil]
    rw [visitStmt, walk_bind htest, walk_bind hbody]
    rfl
  · rw [Stmt.Alike]
    exact ⟨test', body', rfl, h, h'.mono (evaluated_sub _ _ _)⟩
  · rw [Stmt.flow]
    exact hsub.forget (List.Subset.refl _)

/-- A switch keeps its form. -/
theorem switch (hL : L.Closed) (hp : p.Licensed L) {line : Nat} {subject : Expr} {cases : List Case}
    (hinner : CasesBecome L p fuel cases) :
    StmtBecomes L p (fuel + 1) (Stmt.switch line subject cases) := by
  intro k scope outer own hfuel
  rw [Stmt.weight] at hfuel
  rcases visitRoot_becomes hL hp subject k (scope :: outer) own with ⟨subject', own₁, hsubject, h⟩
  rcases hinner (k.evaluated L.dialect subject') (scope :: outer)
    own₁ (by omega) with ⟨cases', k', own', hcases, h', hsub⟩
  refine ⟨.switch line subject' cases', k', own', ?_, ?_, ?_⟩
  · simp only [Stmt.declaresVars, List.append_nil]
    rw [visitStmt, walk_bind hsubject, walk_bind hcases]
    rfl
  · rw [Stmt.Alike]
    exact ⟨subject', cases', rfl, h, h'.mono (evaluated_sub _ _ _)⟩
  · rw [Stmt.flow]
    exact hsub

/-- The walk forgets what the old loop assigns. The new loop assigns no more than that, so the walk
    never knows more than what the flow of the new loop tells. -/
theorem loop (hL : L.Closed) (hp : p.Licensed L) {line preLine : Nat} {pre : List Stmt}
    {test : Expr} {post body : Block} (hinit : StmtsBecome L p fuel pre)
    (hround : BlockBecomes L p fuel body) (hthen : BlockBecomes L p fuel post) :
    StmtBecomes L p (fuel + 1) (Stmt.loop line ⟨preLine, pre⟩ test post body) := by
  intro k scope outer own hfuel
  rw [Stmt.weight, Block.weight] at hfuel
  -- The four parts in the order of the walk.
  rcases hinit k [] (scope :: outer) own (by omega) with ⟨pre', k₁, own₁, hpre, h, hsub₁⟩
  rcases visitRoot_becomes hL hp test (k₁.forget (body.assigned ++ post.assigned))
    (([] ++ Stmt.declaredSeq pre') :: scope :: outer) own₁ with ⟨test', own₂, htest, h₂⟩
  rcases hround ((k₁.forget (body.assigned ++ post.assigned)).evaluated L.dialect test')
    (([] ++ Stmt.declaredSeq pre') :: scope :: outer) own₂ (by omega) with
      ⟨body', k₃, own₃, hbody, h₃, hsub₃⟩
  rcases hthen (k₃.forget (body.assigned ++ post.assigned))
    (([] ++ Stmt.declaredSeq pre') :: scope :: outer) own₃ (by omega) with
      ⟨post', k₄, own₄, hpost, h₄, hsub₄⟩
  have hopen : (openScope : Walk σ Unit) ⟨k, scope :: outer, own⟩
      = ((), ⟨k, [] :: scope :: outer, own⟩) := rfl
  -- The new parts assign no more than the old ones.
  have hassigned : body'.assigned ++ post'.assigned ⊆ body.assigned ++ post.assigned :=
    List.append_subset.mpr ⟨fun x hx => List.mem_append_left _ (h₃.assigned_subset hx),
      fun x hx => List.mem_append_right _ (h₄.assigned_subset hx)⟩
  -- So the walk knows less at the head than the new loop allows.
  have hhead : (k₁.forget (body.assigned ++ post.assigned)).Sub
      (k.atHead L.dialect pre' post' body') := hsub₁.forget hassigned
  rcases known_around_loop h₃.assigned_subset h₄.assigned_subset hsub₁ hsub₃ hsub₄ with
    ⟨hbehind, hend⟩
  refine ⟨.loop line ⟨preLine, pre'⟩ test' post' body',
    (k₄.forget (body.assigned ++ post.assigned)).forget (Stmt.declaredSeq pre'), own₄, ?_, ?_,
    by rw [Stmt.flow]; exact hend⟩
  · simp only [Stmt.declaresVars, List.append_nil]
    rw [visitStmt, walk_bind hopen, walk_bind hpre, walk_bind (changeKnown_run _ _ _ _),
      walk_bind htest, walk_bind hbody, walk_bind (changeKnown_run _ _ _ _), walk_bind hpost,
      walk_bind (changeKnown_run _ _ _ _), walk_bind (closeScope_run _ _ _ _)]
    rfl
  · rw [Stmt.Alike]
    exact ⟨pre', test', post', body', rfl, h, hL.mono h₂ hhead, h₄.mono hbehind,
      h₃.mono ((evaluated_sub _ _ _).trans hhead)⟩

/-- A break keeps its form. -/
theorem brk {line : Nat} : StmtBecomes L p (fuel + 1) (Stmt.brk line) := by
  intro k scope outer own _
  refine ⟨.brk line, k, own, ?_, ?_, ?_⟩
  · simp only [Stmt.declaresVars, List.append_nil]
    rw [visitStmt]
    rfl
  · rw [Stmt.Alike]
  · rw [Stmt.flow]
    exact .refl _

/-- A continue keeps its form. -/
theorem cont {line : Nat} : StmtBecomes L p (fuel + 1) (Stmt.cont line) := by
  intro k scope outer own _
  refine ⟨.cont line, k, own, ?_, ?_, ?_⟩
  · simp only [Stmt.declaresVars, List.append_nil]
    rw [visitStmt]
    rfl
  · rw [Stmt.Alike]
  · rw [Stmt.flow]
    exact .refl _

/-- A nested block keeps its form. -/
theorem block {b : Block} (hinner : BlockBecomes L p fuel b) :
    StmtBecomes L p (fuel + 1) (Stmt.block b) := by
  intro k scope outer own hfuel
  rw [Stmt.weight] at hfuel
  rcases hinner k (scope :: outer) own (by omega) with ⟨b', k', own', hb, h, hsub⟩
  refine ⟨.block b', k', own', ?_, ?_, ?_⟩
  · simp only [Stmt.declaresVars, List.append_nil]
    rw [visitStmt, walk_bind hb]
    rfl
  · rw [Stmt.Alike]
    exact ⟨b', rfl, h⟩
  · rw [Stmt.flow]
    exact hsub

/-- A label keeps its form. -/
theorem label {line : Nat} {name : String} : StmtBecomes L p (fuel + 1) (Stmt.label line name) := by
  intro k scope outer own _
  refine ⟨.label line name, .nothing, own, ?_, ?_, ?_⟩
  · simp only [Stmt.declaresVars, List.append_nil]
    rw [visitStmt]
    rfl
  · rw [Stmt.Alike]
  · rw [Stmt.flow]
    exact .refl _

/-- An assignment from the stack keeps its form. -/
theorem stackAssign {line : Nat} {target : Identifier} :
    StmtBecomes L p (fuel + 1) (Stmt.stackAssign line target) := by
  intro k scope outer own _
  refine ⟨.stackAssign line target, k.forget [target.name], own, ?_, ?_, ?_⟩
  · simp only [Stmt.declaresVars, List.append_nil]
    rw [visitStmt]
    rfl
  · rw [Stmt.Alike]
  · rw [Stmt.flow]
    exact .refl _

end StmtBecomes

namespace CasesBecome

/-- No cases become none. -/
theorem nil : CasesBecome L p fuel [] := by
  intro k scopes own _
  refine ⟨[], k, own, ?_, ?_, .refl k⟩
  · cases fuel <;> rfl
  · rw [Case.AlikeSeq]

/-- Without fuel a case cannot weigh enough. -/
theorem zero {c : Case} {rest : List Case} : CasesBecome L p 0 (c :: rest) := by
  rcases c with ⟨line, value, body⟩
  intro k scopes own hfuel
  rw [Case.weightSeq] at hfuel
  omega

/-- Cases become others one by one. -/
theorem cons {line : Nat} {value : Option Literal} {body : Block} {rest : List Case}
    (hinner : BlockBecomes L p fuel body) (hmore : CasesBecome L p fuel rest) :
    CasesBecome L p (fuel + 1) (⟨line, value, body⟩ :: rest) := by
  intro k scopes own hfuel
  rw [Case.weightSeq] at hfuel
  rcases hinner k scopes own (by omega) with ⟨body', k₁, own₁, hbody, h, hsub⟩
  rcases hmore (k₁.forget body'.assigned) scopes own₁ (by omega)
    with ⟨rest', k', own', hrest, h', hsub'⟩
  -- What the body assigns is forgotten before the other cases.
  have hbehind : (k₁.forget body'.assigned).Sub ((body'.flow L.dialect k).forget body'.assigned) :=
    hsub.forget (List.Subset.refl _)
  refine ⟨⟨line, value, body'⟩ :: rest', k', own', ?_, ?_, ?_⟩
  · rw [visitCases, walk_bind hbody, walk_bind (changeKnown_run _ _ _ _), walk_bind hrest]
    rfl
  · rw [Case.AlikeSeq]
    exact ⟨body', rest', rfl, h, h'.mono (hbehind.trans
      ((Block.flow_forget_sub (List.Subset.refl _)).trans (forget_sub _ _)))⟩
  · rw [Case.flowSeq]
    exact hsub'.trans (Case.flowSeq_mono hbehind)

end CasesBecome

mutual

/-- Walking a block makes of it what it may become. -/
theorem visitBlock_becomes (hL : L.Closed) (hp : p.Licensed L) : ∀ (fuel : Nat) (b : Block),
    BlockBecomes L p fuel b
  | 0, _ => .zero
  | fuel + 1, ⟨_, stmts⟩ => .of_stmts (visitStmts_becomes hL hp fuel stmts)

/-- Visiting statements rewrites them as licensed. -/
theorem visitStmts_becomes (hL : L.Closed) (hp : p.Licensed L) : ∀ (fuel : Nat) (stmts : List Stmt),
    StmtsBecome L p fuel stmts
  | _, [] => .nil
  | 0, _ :: _ => .zero
  | fuel + 1, s :: _ => .cons hp (visitStmt_becomes hL hp fuel s) (visitStmts_becomes hL hp fuel)

/-- Visiting a statement rewrites it as licensed. -/
theorem visitStmt_becomes (hL : L.Closed) (hp : p.Licensed L) : ∀ (fuel : Nat) (s : Stmt),
    StmtBecomes L p fuel s
  | 0, _ => .zero
  | _ + 1, .expr _ _ => .expr hL hp
  | _ + 1, .assign _ _ _ => .assign hL hp
  | _ + 1, .decl _ _ none => .decl_none
  | _ + 1, .decl _ _ (some _) => .decl_some hL hp
  | fuel + 1, .func _ _ _ _ body => .func (visitBlock_becomes hL hp fuel body)
  | fuel + 1, .cond _ _ body => .cond hL hp (visitBlock_becomes hL hp fuel body)
  | fuel + 1, .switch _ _ cases => .switch hL hp (visitCases_becomes hL hp fuel cases)
  | fuel + 1, .loop _ ⟨_, pre⟩ _ post body => .loop hL hp (visitStmts_becomes hL hp fuel pre)
      (visitBlock_becomes hL hp fuel body) (visitBlock_becomes hL hp fuel post)
  | _ + 1, .brk _ => .brk
  | _ + 1, .cont _ => .cont
  | fuel + 1, .block b => .block (visitBlock_becomes hL hp fuel b)
  | _ + 1, .label _ _ => .label
  | _ + 1, .stackAssign _ _ => .stackAssign

/-- Visiting cases rewrites them as licensed. -/
theorem visitCases_becomes (hL : L.Closed) (hp : p.Licensed L) : ∀ (fuel : Nat) (cases : List Case),
    CasesBecome L p fuel cases
  | _, [] => .nil
  | 0, _ :: _ => .zero
  | fuel + 1, ⟨_, _, body⟩ :: rest => .cons (visitBlock_becomes hL hp fuel body)
      (visitCases_becomes hL hp fuel rest)

end

/-- A walk along the flow makes of a program what the program may become. -/
theorem run_becomes (hL : L.Closed) (hp : p.Licensed L) (own : σ) (code : Block) :
    code.Becomes L .nothing (run L.dialect p own code).1 := by
  rcases visitBlock_becomes hL hp (code.weight + 1) code .nothing [] own (Nat.le_succ _) with
    ⟨code', k', own', hrun, h, _⟩
  have hrun' : (run L.dialect p own code).1 = code' := congrArg (·.1) hrun
  rw [hrun']
  exact h

end Flow

section BottomUp

variable {L : Licence} {onExpr : Expr → Expr} {onStmt : Stmt → List Stmt}

mutual

/-- A change from the inside to the outside makes of a block what the block may become. It
    does not depend on what is known. -/
theorem Block.bottomUp_becomes (hexpr : ∀ k e, L.expr k e (onExpr e))
    (hstmt : ∀ (k : Known) (s s' : Stmt), s.Alike L k s' → s.Becomes L k (onStmt s')) :
    ∀ (b : Block) (k : Known), b.Becomes L k (b.bottomUp onExpr onStmt)
  | ⟨_, stmts⟩, k => by
      rw [Block.bottomUp, Block.Becomes]
      exact ⟨rfl, k, .refl k, Stmt.bottomUpSeq_becomes hexpr hstmt stmts k⟩
termination_by structural code => code

/-- Rewriting from the inside is licensed for statements, if it is for one. -/
theorem Stmt.bottomUpSeq_becomes (hexpr : ∀ k e, L.expr k e (onExpr e))
    (hstmt : ∀ (k : Known) (s s' : Stmt), s.Alike L k s' → s.Becomes L k (onStmt s')) :
    ∀ (stmts : List Stmt) (k : Known),
      Stmt.BecomesSeq L k stmts (Stmt.bottomUpSeq onExpr onStmt stmts)
  | [], k => by rw [Stmt.bottomUpSeq, Stmt.BecomesSeq]
  | s :: rest, k => by
      rw [Stmt.bottomUpSeq]
      exact Stmt.becomesSeq_cons.mpr ⟨_, _, .nothing, rfl,
        hstmt k s _ (Stmt.bottomUpInner_alike hexpr hstmt s k), nothing_sub _,
        Stmt.bottomUpSeq_becomes hexpr hstmt rest .nothing⟩
termination_by structural code => code

/-- Rewriting the inside of a statement is licensed. -/
theorem Stmt.bottomUpInner_alike (hexpr : ∀ k e, L.expr k e (onExpr e))
    (hstmt : ∀ (k : Known) (s s' : Stmt), s.Alike L k s' → s.Becomes L k (onStmt s')) :
    ∀ (s : Stmt) (k : Known), s.Alike L k (s.bottomUpInner onExpr onStmt)
  | .expr line e, k => by
      rw [Stmt.bottomUpInner, Stmt.Alike]
      exact ⟨_, rfl, hexpr k e⟩
  | .assign line targets value, k => by
      rw [Stmt.bottomUpInner, Stmt.Alike]
      exact ⟨_, rfl, hexpr k value⟩
  | .decl line vars none, k => by
      rw [Stmt.bottomUpInner, Stmt.Alike]
      rfl
  | .decl line vars (some value), k => by
      rw [Stmt.bottomUpInner, Stmt.Alike]
      exact ⟨_, rfl, hexpr k value⟩
  | .func line name params returns body, k => by
      rw [Stmt.bottomUpInner, Stmt.Alike]
      exact ⟨_, rfl, Block.bottomUp_becomes hexpr hstmt body .nothing⟩
  | .cond line test body, k => by
      rw [Stmt.bottomUpInner, Stmt.Alike]
      exact ⟨_, _, rfl, hexpr k test, Block.bottomUp_becomes hexpr hstmt body k⟩
  | .switch line subject cases, k => by
      rw [Stmt.bottomUpInner, Stmt.Alike]
      exact ⟨_, _, rfl, hexpr k subject, Case.bottomUpSeq_alike hexpr hstmt cases k⟩
  | .loop line ⟨preLine, pre⟩ test post body, k => by
      rw [Stmt.bottomUpInner, Block.bottomUp, Stmt.Alike]
      exact ⟨_, _, _, _, rfl, Stmt.bottomUpSeq_becomes hexpr hstmt pre k, hexpr _ test,
        Block.bottomUp_becomes hexpr hstmt post _, Block.bottomUp_becomes hexpr hstmt body _⟩
  | .brk _, k => by rw [Stmt.bottomUpInner, Stmt.Alike]
  | .cont _, k => by rw [Stmt.bottomUpInner, Stmt.Alike]
  | .block b, k => by
      rw [Stmt.bottomUpInner, Stmt.Alike]
      exact ⟨_, rfl, Block.bottomUp_becomes hexpr hstmt b k⟩
  | .label _ _, k => by rw [Stmt.bottomUpInner, Stmt.Alike]
  | .stackAssign _ _, k => by rw [Stmt.bottomUpInner, Stmt.Alike]
termination_by structural code => code

/-- Rewriting from the inside is licensed for cases. -/
theorem Case.bottomUpSeq_alike (hexpr : ∀ k e, L.expr k e (onExpr e))
    (hstmt : ∀ (k : Known) (s s' : Stmt), s.Alike L k s' → s.Becomes L k (onStmt s')) :
    ∀ (cases : List Case) (k : Known),
      Case.AlikeSeq L k cases (Case.bottomUpSeq onExpr onStmt cases)
  | [], k => by rw [Case.bottomUpSeq, Case.AlikeSeq]
  | ⟨line, value, body⟩ :: rest, k => by
      rw [Case.bottomUpSeq, Case.AlikeSeq]
      exact ⟨_, _, rfl, Block.bottomUp_becomes hexpr hstmt body k,
        Case.bottomUpSeq_alike hexpr hstmt rest k⟩
termination_by structural code => code

end

end BottomUp

end YulToolchain
