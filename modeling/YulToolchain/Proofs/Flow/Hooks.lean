import YulToolchain.Proofs.Flow.Transfer
import YulToolchain.Proofs.Syntax.Parts

/-!
# What a Pass Is Shown

The places where the walk along the flow turns to the pass behind it, and what it
shows the pass there.

A pass that changes nothing is shown the nodes of the program itself, in the order
of the walk. What is known at each of them can then be read off the code, without
the bounds that the walk recurses on. Behind all passes that change nothing there
is one list of calls, which the pass gets to see one after the other
(`Flow.run_still`). It is enough that the pass changes nothing at the calls of this list
(`Flow.run_declined`).

## Main definitions

* `Hook`, `HookCall`: A place where a pass is asked, and what is known there.
* `Policy.Declines`, `Policy.DeclinesAll`: A pass changes nothing at a call.
* `Policy.Still`: A pass changes nothing.
* `Flow.observer`, `hookCalls`: The calls of a walk, as they are made.
* `Expr.hooks`, `Stmt.hooks`, `Block.hooks`: The calls of a walk, read off the code.

## Theorems

* `Flow.visitExpr_declined`, `Flow.visitBlock_declined`: A walk that changes nothing.
* `Flow.run_declined`: A program is left alone by a pass that changes nothing at its calls.
* `Flow.run_still`: Every pass that changes nothing sees the same calls.
* `hookCalls_eq`: The calls of a walk.
-/

namespace YulToolchain

/-- The places where the walk along the flow turns to a pass. -/
inductive Hook where
  /-- In front of an expression. -/
  | enter (e : Expr)
  /-- Behind the arguments of an expression. -/
  | leave (e : Expr)
  /-- In front of a statement. -/
  | replace (s : Stmt)

/-- A place where a pass is asked, and what is known there. -/
structure HookCall where
  /-- The place. -/
  hook : Hook
  /-- The known values. -/
  known : Known

/-- The state of a pass after a call. -/
def Policy.tell {σ : Type} (p : Policy σ) (own : σ) (call : HookCall) : σ :=
  match call.hook with
  | .enter e => (p.enter call.known e own).2
  | .leave e => (p.leave call.known e own).2
  | .replace s => (p.replace call.known s own).2

/-- A pass changes nothing at a call. -/
def Policy.Declines {σ : Type} (p : Policy σ) (call : HookCall) : Prop :=
  match call.hook with
  | .enter e => ∀ own, (p.enter call.known e own).1 = e
  | .leave e => ∀ own, (p.leave call.known e own).1 = e
  | .replace s => ∀ own, (p.replace call.known s own).1 = none

/-- A pass changes nothing at some calls. -/
def Policy.DeclinesAll {σ : Type} (p : Policy σ) (calls : List HookCall) : Prop :=
  ∀ call ∈ calls, p.Declines call

/-- A pass changes nothing. -/
structure Policy.Still {σ : Type} (p : Policy σ) : Prop where
  enter : ∀ k e own, (p.enter k e own).1 = e
  leave : ∀ k e own, (p.leave k e own).1 = e
  replace : ∀ k s own, (p.replace k s own).1 = none

/-- A policy that changes nothing declines every call. -/
theorem Policy.Still.declines {σ : Type} {p : Policy σ} (hp : p.Still) (call : HookCall) :
    p.Declines call := by
  rcases call with ⟨e | e | s, k⟩
  · exact hp.enter k e
  · exact hp.leave k e
  · exact hp.replace k s

section Declining

variable {σ : Type} {p : Policy σ} {call : HookCall} {calls more : List HookCall}

theorem Policy.declinesAll_singleton : p.DeclinesAll [call] ↔ p.Declines call :=
  List.forall_mem_singleton

theorem Policy.declinesAll_cons :
    p.DeclinesAll (call :: calls) ↔ p.Declines call ∧ p.DeclinesAll calls :=
  List.forall_mem_cons

theorem Policy.declinesAll_append :
    p.DeclinesAll (calls ++ more) ↔ p.DeclinesAll calls ∧ p.DeclinesAll more :=
  List.forall_mem_append

end Declining

/-- The pass that changes nothing and keeps the calls it gets, the latest first. -/
def Flow.observer : Policy (List HookCall) where
  enter k e calls := (e, ⟨.enter e, k⟩ :: calls)
  leave k e calls := (e, ⟨.leave e, k⟩ :: calls)
  replace k s calls := (none, ⟨.replace s, k⟩ :: calls)

/-- The calls of a walk over a program that changes nothing, in their order. -/
def hookCalls (d : Dialect) (code : Block) : List HookCall :=
  (Flow.run d Flow.observer [] code).2.reverse

mutual

/-- The calls at an expression and inside it. -/
def Expr.hooks (d : Dialect) (k : Known) : Expr → List HookCall
  | .literal l => [⟨.enter (.literal l), k⟩, ⟨.leave (.literal l), k⟩]
  | .ident line name => [⟨.enter (.ident line name), k⟩, ⟨.leave (.ident line name), k⟩]
  | .instr line op args =>
    ⟨.enter (.instr line op args), k⟩ ::
      (Expr.hooksArgs d k args ++ [⟨.leave (.instr line op args), k⟩])
  | .call line name args =>
    ⟨.enter (.call line name args), k⟩ ::
      ((if Flow.takesLiterals d name then [] else Expr.hooksArgs d k args) ++
        [⟨.leave (.call line name args), k⟩])

/-- The calls at arguments, from the last to the first. -/
def Expr.hooksArgs (d : Dialect) (k : Known) : List Expr → List HookCall
  | [] => []
  | e :: rest => Expr.hooksArgs d k rest ++ e.hooks d k

end

mutual

/-- The calls inside a block. -/
def Block.hooks (d : Dialect) (k : Known) : Block → List HookCall
  | ⟨_, stmts⟩ => Stmt.hooksSeq d k stmts

/-- The calls at some statements and inside them. -/
def Stmt.hooksSeq (d : Dialect) (k : Known) : List Stmt → List HookCall
  | [] => []
  | s :: rest => ⟨.replace s, k⟩ :: (s.hooks d k ++ Stmt.hooksSeq d (s.flow d k) rest)

/-- The calls inside a statement. -/
def Stmt.hooks (d : Dialect) (k : Known) : Stmt → List HookCall
  | .expr _ e => e.hooks d k
  | .assign _ _ value => value.hooks d k
  | .decl _ _ none => []
  | .decl _ _ (some value) => value.hooks d k
  | .func _ _ _ _ body => body.hooks d .nothing
  | .cond _ test body => test.hooks d k ++ body.hooks d (k.evaluated d test)
  | .switch _ subject cases =>
    subject.hooks d k ++ Case.hooksSeq d (k.evaluated d subject) cases
  | .loop _ ⟨_, pre⟩ test post body =>
    let assigned := body.assigned ++ post.assigned
    let head := (Stmt.flowSeq d k pre).forget assigned
    let behindBody := (body.flow d (head.evaluated d test)).forget assigned
    Stmt.hooksSeq d k pre ++ (test.hooks d head ++
      (body.hooks d (head.evaluated d test) ++ post.hooks d behindBody))
  | .block b => b.hooks d k
  | .brk _ | .cont _ | .label _ _ | .stackAssign _ _ => []

/-- The calls inside the cases of a switch. -/
def Case.hooksSeq (d : Dialect) (k : Known) : List Case → List HookCall
  | [] => []
  | ⟨_, _, body⟩ :: rest =>
    body.hooks d k ++ Case.hooksSeq d ((body.flow d k).forget body.assigned) rest

end

namespace Flow

variable {σ : Type} {d : Dialect} {p : Policy σ}

/-- One step of a walk after another. -/
theorem walk_bind {α β : Type} {m : Walk σ α} {f : α → Walk σ β} {st st' : FlowState σ} {a : α}
    (h : m st = (a, st')) : (m >>= f) st = f a st' := by
  show f (m st).1 (m st).2 = f a st'
  rw [h]

theorem walk_map {α β : Type} {m : Walk σ α} {f : α → β} {st st' : FlowState σ} {a : α}
    (h : m st = (a, st')) : (f <$> m) st = (f a, st') := by
  show (f (m st).1, (m st).2) = (f a, st')
  rw [h]

/-- A declined call before an expression hands the expression back. -/
theorem act_enter {e : Expr} {k : Known} (h : p.Declines ⟨.enter e, k⟩)
    (scopes : List (List String)) (own : σ) :
    (act (p.enter · e) : Walk σ Expr) ⟨k, scopes, own⟩
      = (e, ⟨k, scopes, p.tell own ⟨.enter e, k⟩⟩) :=
  congrArg (·, _) (h own)

/-- A declined call behind an expression hands the expression back. -/
theorem act_leave {e : Expr} {k : Known} (h : p.Declines ⟨.leave e, k⟩)
    (scopes : List (List String)) (own : σ) :
    (act (p.leave · e) : Walk σ Expr) ⟨k, scopes, own⟩
      = (e, ⟨k, scopes, p.tell own ⟨.leave e, k⟩⟩) :=
  congrArg (·, _) (h own)

/-- A declined call before a statement replaces nothing. -/
theorem act_replace {s : Stmt} {k : Known} (h : p.Declines ⟨.replace s, k⟩)
    (scopes : List (List String)) (own : σ) :
    (act (p.replace · s) : Walk σ (Option (List Stmt))) ⟨k, scopes, own⟩
      = (none, ⟨k, scopes, p.tell own ⟨.replace s, k⟩⟩) :=
  congrArg (·, _) (h own)

mutual

/-- A walk over an expression that changes nothing. -/
theorem visitExpr_declined : ∀ (e : Expr) (fuel : Nat) (k : Known) (scopes : List (List String))
    (own : σ), p.DeclinesAll (e.hooks d k) → 2 * e.size ≤ fuel + 1 →
      visitExpr d p fuel e ⟨k, scopes, own⟩
        = (e, ⟨k, scopes, (e.hooks d k).foldl p.tell own⟩)
  | e, 0, _, _, _, _, hfuel => by
      have := e.size_pos
      omega
  | .literal l, fuel + 1, k, scopes, own, h, _ => by
      rw [Expr.hooks, Policy.declinesAll_cons, Policy.declinesAll_singleton] at h
      rw [visitExpr, walk_bind (act_enter h.1 scopes own)]
      exact act_leave h.2 scopes _
  | .ident line name, fuel + 1, k, scopes, own, h, _ => by
      rw [Expr.hooks, Policy.declinesAll_cons, Policy.declinesAll_singleton] at h
      rw [visitExpr, walk_bind (act_enter h.1 scopes own)]
      exact act_leave h.2 scopes _
  | .instr line op args, fuel + 1, k, scopes, own, h, hfuel => by
      rw [Expr.size] at hfuel
      rw [Expr.hooks, Policy.declinesAll_cons, Policy.declinesAll_append,
        Policy.declinesAll_singleton] at h
      -- Three groups of calls: before the instruction, inside of the arguments, behind them.
      rcases h with ⟨henter, hinner, hleave⟩
      have hargs := visitArgs_declined args fuel k scopes
        (p.tell own ⟨.enter (.instr line op args), k⟩) hinner (by omega)
      rw [visitExpr, walk_bind (act_enter henter scopes own)]
      dsimp only
      rw [walk_bind (walk_map hargs), act_leave hleave, Expr.hooks, List.foldl_cons,
        List.foldl_append]
      rfl
  | .call line name args, fuel + 1, k, scopes, own, h, hfuel => by
      rw [Expr.size] at hfuel
      rw [Expr.hooks, Policy.declinesAll_cons, Policy.declinesAll_append,
        Policy.declinesAll_singleton] at h
      rcases h with ⟨henter, hinner, hleave⟩
      rw [visitExpr, walk_bind (act_enter henter scopes own), Expr.hooks, List.foldl_cons,
        List.foldl_append]
      -- Literal arguments are not visited.
      by_cases hlit : takesLiterals d name = true
      · simp only [hlit, if_true]
        exact act_leave hleave scopes _
      · simp only [hlit, Bool.false_eq_true, if_false] at hinner ⊢
        have hargs := visitArgs_declined args fuel k scopes
          (p.tell own ⟨.enter (.call line name args), k⟩) hinner (by omega)
        rw [walk_bind (walk_map hargs), act_leave hleave]
        rfl

/-- Declined calls leave the arguments of a call as they are. -/
theorem visitArgs_declined : ∀ (es : List Expr) (fuel : Nat) (k : Known)
    (scopes : List (List String)) (own : σ), p.DeclinesAll (Expr.hooksArgs d k es) →
      2 * Expr.sizeAll es ≤ fuel →
      visitArgs d p fuel es ⟨k, scopes, own⟩
        = (es, ⟨k, scopes, (Expr.hooksArgs d k es).foldl p.tell own⟩)
  | [], 0, k, scopes, own, _, _ => by
      rw [visitArgs, Expr.hooksArgs]
      rfl
  | [], fuel + 1, k, scopes, own, _, _ => by
      rw [visitArgs, Expr.hooksArgs]
      · rfl
      · rintro ⟨⟩
  | e :: rest, 0, _, _, _, _, hfuel => by
      have := e.size_pos
      rw [Expr.sizeAll] at hfuel
      omega
  | e :: rest, fuel + 1, k, scopes, own, h, hfuel => by
      have := e.size_pos
      rw [Expr.sizeAll] at hfuel
      rw [Expr.hooksArgs, Policy.declinesAll_append] at h
      -- The last arguments come first in the calls, as in the walk.
      rw [visitArgs, walk_bind (visitArgs_declined rest fuel k scopes own h.1 (by omega)),
        walk_bind (visitExpr_declined e fuel k scopes _ h.2 (by omega)), Expr.hooksArgs,
        List.foldl_append]
      rfl

end

/-- Declined calls leave the expression of a statement as it is. -/
theorem visitRoot_declined {e : Expr} {k : Known} (h : p.DeclinesAll (e.hooks d k))
    (scopes : List (List String)) (own : σ) :
    visitRoot d p e ⟨k, scopes, own⟩
      = (e, ⟨k.evaluated d e, scopes, (e.hooks d k).foldl p.tell own⟩) := by
  have hget : (get : Walk σ (FlowState σ)) ⟨k, scopes, own⟩
      = (⟨k, scopes, own⟩, ⟨k, scopes, own⟩) :=
    rfl
  have hfuel : 2 * e.size ≤ 2 * (e.size + k.size) + 1 + 1 := by omega
  rw [visitRoot, walk_bind hget, walk_bind (visitExpr_declined e _ k scopes own h hfuel)]
  rfl

theorem closeScope_run (k : Known) (scope : List String) (scopes : List (List String)) (own : σ) :
    (closeScope : Walk σ Unit) ⟨k, scope :: scopes, own⟩ = ((), ⟨k.forget scope, scopes, own⟩) :=
  rfl

theorem changeKnown_run (f : Known → Known) (k : Known) (scopes : List (List String)) (own : σ) :
    (changeKnown f : Walk σ Unit) ⟨k, scopes, own⟩ = ((), ⟨f k, scopes, own⟩) := rfl

theorem weight_pos (s : Stmt) : 4 ≤ s.weight := by
  cases s <;> simp only [Stmt.weight] <;> omega

mutual

/-- A walk over a block that changes nothing. -/
theorem visitBlock_declined : ∀ (b : Block) (fuel : Nat) (k : Known)
    (scopes : List (List String)) (own : σ), p.DeclinesAll (b.hooks d k) → b.weight ≤ fuel →
      visitBlock d p fuel b ⟨k, scopes, own⟩
        = (b, ⟨b.flow d k, scopes, (b.hooks d k).foldl p.tell own⟩)
  | ⟨line, stmts⟩, 0, _, _, _, _, hfuel => by
      rw [Block.weight] at hfuel
      omega
  | ⟨line, stmts⟩, fuel + 1, k, scopes, own, h, hfuel => by
      rw [Block.weight] at hfuel
      rw [Block.hooks] at h
      have hopen : (openScope : Walk σ Unit) ⟨k, scopes, own⟩ = ((), ⟨k, [] :: scopes, own⟩) := rfl
      rw [visitBlock, walk_bind hopen,
        walk_bind (visitStmts_declined stmts fuel k [] scopes own h (by omega)),
        walk_bind (closeScope_run _ _ _ _), Block.flow, Block.hooks]
      rfl

/-- Declined calls leave statements as they are. -/
theorem visitStmts_declined : ∀ (stmts : List Stmt) (fuel : Nat) (k : Known)
    (scope : List String) (outer : List (List String)) (own : σ),
    p.DeclinesAll (Stmt.hooksSeq d k stmts) → Stmt.weightSeq stmts ≤ fuel →
      visitStmts d p fuel stmts ⟨k, scope :: outer, own⟩
        = (stmts, ⟨Stmt.flowSeq d k stmts, (scope ++ Stmt.declaredSeq stmts) :: outer,
            (Stmt.hooksSeq d k stmts).foldl p.tell own⟩)
  | [], 0, k, scope, outer, own, _, _ => by
      rw [visitStmts, Stmt.flowSeq, Stmt.hooksSeq, Stmt.declaredSeq, List.flatMap_nil,
        List.append_nil]
      rfl
  | [], fuel + 1, k, scope, outer, own, _, _ => by
      rw [visitStmts, Stmt.flowSeq, Stmt.hooksSeq, Stmt.declaredSeq, List.flatMap_nil,
        List.append_nil]
      · rfl
      · rintro ⟨⟩
  | s :: rest, 0, _, _, _, _, _, hfuel => by
      have := weight_pos s
      rw [Stmt.weightSeq] at hfuel
      omega
  | s :: rest, fuel + 1, k, scope, outer, own, h, hfuel => by
      have := weight_pos s
      rw [Stmt.weightSeq] at hfuel
      rw [Stmt.hooksSeq, Policy.declinesAll_cons, Policy.declinesAll_append] at h
      rcases h with ⟨hhere, hinner, hrest⟩
      -- First the call for the statement, then those inside of it, then the others.
      rw [visitStmts, walk_bind (act_replace hhere (scope :: outer) own)]
      dsimp only
      rw [walk_bind (visitStmt_declined s fuel k scope outer _ hinner (by omega)),
        walk_bind (visitStmts_declined rest fuel _ _ outer _ hrest (by omega)), Stmt.flowSeq,
        Stmt.hooksSeq, List.foldl_cons, List.foldl_append, Stmt.declaredSeq_cons,
        ← List.append_assoc]
      rfl

/-- A walk over a statement that changes nothing. -/
theorem visitStmt_declined : ∀ (s : Stmt) (fuel : Nat) (k : Known)
    (scope : List String) (outer : List (List String)) (own : σ),
    p.DeclinesAll (s.hooks d k) → s.weight ≤ fuel + 1 →
      visitStmt d p fuel s ⟨k, scope :: outer, own⟩
        = (s, ⟨s.flow d k, (scope ++ s.declaresVars) :: outer,
            (s.hooks d k).foldl p.tell own⟩)
  | s, 0, _, _, _, _, _, hfuel => by
      have := weight_pos s
      omega
  | .expr line e, fuel + 1, k, scope, outer, own, h, _ => by
      simp only [Stmt.declaresVars, List.append_nil]
      rw [Stmt.hooks] at h
      rw [visitStmt, walk_bind (visitRoot_declined h _ own), Stmt.flow, Stmt.hooks]
      rfl
  | .assign line targets value, fuel + 1, k, scope, outer, own, h, _ => by
      simp only [Stmt.declaresVars, List.append_nil]
      rw [Stmt.hooks] at h
      rw [visitStmt, walk_bind (visitRoot_declined h _ own), Stmt.flow, Stmt.hooks]
      rfl
  | .decl line vars none, fuel + 1, k, scope, outer, own, _, _ => by
      rw [visitStmt, Stmt.flow, Stmt.hooks, Stmt.declaresVars]
      rfl
  | .decl line vars (some value), fuel + 1, k, scope, outer, own, h, _ => by
      rw [Stmt.hooks] at h
      -- The value of a declaration is the expression of the statement.
      have hvalue : ((some value).mapM (visitRoot d p) : Walk σ (Option Expr))
          ⟨k, scope :: outer, own⟩ = (some value, ⟨k.evaluated d value, scope :: outer,
            (value.hooks d k).foldl p.tell own⟩) := walk_map (visitRoot_declined h _ own)
      rw [visitStmt, walk_bind hvalue, Stmt.flow, Stmt.hooks, Stmt.declaresVars]
      rfl
  | .func line name params returns body, fuel + 1, k, scope, outer, own, h, hfuel => by
      simp only [Stmt.declaresVars, List.append_nil]
      rw [Stmt.weight] at hfuel
      rw [Stmt.hooks] at h
      -- The body is walked on its own, from nothing known and its own names in scope.
      have hbody := visitBlock_declined body fuel .nothing
        [(params ++ returns).map (·.name)] own h (by omega)
      have hget : (get : Walk σ (FlowState σ)) ⟨k, scope :: outer, own⟩
          = (⟨k, scope :: outer, own⟩, ⟨k, scope :: outer, own⟩) := rfl
      have hset : (set (⟨.nothing, [(params ++ returns).map TypedName.name], own⟩ : FlowState σ) :
          Walk σ PUnit) ⟨k, scope :: outer, own⟩
            = (⟨⟩, ⟨.nothing, [(params ++ returns).map TypedName.name], own⟩) := rfl
      rw [visitStmt, walk_bind hget, walk_bind hset, walk_bind hbody, Stmt.flow, Stmt.hooks]
      rfl
  | .cond line test body, fuel + 1, k, scope, outer, own, h, hfuel => by
      simp only [Stmt.declaresVars, List.append_nil]
      rw [Stmt.weight] at hfuel
      rw [Stmt.hooks, Policy.declinesAll_append] at h
      rw [visitStmt, walk_bind (visitRoot_declined h.1 _ own),
        walk_bind (visitBlock_declined body fuel _ _ _ h.2 (by omega)), Stmt.flow, Stmt.hooks,
        List.foldl_append]
      rfl
  | .switch line subject cases, fuel + 1, k, scope, outer, own, h, hfuel => by
      simp only [Stmt.declaresVars, List.append_nil]
      rw [Stmt.weight] at hfuel
      rw [Stmt.hooks, Policy.declinesAll_append] at h
      rw [visitStmt, walk_bind (visitRoot_declined h.1 _ own),
        walk_bind (visitCases_declined cases fuel _ _ _ h.2 (by omega)), Stmt.flow, Stmt.hooks,
        List.foldl_append]
      rfl
  | .loop line ⟨preLine, pre⟩ test post body, fuel + 1, k, scope, outer, own, h, hfuel => by
      simp only [Stmt.declaresVars, List.append_nil]
      rw [Stmt.weight, Block.weight] at hfuel
      rw [Stmt.hooks, Policy.declinesAll_append, Policy.declinesAll_append,
        Policy.declinesAll_append] at h
      rcases h with ⟨hpre, htest, hbody, hpost⟩
      -- The names of the init part have a scope of their own.
      have hopen : (openScope : Walk σ Unit) ⟨k, scope :: outer, own⟩
          = ((), ⟨k, [] :: scope :: outer, own⟩) := rfl
      rw [visitStmt, walk_bind hopen,
        walk_bind (visitStmts_declined pre fuel k [] (scope :: outer) own hpre (by omega)),
        walk_bind (changeKnown_run _ _ _ _), walk_bind (visitRoot_declined htest _ _),
        walk_bind (visitBlock_declined body fuel _ _ _ hbody (by omega)),
        walk_bind (changeKnown_run _ _ _ _),
        walk_bind (visitBlock_declined post fuel _ _ _ hpost (by omega)),
        walk_bind (changeKnown_run _ _ _ _), walk_bind (closeScope_run _ _ _ _), Stmt.flow,
        Stmt.hooks, List.foldl_append, List.foldl_append, List.foldl_append]
      rfl
  | .brk line, fuel + 1, k, scope, outer, own, _, _ => by
      simp only [Stmt.declaresVars, List.append_nil]
      rw [visitStmt, Stmt.flow, Stmt.hooks]
      rfl
  | .cont line, fuel + 1, k, scope, outer, own, _, _ => by
      simp only [Stmt.declaresVars, List.append_nil]
      rw [visitStmt, Stmt.flow, Stmt.hooks]
      rfl
  | .block b, fuel + 1, k, scope, outer, own, h, hfuel => by
      simp only [Stmt.declaresVars, List.append_nil]
      rw [Stmt.weight] at hfuel
      rw [Stmt.hooks] at h
      rw [visitStmt, walk_bind (visitBlock_declined b fuel k _ own h (by omega)), Stmt.flow,
        Stmt.hooks]
      rfl
  | .label line name, fuel + 1, k, scope, outer, own, _, _ => by
      simp only [Stmt.declaresVars, List.append_nil]
      rw [visitStmt, Stmt.flow, Stmt.hooks]
      rfl
  | .stackAssign line target, fuel + 1, k, scope, outer, own, _, _ => by
      simp only [Stmt.declaresVars, List.append_nil]
      rw [visitStmt, Stmt.flow, Stmt.hooks]
      rfl

/-- Declined calls leave the cases of a switch as they are. -/
theorem visitCases_declined : ∀ (cases : List Case) (fuel : Nat) (k : Known)
    (scopes : List (List String)) (own : σ), p.DeclinesAll (Case.hooksSeq d k cases) →
      Case.weightSeq cases ≤ fuel →
      visitCases d p fuel cases ⟨k, scopes, own⟩
        = (cases, ⟨Case.flowSeq d k cases, scopes, (Case.hooksSeq d k cases).foldl p.tell own⟩)
  | [], 0, k, scopes, own, _, _ => by
      rw [visitCases, Case.flowSeq, Case.hooksSeq]
      rfl
  | [], fuel + 1, k, scopes, own, _, _ => by
      rw [visitCases, Case.flowSeq, Case.hooksSeq]
      · rfl
      · rintro ⟨⟩
  | ⟨line, value, body⟩ :: rest, 0, _, _, _, _, hfuel => by
      rw [Case.weightSeq] at hfuel
      omega
  | ⟨line, value, body⟩ :: rest, fuel + 1, k, scopes, own, h, hfuel => by
      rw [Case.weightSeq] at hfuel
      rw [Case.hooksSeq, Policy.declinesAll_append] at h
      rw [visitCases, walk_bind (visitBlock_declined body fuel k scopes own h.1 (by omega)),
        walk_bind (changeKnown_run _ _ _ _),
        walk_bind (visitCases_declined rest fuel _ scopes _ h.2 (by omega)),
        Case.flowSeq, Case.hooksSeq, List.foldl_append]
      rfl

end

/-- A pass that changes nothing at the calls of a program leaves it as it is and gets to see
    these calls. -/
theorem run_declined {code : Block} (h : p.DeclinesAll (code.hooks d .nothing)) (own : σ) :
    run d p own code = (code, (code.hooks d .nothing).foldl p.tell own) := by
  have hwalk := visitBlock_declined code (code.weight + 1) .nothing [] own h (Nat.le_succ _)
  show ((visitBlock d p (code.weight + 1) code ⟨.nothing, [], own⟩).1,
    (visitBlock d p (code.weight + 1) code ⟨.nothing, [], own⟩).2.own) = _
  rw [hwalk]

/-- Every pass that changes nothing leaves the program as it is and gets to see the
    same calls. -/
theorem run_still (hp : p.Still) (own : σ) (code : Block) :
    run d p own code = (code, (code.hooks d .nothing).foldl p.tell own) :=
  run_declined (fun call _ => hp.declines call) own

theorem observer_still : observer.Still := ⟨fun _ _ _ => rfl, fun _ _ _ => rfl, fun _ _ _ => rfl⟩

/-- The observer writes the calls down, the last one first. -/
theorem foldl_observer (calls seen : List HookCall) :
    calls.foldl observer.tell seen = calls.reverse ++ seen := by
  induction calls generalizing seen with
  | nil => rfl
  | cons call rest ih =>
      have htell : observer.tell seen call = call :: seen := by
        rcases call with ⟨_ | _ | _, _⟩ <;> rfl
      rw [List.foldl_cons, htell, ih, List.reverse_cons, List.append_assoc]
      rfl

end Flow

/-- The calls of a walk can be read off the code. -/
theorem hookCalls_eq (d : Dialect) (code : Block) : hookCalls d code = code.hooks d .nothing := by
  rw [hookCalls, Flow.run_still Flow.observer_still, Flow.foldl_observer, List.append_nil,
    List.reverse_reverse]

end YulToolchain
