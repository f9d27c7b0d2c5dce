import Mathlib.Logic.Function.Iterate
import YulToolchain.Proofs.Execution.Soundness
import YulToolchain.Proofs.Pass.Steps

/-!
# Removing Control Flow Again

What a second run of the pass that removes control flow still finds to do.

The walk forgets around a loop what the loop assigns, and it takes these variables from the
loop as it comes to it, before anything inside the loop is removed. In the same way it asks
whether the initialisation of a loop touches what its condition refers to. If the loop has
lost an assignment by the end of the run, the second run knows more than the first and may go
on. Where every loop that is kept is, in these two respects, what it was in the beginning,
the second run knows exactly what the first one knew at each statement that was kept, and so
there is nothing left to do.

Every run that changes something makes the program lighter, so repeated runs come to an end
in any case.

## Main definitions

* `Pass.keptStmts`: The statements that the pass keeps, as it comes to them.
* `Stmt.Foretells`: A loop tells beforehand what the walk takes from it.
* `Policy.Removes`: A policy removes control flow and takes note of what it keeps.
* `Remainder`: What a walk leaves behind is left alone by a second one.
* `Flow.BlockRemoves`, `Flow.StmtRemoves`: What a walk with some fuel makes of code.

## Theorems

* `Flow.StmtRemoves.func`, `Flow.StmtRemoves.loop` and so on: One for each kind of statement, from
  what is known of walks through its parts.
* `Flow.visitBlock_removes`: What a walk that removes control flow makes of a block.
* `simplifyStructure_settles`: When a second run changes nothing, and that repeated runs end.
-/

namespace YulToolchain

open Known

/-- The variables that are assigned on the way around a loop. -/
def Stmt.assignedAround : Stmt → List String
  | .loop _ _ _ post body => body.assigned ++ post.assigned
  | _ => []

/-- Whether the initialisation of a loop changes what its condition refers to. -/
def Stmt.initChangesTest : Stmt → Bool
  | .loop _ pre test _ _ => Pass.changedByInit pre test
  | _ => false

/-- What the walk takes from a loop when it comes to it is still so in the end. -/
def Stmt.Foretells (s s' : Stmt) : Prop :=
  (s.assignedAround ⊆ s'.assignedAround ∧ s'.assignedAround ⊆ s.assignedAround) ∧
    s.initChangesTest = s'.initChangesTest

instance (s s' : Stmt) : Decidable (s.Foretells s') :=
  inferInstanceAs (Decidable ((_ ∧ _) ∧ _))

namespace Pass

/-- The policy that removes control flow and keeps a list of the statements it lets stand. -/
def keepingPolicy (declared : List String) : Policy (List Stmt) :=
  { Policy.idle (List Stmt) with
    replace := fun known s kept => match simplifyStructureStmt declared known s with
      | some stmts => (some stmts, kept)
      | none => (none, kept ++ [s]) }

/-- The statements that removing control flow keeps, each one as the walk comes to it. -/
def keptStmts (d : Dialect) (code : Block) : List Stmt :=
  (Flow.run d (keepingPolicy code.declared) [] code).2

end Pass

/-- A policy removes control flow, and changes its state by what it keeps. -/
structure Policy.Removes {σ : Type} (p : Policy σ) (declared : List String)
    (note : σ → Stmt → σ) : Prop where
  enter : ∀ k e own, p.enter k e own = (e, own)
  leave : ∀ k e own, p.leave k e own = (e, own)
  removed : ∀ {k s stmts} (own : σ), Pass.simplifyStructureStmt declared k s = some stmts →
    p.replace k s own = (some stmts, own)
  kept : ∀ {k s} (own : σ), Pass.simplifyStructureStmt declared k s = none →
    p.replace k s own = (none, note own s)

/-- The structure pass removes statements. -/
theorem Pass.structurePolicy_removes (declared : List String) :
    (structurePolicy declared).Removes declared fun own _ => own where
  enter _ _ _ := rfl
  leave _ _ _ := rfl
  removed own h := congrArg (·, own) h
  kept own h := congrArg (·, own) h

/-- The pass that writes down what it keeps removes the same statements. -/
theorem Pass.keepingPolicy_removes (declared : List String) :
    (keepingPolicy declared).Removes declared fun kept s => kept ++ [s] where
  enter _ _ _ := rfl
  leave _ _ _ := rfl
  removed own h := by simp only [keepingPolicy, h]
  kept own h := by simp only [keepingPolicy, h]

section Declining

variable {d : Dialect}

/-- Forgetting depends on which names there are only. -/
theorem Known.forget_congr (k : Known) {names names' : List String} (h : names ⊆ names')
    (h' : names' ⊆ names) : k.forget names = k.forget names' := by
  have hcontains : ∀ x, names.contains x = names'.contains x := fun x => by
    rw [Bool.eq_iff_iff, List.contains_iff_mem, List.contains_iff_mem]
    exact ⟨fun hx => h hx, fun hx => h' hx⟩
  rw [forget, forget, show names.contains = names'.contains from funext hcontains]

mutual

/-- No statement is replaced inside an expression. -/
theorem Pass.structurePolicy_declines (declared : List String) : ∀ (e : Expr) (k : Known),
    (structurePolicy declared).DeclinesAll (e.hooks d k)
  | .literal l, k => by
      rw [Expr.hooks, Policy.declinesAll_cons, Policy.declinesAll_singleton]
      exact ⟨fun _ => rfl, fun _ => rfl⟩
  | .ident line name, k => by
      rw [Expr.hooks, Policy.declinesAll_cons, Policy.declinesAll_singleton]
      exact ⟨fun _ => rfl, fun _ => rfl⟩
  | .instr line op args, k => by
      rw [Expr.hooks, Policy.declinesAll_cons, Policy.declinesAll_append,
        Policy.declinesAll_singleton]
      exact ⟨fun _ => rfl, structurePolicy_declinesArgs declared args k, fun _ => rfl⟩
  | .call line name args, k => by
      rw [Expr.hooks, Policy.declinesAll_cons, Policy.declinesAll_append,
        Policy.declinesAll_singleton]
      refine ⟨fun _ => rfl, ?_, fun _ => rfl⟩
      split
      · exact List.forall_mem_nil _
      · exact structurePolicy_declinesArgs declared args k

/-- The structure pass declines every call of arguments. -/
theorem Pass.structurePolicy_declinesArgs (declared : List String) :
    ∀ (es : List Expr) (k : Known),
      (structurePolicy declared).DeclinesAll (Expr.hooksArgs d k es)
  | [], k => by
      rw [Expr.hooksArgs]
      exact List.forall_mem_nil _
  | e :: rest, k => by
      rw [Expr.hooksArgs, Policy.declinesAll_append]
      exact ⟨structurePolicy_declinesArgs declared rest k, structurePolicy_declines declared e k⟩

end

end Declining

/-- A walk has kept some statements, of which the statements `all` have become. If each of them
    was foretold, the walk knows in the end what the flow of its result tells, and removing
    control flow finds nothing to do at the calls of a second walk. -/
structure Remainder (k' : Known) (kept all : List Stmt) (flow : Known)
    (calls : List HookCall) : Prop where
  length_eq : kept.length = all.length
  settled : List.Forall₂ Stmt.Foretells kept all → k' = flow ∧
    ∀ declared, (Pass.structurePolicy declared).DeclinesAll calls

namespace Remainder

variable {k k' : Known} {kept all : List Stmt} {flow : Known} {calls : List HookCall}

theorem nil (k : Known) : Remainder k [] [] k [] :=
  ⟨rfl, fun _ => ⟨rfl, fun _ => List.forall_mem_nil _⟩⟩

/-- Lists in a row that are related pair by pair are so one behind the other. -/
theorem forall₂_of_append {α : Type} {R : α → α → Prop} : ∀ {xs ys xs' ys' : List α},
    xs.length = ys.length → List.Forall₂ R (xs ++ xs') (ys ++ ys') →
      List.Forall₂ R xs ys ∧ List.Forall₂ R xs' ys'
  | [], [], _, _, _, h => ⟨.nil, h⟩
  | _ :: _, _ :: _, _, _, hlength, .cons h hrest => by
      rcases forall₂_of_append (Nat.succ.inj hlength) hrest with ⟨h₁, h₂⟩
      exact ⟨.cons h h₁, h₂⟩

/-- One piece of code after another. What is known in front of the second one is what the first
    one leaves. -/
theorem append {k₁ : Known} {more rest : List Stmt} {f : Known → Known}
    {g : Known → List HookCall} (h : Remainder k₁ kept all flow calls)
    (h' : Remainder k' more rest (f k₁) (g k₁)) :
    Remainder k' (kept ++ more) (all ++ rest) (f flow) (calls ++ g flow) where
  length_eq := by
    rw [List.length_append, List.length_append, h.length_eq, h'.length_eq]
  settled hforetold := by
    rcases forall₂_of_append h.length_eq hforetold with ⟨hkept, hmore⟩
    rcases h.settled hkept with ⟨rfl, hcalls⟩
    rcases h'.settled hmore with ⟨rfl, hcalls'⟩
    exact ⟨rfl, fun declared => Policy.declinesAll_append.mpr ⟨hcalls declared, hcalls' declared⟩⟩

/-- Knowledge may change in the same way on both sides. -/
theorem map (h : Remainder k' kept all flow calls) (f : Known → Known) :
    Remainder (f k') kept all (f flow) calls where
  length_eq := h.length_eq
  settled hforetold := ⟨congrArg f (h.settled hforetold).1, (h.settled hforetold).2⟩

/-- An expression in front of other code. -/
theorem behind {d : Dialect} (h : Remainder k' kept all flow calls) (e : Expr) (k : Known) :
    Remainder k' kept all flow (e.hooks d k ++ calls) where
  length_eq := h.length_eq
  settled hforetold := ⟨(h.settled hforetold).1, fun declared => Policy.declinesAll_append.mpr
    ⟨Pass.structurePolicy_declines declared e k, (h.settled hforetold).2 declared⟩⟩

/-- A statement that is kept, together with what is kept inside it. -/
theorem cons {s s' : Stmt} (hlength : kept.length = all.length)
    (hsettled : s.Foretells s' → List.Forall₂ Stmt.Foretells kept all → k' = flow ∧
      ∀ declared, (Pass.structurePolicy declared).DeclinesAll calls)
    (hstays : s.Foretells s' → ∀ declared, Pass.simplifyStructureStmt declared k s' = none) :
    Remainder k' (s :: kept) (s' :: all) flow (⟨.replace s', k⟩ :: calls) where
  length_eq := by rw [List.length_cons, List.length_cons, hlength]
  settled hforetold := by
    cases hforetold with
    | cons hs hrest =>
        rcases hsettled hs hrest with ⟨hflow, hcalls⟩
        exact ⟨hflow, fun declared => Policy.declinesAll_cons.mpr
          ⟨fun _ => hstays hs declared, hcalls declared⟩⟩

/-- A statement that is kept and is not a loop. -/
theorem inside {s s' : Stmt} (h : Remainder k' kept all flow calls)
    (hstays : ∀ declared, Pass.simplifyStructureStmt declared k s' = none) :
    Remainder k' (s :: kept) (s' :: all) flow (⟨.replace s', k⟩ :: calls) :=
  cons h.length_eq (fun _ => h.settled) fun _ => hstays

/-- A statement that holds nothing but an expression. -/
theorem leaf {d : Dialect} {s : Stmt} (e : Expr)
    (hstays : ∀ declared, Pass.simplifyStructureStmt declared k s = none) :
    Remainder flow [s] [s] flow (⟨.replace s, k⟩ :: e.hooks d k) := by
  have h := ((Remainder.nil flow).behind (d := d) e k).inside (s := s) hstays
  rwa [List.append_nil] at h

end Remainder

/-- Whether a branch is removed does not depend on the declarations of the program. -/
theorem Pass.simplifyStructureStmt_map {k : Known} {e : Expr} {f g : Word → List Stmt}
    (h : (k.constant? e).map f = none) : (k.constant? e).map g = none :=
  Option.map_eq_none_iff.mpr (Option.map_eq_none_iff.mp h)

/-- A loop that was kept is kept again, once what it assigns is foretold. -/
theorem Pass.simplifyStructureStmt_foretold {declared declared' : List String} {k : Known}
    {line line' : Nat} {pre pre' post post' body body' : Block} {test : Expr}
    (hkept : simplifyStructureStmt declared k (.loop line pre test post body) = none)
    (h : Stmt.Foretells (.loop line pre test post body) (.loop line' pre' test post' body')) :
    simplifyStructureStmt declared' k (.loop line' pre' test post' body') = none := by
  have hinit : changedByInit pre test = changedByInit pre' test := h.2
  rw [simplifyStructureStmt] at hkept ⊢
  rw [← hinit]
  split at hkept
  -- The init part changes what the test reads, then and now.
  · rename_i hchanged
    rw [if_pos hchanged]
  · rename_i hchanged
    rw [if_neg hchanged]
    rcases hw : k.constant? test with _ | w
    · rfl
    -- A zero test would have removed the loop.
    · rw [hw] at hkept
      by_cases hzero : w = 0
      · simp only [hzero, if_true] at hkept
        exact absurd hkept (by rintro ⟨⟩)
      · simp only [hzero, if_false]

namespace Flow

variable {d : Dialect} {declared : List String}

section Expressions

variable {σ : Type} {p : Policy σ} {note : σ → Stmt → σ}

mutual

/-- Removing statements leaves expressions as they are. -/
theorem visitExpr_removes (hp : p.Removes declared note) : ∀ (fuel : Nat) (e : Expr)
    (st : FlowState σ), visitExpr d p fuel e st = (e, st)
  | 0, e, st => rfl
  | fuel + 1, e, ⟨k, scopes, own⟩ => by
      have henter : (act (p.enter · e) : Walk σ Expr) ⟨k, scopes, own⟩ = (e, ⟨k, scopes, own⟩) := by
        rw [act_run, hp.enter]
      have hleave : ∀ e', (act (p.leave · e') : Walk σ Expr) ⟨k, scopes, own⟩
          = (e', ⟨k, scopes, own⟩) := fun e' => by rw [act_run, hp.leave]
      rw [visitExpr, walk_bind henter]
      cases e with
      | literal l => exact hleave _
      | ident line name => exact hleave _
      | instr line op args =>
          dsimp only
          rw [walk_bind (walk_map (visitArgs_removes hp fuel args ⟨k, scopes, own⟩))]
          exact hleave _
      | call line name args =>
          dsimp only
          split
          · exact hleave _
          · rw [walk_bind (walk_map (visitArgs_removes hp fuel args ⟨k, scopes, own⟩))]
            exact hleave _

/-- Removing statements leaves arguments as they are. -/
theorem visitArgs_removes (hp : p.Removes declared note) : ∀ (fuel : Nat) (es : List Expr)
    (st : FlowState σ), visitArgs d p fuel es st = (es, st)
  | 0, es, st => by
      rw [visitArgs]
      rfl
  | fuel + 1, [], st => by
      rw [visitArgs]
      · rfl
      · rintro ⟨⟩
  | fuel + 1, e :: rest, st => by
      rw [visitArgs, walk_bind (visitArgs_removes hp fuel rest st),
        walk_bind (visitExpr_removes hp fuel e st)]
      rfl

end

/-- Removing statements leaves the expression of a statement as it is. -/
theorem visitRoot_removes (hp : p.Removes declared note) (e : Expr) (k : Known)
    (scopes : List (List String)) (own : σ) : visitRoot d p e ⟨k, scopes, own⟩
      = (e, ⟨k.evaluated d e, scopes, own⟩) := by
  have hget : (get : Walk σ (FlowState σ)) ⟨k, scopes, own⟩
      = (⟨k, scopes, own⟩, ⟨k, scopes, own⟩) := rfl
  rw [visitRoot, walk_bind hget, walk_bind (visitExpr_removes hp _ e _)]
  rfl

end Expressions

/-- Something is lighter than before or has not changed. -/
def Lighter {α : Type} (weight : α → Nat) (a a' : α) : Prop :=
  weight a' ≤ weight a ∧ (weight a ≤ weight a' → a' = a)

theorem Lighter.refl {α : Type} (weight : α → Nat) (a : α) : Lighter weight a a :=
  ⟨Nat.le_refl _, fun _ => rfl⟩

/-- The walk of every policy that removes control flow, over some code from a state of
    knowledge. The result and what is known in the end do not depend on the policy, and its
    own state changes by the statements that are kept. -/
def Removing {α : Type} (declared : List String) (visit : ∀ {σ : Type}, Policy σ → Walk σ α)
    (k : Known) (scopes : List (List String)) (a : α) (k' : Known)
    (scopes' : List (List String)) (kept : List Stmt) : Prop :=
  ∀ {σ : Type} {p : Policy σ} {note : σ → Stmt → σ}, p.Removes declared note → ∀ own,
    visit p ⟨k, scopes, own⟩ = (a, ⟨k', scopes', kept.foldl note own⟩)

/-- With this much fuel, a walk that removes control flow makes of a block one that is as light, and
    lighter if anything was removed, and that has nothing left to be removed. -/
def BlockRemoves (d : Dialect) (declared : List String) (fuel : Nat) (b : Block) : Prop :=
  ∀ (k : Known) (scopes : List (List String)),
    b.weight ≤ fuel → ∃ b' k' kept,
      Removing declared (fun p => visitBlock d p fuel b) k scopes b' k' scopes kept ∧
        Lighter Block.weight b b' ∧
        Remainder k' kept b'.allStmts (b'.flow d k) (b'.hooks d k)

/-- So it does with statements. -/
def StmtsRemove (d : Dialect) (declared : List String) (fuel : Nat) (stmts : List Stmt) : Prop :=
  ∀ (k : Known) (scope : List String) (outer : List (List String)),
    Stmt.weightSeq stmts ≤ fuel →
    ∃ out k' kept, Removing declared (fun p => visitStmts d p fuel stmts) k (scope :: outer) out
        k' ((scope ++ Stmt.declaredSeq out) :: outer) kept ∧
      Lighter Stmt.weightSeq stmts out ∧
      Remainder k' kept (Stmt.allStmtsSeq out) (Stmt.flowSeq d k out) (Stmt.hooksSeq d k out)

/-- So it does with a statement that is itself kept. -/
def StmtRemoves (d : Dialect) (declared : List String) (fuel : Nat) (s : Stmt) : Prop :=
  ∀ (k : Known) (scope : List String) (outer : List (List String)),
    s.weight ≤ fuel + 1 →
    Pass.simplifyStructureStmt declared k s = none → ∃ s' k' kept,
      Removing declared (fun p => visitStmt d p fuel s) k (scope :: outer) s' k'
        ((scope ++ s'.declaresVars) :: outer) kept ∧
      Lighter Stmt.weight s s' ∧
      Remainder k' (s :: kept) (s' :: s'.allInner) (s'.flow d k)
        (⟨.replace s', k⟩ :: s'.hooks d k)

/-- So it does with the cases of a switch. -/
def CasesRemove (d : Dialect) (declared : List String) (fuel : Nat) (cases : List Case) : Prop :=
  ∀ (k : Known) (scopes : List (List String)),
    Case.weightSeq cases ≤ fuel → ∃ cases' k' kept,
    Removing declared (fun p => visitCases d p fuel cases) k scopes cases' k' scopes kept ∧
      Lighter Case.weightSeq cases cases' ∧
      Remainder k' kept (Case.allStmtsSeq cases') (Case.flowSeq d k cases')
        (Case.hooksSeq d k cases')

variable {fuel : Nat}

namespace BlockRemoves

/-- Without fuel a block cannot weigh enough. -/
theorem zero {b : Block} : BlockRemoves d declared 0 b := by
  rcases b with ⟨line, stmts⟩
  intro k scopes hfuel
  rw [Block.weight] at hfuel
  omega

/-- A block removes what its statements do. -/
theorem of_stmts {line : Nat} {stmts : List Stmt} (hinner : StmtsRemove d declared fuel stmts) :
    BlockRemoves d declared (fuel + 1) ⟨line, stmts⟩ := by
  intro k scopes hfuel
  rw [Block.weight] at hfuel
  rcases hinner k [] scopes (by omega) with ⟨out, k', kept, hrun, hlight, h⟩
  refine ⟨⟨line, out⟩, k'.forget (Stmt.declaredSeq out), kept, fun hp own => ?_, ?_, ?_⟩
  -- The block opens a scope, walks its statements, and closes the scope.
  · have hopen : ∀ {σ : Type} (own : σ), (openScope : Walk σ Unit) ⟨k, scopes, own⟩
        = ((), ⟨k, [] :: scopes, own⟩) := fun _ => rfl
    dsimp only
    rw [visitBlock, walk_bind (hopen own), walk_bind (hrun hp own),
      walk_bind (closeScope_run _ _ _ _)]
    rfl
  -- The weights are those of the statements, and one.
  · refine ⟨?_, fun hle => ?_⟩
    · rw [Block.weight, Block.weight]
      exact Nat.add_le_add_left hlight.1 1
    · rw [Block.weight, Block.weight] at hle
      rw [hlight.2 (by omega)]
  · rw [Block.allStmts, Block.flow, Block.hooks]
    exact h.map (·.forget (Stmt.declaredSeq out))

end BlockRemoves

namespace StmtsRemove

/-- Of no statements nothing is removed. -/
theorem nil : StmtsRemove d declared fuel [] := by
  intro k scope outer _
  refine ⟨[], k, [], fun hp own => ?_, .refl _ _, ?_⟩
  · rw [Stmt.declaredSeq, List.flatMap_nil, List.append_nil]
    cases fuel <;> rfl
  · rw [Stmt.allStmtsSeq, Stmt.flowSeq, Stmt.hooksSeq]
    exact .nil k

/-- Without fuel a statement cannot weigh enough. -/
theorem zero {s : Stmt} {rest : List Stmt} : StmtsRemove d declared 0 (s :: rest) := by
  intro k scope outer hfuel
  have := weight_pos s
  rw [Stmt.weightSeq] at hfuel
  omega

/-- A statement that is removed makes the program lighter, whatever becomes of the rest. -/
theorem cons {s : Stmt} {rest : List Stmt} (hone : StmtRemoves d declared fuel s)
    (hlater : ∀ stmts, StmtsRemove d declared fuel stmts) :
    StmtsRemove d declared (fuel + 1) (s :: rest) := by
  intro k scope outer hfuel
  have := weight_pos s
  rw [Stmt.weightSeq] at hfuel
  cases hreplace : Pass.simplifyStructureStmt declared k s with
  -- The statement goes, and what comes in its place is walked with the others; it weighs less.
  | some stmts =>
      have hweight := Pass.simplifyStructureStmt_weight hreplace
      have hsum := weightSeq_append stmts rest
      rcases hlater (stmts ++ rest) k scope outer (by omega) with ⟨out, k', kept, hrun, hlight, h⟩
      refine ⟨out, k', kept, fun hp own => ?_, ?_, h⟩
      · dsimp only
        rw [visitStmts, walk_bind (act_run _ k (scope :: outer) own), hp.removed own hreplace]
        exact hrun hp own
      · have hle := hlight.1
        rw [Lighter, Stmt.weightSeq]
        exact ⟨by omega, fun hge => by omega⟩
  -- The statement stays, and the walk goes on behind it.
  | none =>
      rcases hone k scope outer (by omega) hreplace with ⟨s', k₁, kept, hrun, hlight, h⟩
      rcases hlater rest k₁ (scope ++ s'.declaresVars) outer (by omega) with
        ⟨out, k', more, hrun', hlight', h'⟩
      refine ⟨s' :: out, k', s :: kept ++ more, fun hp own => ?_, ?_, ?_⟩
      · dsimp only
        rw [visitStmts, walk_bind (act_run _ k (scope :: outer) own), hp.kept own hreplace]
        dsimp only
        rw [walk_bind (hrun hp _), walk_bind (hrun' hp _), Stmt.declaredSeq_cons,
          ← List.append_assoc, List.cons_append, List.foldl_cons, List.foldl_append]
        rfl
      · have hle := hlight.1
        have hle' := hlight'.1
        rw [Lighter, Stmt.weightSeq, Stmt.weightSeq]
        refine ⟨by omega, fun hge => ?_⟩
        rw [hlight.2 (by omega), hlight'.2 (by omega)]
      -- What remains of the first statement and what remains of the others.
      · rw [Stmt.allStmtsSeq, Stmt.flowSeq, Stmt.hooksSeq]
        exact h.append (f := fun k => Stmt.flowSeq d k out)
          (g := fun k => Stmt.hooksSeq d k out) h'

end StmtsRemove

namespace StmtRemoves

theorem zero {s : Stmt} : StmtRemoves d declared 0 s := by
  intro k scope outer hfuel _
  have := weight_pos s
  omega

/-- A statement of one expression stays. -/
theorem expr {line : Nat} {e : Expr} : StmtRemoves d declared (fuel + 1) (Stmt.expr line e) := by
  intro k scope outer _ _
  refine ⟨.expr line e, k.evaluated d e, [], fun hp own => ?_, .refl _ _, ?_⟩
  · simp only [Stmt.declaresVars, List.append_nil]
    rw [visitStmt, walk_bind (visitRoot_removes hp e k _ own)]
    rfl
  · simp only [Stmt.allInner, Stmt.flow, Stmt.hooks]
    exact .leaf e fun _ => rfl

/-- An assignment stays. -/
theorem assign {line : Nat} {targets : List Identifier} {value : Expr} :
    StmtRemoves d declared (fuel + 1) (Stmt.assign line targets value) := by
  intro k scope outer _ _
  refine ⟨.assign line targets value, (k.evaluated d value).assigned d
    (targets.map (·.name)) (some value), [], fun hp own => ?_, .refl _ _, ?_⟩
  · simp only [Stmt.declaresVars, List.append_nil]
    rw [visitStmt, walk_bind (visitRoot_removes hp value k _ own)]
    rfl
  · simp only [Stmt.allInner, Stmt.flow, Stmt.hooks]
    exact .leaf value fun _ => rfl

/-- A declaration without a value stays. -/
theorem decl_none {line : Nat} {vars : List TypedName} :
    StmtRemoves d declared (fuel + 1) (Stmt.decl line vars none) := by
  intro k scope outer _ _
  refine ⟨.decl line vars none, k.assigned d (vars.map (·.name))
    (declaredValue line vars none), [], fun hp own => ?_, .refl _ _, ?_⟩
  · dsimp only
    rw [visitStmt, Stmt.declaresVars]
    rfl
  · simp only [Stmt.allInner, Stmt.flow, Stmt.hooks]
    exact (Remainder.nil _).inside fun _ => rfl

/-- A declaration with a value stays. -/
theorem decl_some {line : Nat} {vars : List TypedName} {value : Expr} :
    StmtRemoves d declared (fuel + 1) (Stmt.decl line vars (some value)) := by
  intro k scope outer _ _
  refine ⟨.decl line vars (some value), (k.evaluated d value).assigned d
    (vars.map (·.name)) (declaredValue line vars (some value)), [], fun hp own => ?_,
    .refl _ _, ?_⟩
  · have hvalue := walk_map (f := some) (visitRoot_removes (d := d) hp value k (scope :: outer) own)
    dsimp only
    rw [visitStmt, Stmt.declaresVars]
    exact walk_bind hvalue
  · simp only [Stmt.allInner, Stmt.flow, Stmt.hooks]
    exact .leaf value fun _ => rfl

/-- A function definition stays, with what remains of its body. -/
theorem func {line : Nat} {name : String} {params returns : List TypedName} {body : Block}
    (hinner : BlockRemoves d declared fuel body) :
    StmtRemoves d declared (fuel + 1) (Stmt.func line name params returns body) := by
  intro k scope outer hfuel _
  rw [Stmt.weight] at hfuel
  rcases hinner .nothing [(params ++ returns).map (·.name)] (by omega)
    with ⟨body', k', kept, hrun, hlight, h⟩
  refine ⟨.func line name params returns body', k, kept, fun hp own => ?_, ?_, ?_⟩
  -- The body is walked apart, from nothing known.
  · simp only [Stmt.declaresVars, List.append_nil]
    have hget : ∀ {σ : Type} (own : σ), (get : Walk σ (FlowState σ)) ⟨k, scope :: outer, own⟩
        = (⟨k, scope :: outer, own⟩, ⟨k, scope :: outer, own⟩) := fun _ => rfl
    have hset : ∀ {σ : Type} (own : σ), (set (⟨.nothing,
        [(params ++ returns).map TypedName.name], own⟩ : FlowState σ) : Walk σ PUnit)
          ⟨k, scope :: outer, own⟩
            = (⟨⟩, ⟨.nothing, [(params ++ returns).map TypedName.name], own⟩) := fun _ => rfl
    rw [visitStmt, walk_bind (hget own), walk_bind (hset own), walk_bind (hrun hp own)]
    rfl
  · have hle := hlight.1
    rw [Lighter, Stmt.weight, Stmt.weight]
    exact ⟨by omega, fun hge => by rw [hlight.2 (by omega)]⟩
  -- Nothing of the body reaches what is known behind the definition.
  · rw [Stmt.allInner, Stmt.flow, Stmt.hooks]
    exact .inside ⟨h.length_eq, fun hforetold => ⟨rfl, (h.settled hforetold).2⟩⟩ fun _ => rfl

/-- A conditional that is kept keeps what remains of its body. -/
theorem cond {line : Nat} {test : Expr} {body : Block}
    (hinner : BlockRemoves d declared fuel body) :
    StmtRemoves d declared (fuel + 1) (Stmt.cond line test body) := by
  intro k scope outer hfuel hkept
  rw [Stmt.weight] at hfuel
  rcases hinner (k.evaluated d test) (scope :: outer) (by omega) with
    ⟨body', k', kept, hrun, hlight, h⟩
  refine ⟨.cond line test body', k'.forget body'.assigned, kept, fun hp own => ?_, ?_, ?_⟩
  · simp only [Stmt.declaresVars, List.append_nil]
    rw [visitStmt, walk_bind (visitRoot_removes hp test k _ own), walk_bind (hrun hp own)]
    rfl
  · have hle := hlight.1
    rw [Lighter, Stmt.weight, Stmt.weight]
    exact ⟨by omega, fun hge => by rw [hlight.2 (by omega)]⟩
  · rw [Stmt.allInner, Stmt.flow, Stmt.hooks]
    exact ((h.map (·.forget body'.assigned)).behind test k).inside
      fun _ => Pass.simplifyStructureStmt_map hkept

/-- A switch that is kept keeps what remains of its cases. -/
theorem switch {line : Nat} {subject : Expr} {cases : List Case}
    (hcases : CasesRemove d declared fuel cases) :
    StmtRemoves d declared (fuel + 1) (Stmt.switch line subject cases) := by
  intro k scope outer hfuel hkept
  rw [Stmt.weight] at hfuel
  rcases hcases (k.evaluated d subject) (scope :: outer) (by omega)
    with ⟨cases', k', kept, hrun, hlight, h⟩
  refine ⟨.switch line subject cases', k', kept, fun hp own => ?_, ?_, ?_⟩
  · simp only [Stmt.declaresVars, List.append_nil]
    rw [visitStmt, walk_bind (visitRoot_removes hp subject k _ own), walk_bind (hrun hp own)]
    rfl
  · have hle := hlight.1
    rw [Lighter, Stmt.weight, Stmt.weight]
    exact ⟨by omega, fun hge => by rw [hlight.2 (by omega)]⟩
  · rw [Stmt.allInner, Stmt.flow, Stmt.hooks]
    exact (h.behind subject k).inside fun _ => Pass.simplifyStructureStmt_map hkept

/-- A loop that is kept keeps what remains of its parts. -/
theorem loop {line preLine : Nat} {pre : List Stmt} {test : Expr} {post body : Block}
    (hfirst : StmtsRemove d declared fuel pre) (hround : BlockRemoves d declared fuel body)
    (hthen : BlockRemoves d declared fuel post) :
    StmtRemoves d declared (fuel + 1) (Stmt.loop line ⟨preLine, pre⟩ test post body) := by
  intro k scope outer hfuel hkept
  rw [Stmt.weight, Block.weight] at hfuel
  -- The names assigned in the loop, as they are before anything is removed.
  generalize hassigned : body.assigned ++ post.assigned = assigned
  rcases hfirst k [] (scope :: outer) (by omega) with ⟨pre', k₁, kept₁, hrun₁, hlight₁, h₁⟩
  rcases hround ((k₁.forget assigned).evaluated d test)
    (([] ++ Stmt.declaredSeq pre') :: scope :: outer) (by omega) with
      ⟨body', k₂, kept₂, hrun₂, hlight₂, h₂⟩
  rcases hthen (k₂.forget assigned)
    (([] ++ Stmt.declaredSeq pre') :: scope :: outer) (by omega) with
      ⟨post', k₃, kept₃, hrun₃, hlight₃, h₃⟩
  refine ⟨.loop line ⟨preLine, pre'⟩ test post' body',
    (k₃.forget assigned).forget (Stmt.declaredSeq pre'), kept₁ ++ kept₂ ++ kept₃,
    fun hp own => ?_, ?_, ?_⟩
  -- The walk takes the parts in order, forgetting the assigned names between them.
  · have hopen : ∀ {σ : Type} (own : σ), (openScope : Walk σ Unit) ⟨k, scope :: outer, own⟩
        = ((), ⟨k, [] :: scope :: outer, own⟩) := fun _ => rfl
    simp only [Stmt.declaresVars, List.append_nil]
    rw [visitStmt, hassigned, walk_bind (hopen own), walk_bind (hrun₁ hp own),
      walk_bind (changeKnown_run _ _ _ _), walk_bind (visitRoot_removes hp test _ _ _),
      walk_bind (hrun₂ hp _), walk_bind (changeKnown_run _ _ _ _), walk_bind (hrun₃ hp _),
      walk_bind (changeKnown_run _ _ _ _), walk_bind (closeScope_run _ _ _ _),
      List.foldl_append, List.foldl_append]
    rfl
  -- If nothing has become lighter, no part has.
  · have hle₁ := hlight₁.1
    have hle₂ := hlight₂.1
    have hle₃ := hlight₃.1
    simp only [Lighter, Stmt.weight, Block.weight]
    refine ⟨by omega, fun hge => ?_⟩
    rw [hlight₁.2 (by omega), hlight₂.2 (by omega), hlight₃.2 (by omega)]
  · -- The walk forgets what the loop assigned before; once that is what it assigns in the
    -- end, the flow of the result is the knowledge of the walk.
    have h := (h₁.append (f := fun k => (body'.flow d ((k.forget assigned).evaluated d test)))
      (g := fun k => test.hooks d (k.forget assigned) ++
        body'.hooks d ((k.forget assigned).evaluated d test)) (h₂.behind test _)).append
      (f := fun k => post'.flow d (k.forget assigned))
      (g := fun k => post'.hooks d (k.forget assigned)) h₃
    rw [Stmt.allInner, Stmt.flow, Stmt.hooks, Block.allStmts]
    refine .cons h.length_eq (fun hs hinner => ?_)
      fun hs _ => Pass.simplifyStructureStmt_foretold hkept hs
    have hforget : ∀ k : Known, k.forget (body'.assigned ++ post'.assigned)
        = k.forget assigned := fun k => by
      rw [← hassigned]
      exact forget_congr k hs.1.2 hs.1.1
    simp only [hforget]
    rcases h.settled hinner with ⟨hknown, hcalls⟩
    refine ⟨by rw [hknown], fun declared => ?_⟩
    simpa only [List.append_assoc] using hcalls declared

/-- A break stays. -/
theorem brk {line : Nat} : StmtRemoves d declared (fuel + 1) (Stmt.brk line) := by
  intro k scope outer _ _
  refine ⟨.brk line, k, [], fun hp own => ?_, .refl _ _, ?_⟩
  · simp only [Stmt.declaresVars, List.append_nil]
    rw [visitStmt]
    rfl
  · simp only [Stmt.allInner, Stmt.flow, Stmt.hooks]
    exact (Remainder.nil _).inside fun _ => rfl

/-- A continue stays. -/
theorem cont {line : Nat} : StmtRemoves d declared (fuel + 1) (Stmt.cont line) := by
  intro k scope outer _ _
  refine ⟨.cont line, k, [], fun hp own => ?_, .refl _ _, ?_⟩
  · simp only [Stmt.declaresVars, List.append_nil]
    rw [visitStmt]
    rfl
  · simp only [Stmt.allInner, Stmt.flow, Stmt.hooks]
    exact (Remainder.nil _).inside fun _ => rfl

/-- A nested block stays, with what remains of it. -/
theorem block {b : Block} (hinner : BlockRemoves d declared fuel b) :
    StmtRemoves d declared (fuel + 1) (Stmt.block b) := by
  intro k scope outer hfuel _
  rw [Stmt.weight] at hfuel
  rcases hinner k (scope :: outer) (by omega) with ⟨b', k', kept, hrun, hlight, h⟩
  refine ⟨.block b', k', kept, fun hp own => ?_, ?_, ?_⟩
  · simp only [Stmt.declaresVars, List.append_nil]
    rw [visitStmt, walk_bind (hrun hp own)]
    rfl
  · have hle := hlight.1
    rw [Lighter, Stmt.weight, Stmt.weight]
    exact ⟨by omega, fun hge => by rw [hlight.2 (by omega)]⟩
  · rw [Stmt.allInner, Stmt.flow, Stmt.hooks]
    exact h.inside fun _ => rfl

/-- A label stays. -/
theorem label {line : Nat} {name : String} :
    StmtRemoves d declared (fuel + 1) (Stmt.label line name) := by
  intro k scope outer _ _
  refine ⟨.label line name, .nothing, [], fun hp own => ?_, .refl _ _, ?_⟩
  · simp only [Stmt.declaresVars, List.append_nil]
    rw [visitStmt]
    rfl
  · simp only [Stmt.allInner, Stmt.flow, Stmt.hooks]
    exact (Remainder.nil _).inside fun _ => rfl

/-- An assignment from the stack stays. -/
theorem stackAssign {line : Nat} {target : Identifier} :
    StmtRemoves d declared (fuel + 1) (Stmt.stackAssign line target) := by
  intro k scope outer _ _
  refine ⟨.stackAssign line target, k.forget [target.name], [], fun hp own => ?_,
    .refl _ _, ?_⟩
  · simp only [Stmt.declaresVars, List.append_nil]
    rw [visitStmt]
    rfl
  · simp only [Stmt.allInner, Stmt.flow, Stmt.hooks]
    exact (Remainder.nil _).inside fun _ => rfl

end StmtRemoves

namespace CasesRemove

/-- Of no cases nothing is removed. -/
theorem nil : CasesRemove d declared fuel [] := by
  intro k scopes _
  refine ⟨[], k, [], fun hp own => ?_, .refl _ _, ?_⟩
  · cases fuel <;> rfl
  · rw [Case.allStmtsSeq, Case.flowSeq, Case.hooksSeq]
    exact .nil k

/-- Without fuel a case cannot weigh enough. -/
theorem zero {c : Case} {rest : List Case} : CasesRemove d declared 0 (c :: rest) := by
  rcases c with ⟨line, value, body⟩
  intro k scopes hfuel
  rw [Case.weightSeq] at hfuel
  omega

/-- Cases keep what remains of their bodies. -/
theorem cons {line : Nat} {value : Option Literal} {body : Block} {rest : List Case}
    (hinner : BlockRemoves d declared fuel body) (hmore : CasesRemove d declared fuel rest) :
    CasesRemove d declared (fuel + 1) (⟨line, value, body⟩ :: rest) := by
  intro k scopes hfuel
  rw [Case.weightSeq] at hfuel
  rcases hinner k scopes (by omega) with ⟨body', k₁, kept, hrun, hlight, h⟩
  rcases hmore (k₁.forget body'.assigned) scopes (by omega) with
    ⟨cases', k', more, hrun', hlight', h'⟩
  refine ⟨⟨line, value, body'⟩ :: cases', k', kept ++ more, fun hp own => ?_, ?_, ?_⟩
  · dsimp only
    rw [visitCases, walk_bind (hrun hp own), walk_bind (changeKnown_run _ _ _ _),
      walk_bind (hrun' hp _), List.foldl_append]
    rfl
  · have hle := hlight.1
    have hle' := hlight'.1
    rw [Lighter, Case.weightSeq, Case.weightSeq]
    refine ⟨by omega, fun hge => ?_⟩
    rw [hlight.2 (by omega), hlight'.2 (by omega)]
  -- What remains of the first body and what remains of the other cases.
  · rw [Case.allStmtsSeq, Case.flowSeq, Case.hooksSeq]
    exact h.append (f := fun k => Case.flowSeq d (k.forget body'.assigned) cases')
      (g := fun k => Case.hooksSeq d (k.forget body'.assigned) cases') h'

end CasesRemove

mutual

/-- What removing control flow makes of a block. -/
theorem visitBlock_removes : ∀ (fuel : Nat) (b : Block), BlockRemoves d declared fuel b
  | 0, _ => .zero
  | fuel + 1, ⟨_, stmts⟩ => .of_stmts (visitStmts_removes fuel stmts)

theorem visitStmts_removes : ∀ (fuel : Nat) (stmts : List Stmt), StmtsRemove d declared fuel stmts
  | _, [] => .nil
  | 0, _ :: _ => .zero
  | fuel + 1, s :: _ => .cons (visitStmt_removes fuel s) (visitStmts_removes fuel)

/-- The walk over a statement removes as it says. -/
theorem visitStmt_removes : ∀ (fuel : Nat) (s : Stmt), StmtRemoves d declared fuel s
  | 0, _ => .zero
  | _ + 1, .expr _ _ => .expr
  | _ + 1, .assign _ _ _ => .assign
  | _ + 1, .decl _ _ none => .decl_none
  | _ + 1, .decl _ _ (some _) => .decl_some
  | fuel + 1, .func _ _ _ _ body => .func (visitBlock_removes fuel body)
  | fuel + 1, .cond _ _ body => .cond (visitBlock_removes fuel body)
  | fuel + 1, .switch _ _ cases => .switch (visitCases_removes fuel cases)
  | fuel + 1, .loop _ ⟨_, pre⟩ _ post body => .loop (visitStmts_removes fuel pre)
      (visitBlock_removes fuel body) (visitBlock_removes fuel post)
  | _ + 1, .brk _ => .brk
  | _ + 1, .cont _ => .cont
  | fuel + 1, .block b => .block (visitBlock_removes fuel b)
  | _ + 1, .label _ _ => .label
  | _ + 1, .stackAssign _ _ => .stackAssign

/-- The walk over cases removes as they say. -/
theorem visitCases_removes : ∀ (fuel : Nat) (cases : List Case), CasesRemove d declared fuel cases
  | _, [] => .nil
  | 0, _ :: _ => .zero
  | fuel + 1, ⟨_, _, body⟩ :: rest => .cons (visitBlock_removes fuel body)
      (visitCases_removes fuel rest)

end

/-- What removing control flow makes of a program, whatever the policy that does it. -/
theorem run_removes (d : Dialect) (declared : List String) (code : Block) : ∃ code' k' kept,
    (∀ {σ : Type} {p : Policy σ} {note : σ → Stmt → σ}, p.Removes declared note → ∀ own,
      run d p own code = (code', kept.foldl note own)) ∧
    Lighter Block.weight code code' ∧
    Remainder k' kept code'.allStmts (code'.flow d .nothing) (code'.hooks d .nothing) := by
  obtain ⟨code', k', kept, hrun, hlight, h⟩ : ∃ code' k' kept,
      Removing declared (fun p => visitBlock d p (code.weight + 1) code) .nothing [] code' k' []
        kept ∧
        Lighter Block.weight code code' ∧
        Remainder k' kept code'.allStmts (code'.flow d .nothing) (code'.hooks d .nothing) :=
    visitBlock_removes (code.weight + 1) code .nothing [] (Nat.le_succ _)
  refine ⟨code', k', kept, fun {σ p note} hp own => ?_, hlight, h⟩
  have hwalk : visitBlock d p (code.weight + 1) code ⟨.nothing, [], own⟩
      = (code', ⟨k', [], kept.foldl note own⟩) := hrun hp own
  show ((visitBlock d p (code.weight + 1) code ⟨.nothing, [], own⟩).1,
    (visitBlock d p (code.weight + 1) code ⟨.nothing, [], own⟩).2.own) = _
  rw [hwalk]

end Flow

namespace Pass

variable {d : Dialect}

/-- Writing down statements one by one puts them behind those written down before. -/
theorem foldl_kept (kept seen : List Stmt) :
    kept.foldl (fun kept s => kept ++ [s]) seen = seen ++ kept := by
  induction kept generalizing seen with
  | nil => exact (List.append_nil seen).symm
  | cons s rest ih => rw [List.foldl_cons, ih, List.append_assoc, List.singleton_append]

/-- A run makes the program lighter or leaves it as it is. -/
theorem simplifyStructure_lighter (d : Dialect) (code : Block) :
    Flow.Lighter Block.weight code (simplifyStructure d code) := by
  rw [simplifyStructure]
  split
  · rcases Flow.run_removes d code.declared code with ⟨code', _, _, hrun, hlight, _⟩
    rw [hrun (structurePolicy_removes code.declared) ()]
    exact hlight
  · exact .refl _ _

/-- If all loops that are kept were foretold, there is nothing left to do. -/
theorem simplifyStructure_again {code : Block}
    (h : List.Forall₂ Stmt.Foretells (keptStmts d code) (simplifyStructure d code).allStmts) :
    simplifyStructure d (simplifyStructure d code) = simplifyStructure d code := by
  by_cases hd : d.machine?.isSome = true
  · rcases Flow.run_removes d code.declared code with ⟨code', k', kept, hrun, _, hrest⟩
    have hkept : keptStmts d code = kept := by
      rw [keptStmts, hrun (keepingPolicy_removes code.declared) [], foldl_kept, List.nil_append]
    have hcode : simplifyStructure d code = code' := by
      rw [simplifyStructure, if_pos hd, hrun (structurePolicy_removes code.declared) ()]
    rw [hkept, hcode] at h
    have hdeclined := (hrest.settled h).2 code'.declared
    rw [hcode, simplifyStructure, if_pos hd, Flow.run_declined hdeclined]
  · have hidle : ∀ b, simplifyStructure d b = b := fun b => by rw [simplifyStructure, if_neg hd]
    rw [hidle, hidle]

/-- Repeated runs come to an end, at the latest when each of them has made the program
    lighter. -/
theorem iterate_simplifyStructure_settles (d : Dialect) (code : Block) :
    ∃ n ≤ code.weight, simplifyStructure d ((simplifyStructure d)^[n] code)
      = (simplifyStructure d)^[n] code := by
  induction hweight : code.weight using Nat.strongRecOn generalizing code with
  | _ weight ih =>
      rcases simplifyStructure_lighter d code with ⟨_, hsame⟩
      by_cases hlt : (simplifyStructure d code).weight < weight
      · rcases ih _ hlt (simplifyStructure d code) rfl with ⟨n, hn, hfix⟩
        refine ⟨n + 1, by omega, ?_⟩
        rw [Function.iterate_succ_apply]
        exact hfix
      · exact ⟨0, Nat.zero_le _, hsame (by omega)⟩

end Pass

/-- A second run changes nothing if no loop that the first one keeps has lost an assignment on
    the way, and repeated runs come to an end for every program. -/
theorem simplifyStructure_settles (d : Dialect) (code : Block) :
    (List.Forall₂ Stmt.Foretells (Pass.keptStmts d code)
        (Pass.simplifyStructure d code).allStmts →
      Pass.simplifyStructure d (Pass.simplifyStructure d code) = Pass.simplifyStructure d code) ∧
    ∃ n ≤ code.weight, ∀ m ≥ n,
      (Pass.simplifyStructure d)^[m] code = (Pass.simplifyStructure d)^[n] code := by
  refine ⟨Pass.simplifyStructure_again, ?_⟩
  rcases Pass.iterate_simplifyStructure_settles d code with ⟨n, hn, hfix⟩
  refine ⟨n, hn, fun m hm => ?_⟩
  induction hm with
  | refl => rfl
  | step _ ih => rw [Function.iterate_succ_apply', ih, hfix]

/-- A loop in which control flow is removed, though no assignment is. -/
theorem simplifyStructure_settles_loop :
    ∃ code scopes, parseBlock .strictAssembly
        "{ let x for { let i } lt(i, 3) { i := add(i, 1) } { if 1 { x := i } if x { stop() } } }"
          = .ok code ∧
      analyze .strictAssembly code = .ok scopes ∧
      (Pass.simplifyStructure .strictAssembly code).print
        = "{ let x for { let i } lt(i, 3) { i := add(i, 1) } { x := i if x { stop() } } }" ∧
      Pass.simplifyStructure .strictAssembly (Pass.simplifyStructure .strictAssembly code)
        = Pass.simplifyStructure .strictAssembly code := by
  refine exists_of_accepted? (fun code =>
    decide ((Pass.simplifyStructure .strictAssembly code).print
      = "{ let x for { let i } lt(i, 3) { i := add(i, 1) } { x := i if x { stop() } } }") &&
    decide (List.Forall₂ Stmt.Foretells (Pass.keptStmts .strictAssembly code)
      (Pass.simplifyStructure .strictAssembly code).allStmts)) (by decide +kernel)
    fun code scopes _ _ htest => ?_
  rw [Bool.and_eq_true, decide_eq_true_eq, decide_eq_true_eq] at htest
  exact ⟨htest.1, (simplifyStructure_settles .strictAssembly code).1 htest.2⟩

/-- The condition of the inner `if` is known, since the assignment to `x` is never made. The
    loop is met with this assignment and left without it, yet the run that removes it has
    forgotten `x` by then. -/
theorem loop_is_simplified_later :
    ∃ code scopes, parseBlock .strictAssembly
        "{ let x := 0 for {} calldatasize() {} { if 0 { x := 1 } if x { sstore(0, 1) } } }"
          = .ok code ∧
      analyze .strictAssembly code = .ok scopes ∧ code.declared.Nodup ∧
      (Pass.simplifyStructure .strictAssembly code).print
        = "{ let x := 0 for { } calldatasize() { } { if x { sstore(0, 1) } } }" ∧
      (Pass.simplifyStructure .strictAssembly (Pass.simplifyStructure .strictAssembly code)).print
        = "{ let x := 0 for { } calldatasize() { } { } }" := by
  refine exists_of_accepted? (fun code => decide code.declared.Nodup &&
    decide ((Pass.simplifyStructure .strictAssembly code).print
      = "{ let x := 0 for { } calldatasize() { } { if x { sstore(0, 1) } } }") &&
    decide ((Pass.simplifyStructure .strictAssembly
      (Pass.simplifyStructure .strictAssembly code)).print
        = "{ let x := 0 for { } calldatasize() { } { } }")) (by decide +kernel)
    fun code scopes _ _ htest => ?_
  rw [Bool.and_eq_true, Bool.and_eq_true, decide_eq_true_eq, decide_eq_true_eq,
    decide_eq_true_eq] at htest
  exact ⟨htest.1.1, htest.1.2, htest.2⟩

end YulToolchain
