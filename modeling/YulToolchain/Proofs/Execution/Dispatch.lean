import YulToolchain.Proofs.Execution.Calls
import YulToolchain.Proofs.Rename.Occurrence
import YulToolchain.Proofs.Static.Resolved

/-!
# Calls Go Where Names Are Found

The function that a run picks for a call is the one that the analysis has found for its name.

The functions on the way at run time are those of all callers, but what is in sight in the
text is found on the way in the same place, since no name that is in sight is taken again
(`Located.enter`, `Located.callee`). This is carried along in two lists: the functions of the
blocks around a place, and those that the run has come by. The first is always within the
second, and it is told what the analysis tells.

Whether a name is taken does not depend on the way a run takes, so nothing is asked about the
places at which loops are left.

## Main definitions

* `LocatedScopes.Within`: Functions of one list are found in another, at the same place.
* `LocatedFunction.Placed`: What holds of a function where it is defined.
* `Located`: What holds at a place that a run has come to.

## Theorems

* `Located.enter`, `Located.after`, `Located.callee`: Going on inside a block, behind a
  statement and in the body of a function.
* `Block.retraced`, `FunctionDef.call_retraced`: The calls of a run.
* `calls_go_where_names_are_found`: Those of accepted programs.
-/

namespace YulToolchain

namespace LocatedScopes

/-- Every function found in one list of blocks is found in another, at the same place. -/
def Within (inner outer : LocatedScopes) : Prop :=
  ∀ name f, inner.find? name = some f → outer.find? name = some f

/-- The analysis finds the functions around a scope by their names. -/
def Tells (ss : Scopes) (scope : Nat) (ls : LocatedScopes) : Prop :=
  ∀ name f, ls.find? name = some f →
    ss.lookup scope name = some (f.target, f.function.symbol)

/-- A scope more on both sides. -/
theorem Within.cons {inner outer : LocatedScopes} (h : Within inner outer)
    (here : List LocatedFunction) : Within (here :: inner) (here :: outer) := by
  intro name f hf
  rw [find?] at hf ⊢
  cases hhere : here.reverse.find? (·.function.name == name) with
  | some g => simpa only [hhere] using hf
  | none =>
      simp only [hhere] at hf ⊢
      exact h name f hf

/-- The functions of further blocks do not hide those of the blocks around them. -/
theorem Within.append {outer : LocatedScopes} : ∀ {inner : LocatedScopes},
    (((functions (inner ++ outer)).flatten).map (·.name)).Nodup → Within outer (inner ++ outer)
  | [], _ => fun _ _ h => h
  | here :: inner, h => by
      -- The names of the inner scope are different from those around it.
      simp only [functions, List.cons_append, List.map_cons, List.flatten_cons, List.map_append,
        List.nodup_append] at h
      intro name f hf
      have hrest : find? name (inner ++ outer) = some f :=
        Within.append (by simp only [functions, List.map_append]; exact h.2.1) name f hf
      have hmem : name ∈ ((functions (inner ++ outer)).flatten).map (·.name) := by
        refine Sight.mem_functionNames (v := ⟨functions (inner ++ outer), [], []⟩)
          (f := f.function) ?_
        show FunctionScopes.find? name (functions (inner ++ outer)) = _
        rw [find?_functions, hrest]
        rfl
      rw [List.cons_append, find?]
      -- So the name is not found there.
      cases hhere : here.reverse.find? (·.function.name == name) with
      | none => exact hrest
      | some g =>
          have hname := List.find?_some hhere
          rw [beq_iff_eq] at hname
          have hg : name ∈ (here.map (·.function)).map (·.name) := by
            rw [List.map_map, ← hname]
            exact List.mem_map_of_mem (List.mem_reverse.mp (List.mem_of_find?_eq_some hhere))
          simp only [functions, List.map_append] at hmem
          exact absurd rfl (h.2.2 name hg name hmem)

end LocatedScopes

section Places

variable {d : Dialect} {ss : Scopes} {all : List LocatedFunction}

/-- What holds of a function where it is defined: its body is well formed there, and the
    analysis finds the functions around it. -/
structure LocatedFunction.Placed (d : Dialect) (ss : Scopes) (all : List LocatedFunction)
    (around : LocatedScopes) (f : LocatedFunction) : Prop where
  listed : f ∈ all
  inside : f.function.body.located (f.own + 1) ⊆ all
  tells : around.Tells ss f.own
  body : ∃ hidden, (⟨around.functions, [f.function.names], hidden⟩ : Sight).Distinct ∧
    f.function.body.Resolved d ss ⟨around.functions, [f.function.names], hidden⟩ f.own
      (f.own + 1) false

/-- All functions in sight are well formed where they are defined. -/
def LocatedScopes.Placed (d : Dialect) (ss : Scopes) (all : List LocatedFunction) :
    LocatedScopes → Prop
  | [] => True
  | here :: outer => (∀ f ∈ here, f.Placed d ss all (here :: outer)) ∧
      LocatedScopes.Placed d ss all outer

/-- What holds at a place that a run has come to, with the functions around it and those that
    the run has come by. -/
structure Located (d : Dialect) (ss : Scopes) (all : List LocatedFunction)
    (around way : LocatedScopes) (v : Sight) (scope : Nat) : Prop where
  distinct : v.Distinct
  functions : around.functions = v.functions
  placed : around.Placed d ss all
  tells : around.Tells ss scope
  within : around.Within way

variable {around way : LocatedScopes} {v : Sight} {scope : Nat}

theorem LocatedScopes.Placed.suffix {outer : LocatedScopes} : ∀ {inner : LocatedScopes},
    LocatedScopes.Placed d ss all (inner ++ outer) → outer.Placed d ss all
  | [], h => h
  | _ :: _, h => LocatedScopes.Placed.suffix h.2

/-- A function is found in one of the scopes. -/
theorem LocatedScopes.find?_split {name : String} {f : LocatedFunction} :
    ∀ {ls : LocatedScopes}, ls.find? name = some f →
      ∃ inner here outer, ls = inner ++ here :: outer ∧ f ∈ here
  | here :: outer, h => by
      rw [find?] at h
      cases hhere : here.reverse.find? (·.function.name == name) with
      | some g =>
          simp only [hhere, Option.some.injEq] at h
          refine ⟨[], here, outer, rfl, ?_⟩
          exact h ▸ List.mem_reverse.mp (List.mem_of_find?_eq_some hhere)
      | none =>
          simp only [hhere] at h
          rcases LocatedScopes.find?_split h with ⟨inner, here', outer', rfl, hmem⟩
          exact ⟨here :: inner, here', outer', rfl, hmem⟩

/-- Behind a resolved statement names are still distinct. -/
theorem Stmt.Resolved.distinct_after {next : Nat} {inLoop : Bool} {s : Stmt} (hv : v.Distinct)
    (h : s.Resolved d ss v scope next inLoop) : (v.after s).Distinct := by
  cases s with
  | decl _ vars _ =>
      rw [Stmt.Resolved] at h
      exact Sight.distinct_declare hv h.2.1
  | _ => exact hv

/-- The functions that well-formed statements define are well formed, with what is visible in
    front of their definitions hidden. -/
theorem Stmt.ResolvedSeq.located : ∀ {stmts : List Stmt} {next : Nat} {inLoop : Bool} {v : Sight},
    v.Distinct → Stmt.ResolvedSeq d ss v scope next inLoop stmts →
      ∀ f ∈ Stmt.locatedSeq scope next stmts,
        f.target = ⟨scope, f.function.name⟩ ∧ f ∈ Stmt.allLocatedSeq scope next stmts ∧
          f.function.body.located (f.own + 1) ⊆ Stmt.allLocatedSeq scope next stmts ∧
          (∀ x g, v.functions.find? x = some g → ss.lookup f.own x = ss.lookup scope x) ∧
          ∃ hidden, (⟨v.functions, [f.function.names], hidden⟩ : Sight).Distinct ∧
            f.function.body.Resolved d ss ⟨v.functions, [f.function.names], hidden⟩ f.own
              (f.own + 1) false
  | [], _, _, _, _, _, f, hf => absurd hf List.not_mem_nil
  | s :: rest, next, inLoop, v, hv, h, f, hf => by
      rw [Stmt.ResolvedSeq] at h
      rw [Stmt.locatedSeq] at hf
      rw [Stmt.allLocatedSeq]
      -- The function is defined by the first statement or by the others.
      rcases List.mem_append.mp hf with hf | hf
      · cases s with
        | func line name params returns body =>
            obtain rfl := List.mem_singleton.mp hf
            have hs := h.1
            rw [Stmt.Resolved] at hs
            refine ⟨rfl, List.mem_append_left _ (List.mem_append_left _ hf), ?_, hs.2.2.1,
              v.visible ++ v.hidden, Sight.distinct_enterFunction hv hs.1, hs.2.2.2.2⟩
            exact fun g hg => List.mem_append_left _ (List.mem_append_right _ hg)
        | _ => exact absurd hf List.not_mem_nil
      · rcases Stmt.ResolvedSeq.located (Stmt.Resolved.distinct_after hv h.1) h.2 f hf with
          ⟨htarget, hmem, hinside, htells, hbody⟩
        rw [Sight.functions_after] at htells hbody
        exact ⟨htarget, List.mem_append_right _ hmem,
          fun g hg => List.mem_append_right _ (hinside hg), htells, hbody⟩

/-- Inside a block its functions are around, and on the way, too. -/
theorem Located.enter {stmts : List Stmt} {id : Nat} {inLoop : Bool}
    (h : Located d ss all around way v scope)
    (hfree : v.Free d ((stmts.filterMap Stmt.function?).map (·.name)))
    (hinherits : ss.Inherits id scope v) (hopened : ss.Opened id stmts)
    (hstmts : Stmt.ResolvedSeq d ss (v.enter stmts) id (id + 1) inLoop stmts)
    (hall : Stmt.allLocatedSeq id (id + 1) stmts ⊆ all) :
    Located d ss all (Stmt.locatedSeq id (id + 1) stmts :: around)
      (Stmt.locatedSeq id (id + 1) stmts :: way) (v.enter stmts) id := by
  -- The functions of the block are in sight now.
  have hfunctions : LocatedScopes.functions (Stmt.locatedSeq id (id + 1) stmts :: around)
      = (v.enter stmts).functions := by
    rw [Sight.functions_enter, ← h.functions, ← Stmt.map_locatedSeq id stmts (id + 1)]
    rfl
  have hdistinct := Sight.distinct_enter h.distinct hfree
  have hlocated := Stmt.ResolvedSeq.located hdistinct hstmts
  -- Each name in sight leads to its declaration, from inside or from outside.
  have htells : LocatedScopes.Tells ss id (Stmt.locatedSeq id (id + 1) stmts :: around) := by
    intro name f hf
    rw [LocatedScopes.find?] at hf
    cases hhere : (Stmt.locatedSeq id (id + 1) stmts).reverse.find? (·.function.name == name) with
    | some g =>
        simp only [hhere, Option.some.injEq] at hf
        subst hf
        have hmem := List.mem_reverse.mp (List.mem_of_find?_eq_some hhere)
        have hname := List.find?_some hhere
        rw [beq_iff_eq] at hname
        have hfunction : g.function ∈ stmts.filterMap Stmt.function? :=
          Stmt.map_locatedSeq id stmts (id + 1) ▸ List.mem_map_of_mem hmem
        rw [(hlocated g hmem).1, ← hname]
        exact hopened.functions g.function hfunction
    -- From outside: entering the block hides no function.
    | none =>
        simp only [hhere] at hf
        rw [hinherits.functions name f.function ?_]
        · exact h.tells name f hf
        · rw [← h.functions, LocatedScopes.find?_functions, hf]
          rfl
  refine ⟨hdistinct, hfunctions, ⟨fun f hf => ?_, h.placed⟩, htells, h.within.cons _⟩
  -- The functions of the block stand where the scopes say.
  rcases hlocated f hf with ⟨-, hmem, hinside, hown, hbody⟩
  refine ⟨hall hmem, List.Subset.trans hinside hall, fun name g hg => ?_, hfunctions ▸ hbody⟩
  rw [hown name g.function ?_]
  · exact htells name g hg
  · rw [← hfunctions, LocatedScopes.find?_functions, hg]
    rfl

/-- Behind a statement the same functions are around. -/
theorem Located.after {s : Stmt} {next : Nat} {inLoop : Bool}
    (h : Located d ss all around way v scope) (hs : s.Resolved d ss v scope next inLoop) :
    Located d ss all around way (v.after s) scope :=
  ⟨hs.distinct_after h.distinct, by rw [Sight.functions_after, h.functions], h.placed, h.tells,
    h.within⟩

/-- Statements leave the functions where they are. -/
theorem Located.afterSeq : ∀ {stmts : List Stmt} {v : Sight} {next : Nat} {inLoop : Bool},
    Located d ss all around way v scope → Stmt.ResolvedSeq d ss v scope next inLoop stmts →
      Located d ss all around way (v.afterSeq stmts) scope
  | [], _, _, _, h, _ => h
  | s :: rest, v, _, _, h, hstmts => by
      rw [Stmt.ResolvedSeq] at hstmts
      show Located d ss all around way ((v.after s).afterSeq rest) scope
      exact Located.afterSeq (h.after hstmts.1) hstmts.2

/-- In the body of a function the functions around its definition are around, and they are
    found on the way as well. -/
theorem Located.callee {name : String} {f : LocatedFunction}
    (h : Located d ss all around way v scope) (hf : around.find? name = some f) :
    ∃ outer hidden, f ∈ all ∧ f.function.body.located (f.own + 1) ⊆ all ∧
      Located d ss all outer way ⟨outer.functions, [f.function.names], hidden⟩ f.own ∧
      f.function.body.Resolved d ss ⟨outer.functions, [f.function.names], hidden⟩ f.own
        (f.own + 1) false := by
  rcases LocatedScopes.find?_split hf with ⟨inner, here, outer, rfl, hmem⟩
  have hplaced := h.placed.suffix
  rcases hplaced.1 f hmem with ⟨hlisted, hinside, htells, hidden, hdistinct, hbody⟩
  have hnodup : ((LocatedScopes.functions (inner ++ here :: outer)).flatten.map (·.name)).Nodup :=
    h.functions ▸ h.distinct.functionNames_nodup
  exact ⟨here :: outer, hidden, hlisted, hinside, ⟨hdistinct, rfl, hplaced, htells,
    fun name g hg => h.within name g (LocatedScopes.Within.append hnodup name g hg)⟩, hbody⟩

end Places

section Code

variable {ss : Scopes} {all : List LocatedFunction}

/-- What holds of a call: its name is found by the analysis, and the function that is picked is
    the one that the declaration belongs to. -/
structure ExecutedCall.Found (ss : Scopes) (all : List LocatedFunction) (call : ExecutedCall) :
    Prop where
  resolved : ss.lookup call.site call.name = some (call.callee.target, call.callee.function.symbol)
  listed : call.callee ∈ all

/-- Calls of functions that are around do the same with notes and without. -/
def TracedCaller.Retraces (d : Dialect) (ss : Scopes) (all : List LocatedFunction)
    (tcall : TracedCaller) (call : Caller) : Prop :=
  ∀ (around way : LocatedScopes) (v : Sight) (scope : Nat) (name : String) (f : LocatedFunction)
    (args : List Word), Located d ss all around way v scope → around.find? name = some f →
      YulToolchain.Retraces (ExecutedCall.Found ss all) (tcall way f args)
        (call way.functions f.function args)

variable {c : RunContext} {tcall : TracedCaller} {call : Caller}

mutual

/-- Expressions are retraced, and what they call is found. -/
theorem Expr.retraced (hcall : tcall.Retraces c.dialect ss all call) {around way : LocatedScopes}
    {v : Sight} {scope : Nat} (h : Located c.dialect ss all around way v scope) :
    ∀ {e : Expr} {n : Nat}, e.Yields c.dialect v n →
      Retraces (ExecutedCall.Found ss all) (e.traced c tcall way scope) (e.run c call way.functions)
  | .literal l, _, _ => by
      rw [Expr.traced, Expr.run]
      exact .quietly _
  | .ident line name, _, _ => by
      rw [Expr.traced, Expr.run]
      exact .quietly _
  | .instr line op args, _, he => by
      -- By recursion on the arguments.
      rw [Expr.Yields] at he
      rw [Expr.traced, Expr.run]
      exact (Expr.retracedArgs hcall h he.2.2.2).bind fun values => .quietly _
  | .call line name args, _, he => by
      simp only [Expr.Yields] at he
      rw [Expr.traced, Expr.run]
      rcases hb : c.dialect.builtin? name with _ | b
      · simp only [hb] at he ⊢
        rcases he with ⟨f, hf, -, -, hargs⟩
        -- What is in sight in the text is found on the way.
        rw [← h.functions, LocatedScopes.find?_functions] at hf
        rcases Option.map_eq_some_iff.mp hf with ⟨g, hg, rfl⟩
        have hway := h.within name g hg
        rcases h.callee hg with ⟨-, -, hlisted, -, -, -⟩
        simp only [LocatedScopes.find?_functions, hway, Option.map_some]
        refine Retraces.noted ⟨h.tells name g hg, hlisted⟩ ?_
        exact (Expr.retracedArgs hcall h hargs).bind fun values =>
          .ite (hcall _ _ _ _ _ _ values h hg) (.quietly _)
      -- Builtins are no calls.
      · simp only [hb] at he ⊢
        have hproper := Dialect.builtin?_cases hb
        -- Only queries and effects on the stack take texts.
        by_cases hlit : b.literalArguments = true
        · rcases hproper with ⟨b', hproper, rfl | rfl⟩
          · rcases hproper with ⟨op, _, rfl⟩ | rfl | rfl | rfl
            · exact absurd hlit Bool.noConfusion
            · exact .quietly _
            · exact .quietly _
            · exact absurd hlit Bool.noConfusion
          · exact .pure _
        · rw [if_neg hlit] at he
          have hargs := Expr.retracedArgs hcall h he.2.2
          rcases b.code with op | _ | _ | _ | _
          · exact hargs.bind fun values => .quietly _
          · exact .quietly _
          · exact .quietly _
          · exact hargs.bind fun values => .quietly _
          · exact .pure _

/-- Arguments are retraced from the last to the first. -/
theorem Expr.retracedArgs (hcall : tcall.Retraces c.dialect ss all call)
    {around way : LocatedScopes} {v : Sight} {scope : Nat}
    (h : Located c.dialect ss all around way v scope) :
    ∀ {es : List Expr}, Expr.YieldOnes c.dialect v es →
      Retraces (ExecutedCall.Found ss all) (Expr.tracedArgs c tcall way scope es)
        (Expr.runArgs c call way.functions es)
  | [], _ => by
      rw [Expr.tracedArgs, Expr.runArgs]
      exact .pure []
  | e :: rest, hes => by
      rw [Expr.YieldOnes] at hes
      rw [Expr.tracedArgs, Expr.runArgs]
      exact (Expr.retracedArgs hcall h hes.2).bind fun values =>
        (Expr.retraced hcall h hes.1).bind fun own =>
          (Retraces.quietly _).bind fun value => .pure _

end

/-- A single value is retraced. -/
theorem Expr.retracedSingle (hcall : tcall.Retraces c.dialect ss all call)
    {around way : LocatedScopes} {v : Sight} {scope : Nat}
    (h : Located c.dialect ss all around way v scope) {e : Expr} {n : Nat}
    (he : e.Yields c.dialect v n) :
    Retraces (ExecutedCall.Found ss all) (e.tracedSingle c tcall way scope)
      (e.runSingle c call way.functions) :=
  (Expr.retraced hcall h he).bind fun _ => .quietly _

mutual

/-- Running a block with notes does the same as without, and its calls are found. -/
theorem Block.retraced (hcall : tcall.Retraces c.dialect ss all call) : ∀ {b : Block}
    {around way : LocatedScopes} {v : Sight} {scope id : Nat} {inLoop : Bool},
    Located c.dialect ss all around way v scope → b.Resolved c.dialect ss v scope id inLoop →
    b.located id ⊆ all →
      Retraces (ExecutedCall.Found ss all) (b.traced c tcall way id) (b.run c call way.functions)
  | ⟨line, stmts⟩, around, way, v, scope, id, inLoop, h, hb, hall => by
      rw [Block.Resolved] at hb
      rw [Block.located] at hall
      have hin := h.enter hb.1 hb.2.1 hb.2.2.1 hb.2.2.2 hall
      rw [Block.traced, Block.run, Block.functions, ← Stmt.map_locatedSeq id stmts (id + 1)]
      exact (Stmt.retracedSeq hcall hin hb.2.2.2 hall).inScope

/-- Statements are retraced in a row, up to a jump. -/
theorem Stmt.retracedSeq (hcall : tcall.Retraces c.dialect ss all call) : ∀ {stmts : List Stmt}
    {around way : LocatedScopes} {v : Sight} {scope next : Nat} {inLoop : Bool},
    Located c.dialect ss all around way v scope →
    Stmt.ResolvedSeq c.dialect ss v scope next inLoop stmts →
    Stmt.allLocatedSeq scope next stmts ⊆ all →
      Retraces (ExecutedCall.Found ss all) (Stmt.tracedSeq c tcall way scope next stmts)
        (Stmt.runSeq c call way.functions stmts)
  | [], _, _, _, _, _, _, _, _, _ => by
      rw [Stmt.tracedSeq, Stmt.runSeq]
      exact .pure _
  | s :: rest, around, way, v, scope, next, inLoop, h, hs, hall => by
      rw [Stmt.ResolvedSeq] at hs
      rw [Stmt.allLocatedSeq, List.append_assoc] at hall
      -- The functions inside the statement are among all.
      have hinner : s.innerLocated next ⊆ all := fun f hf =>
        hall (List.mem_append_right _ (List.mem_append_left _ hf))
      have hrest : Stmt.allLocatedSeq scope (next + s.scopeCount) rest ⊆ all := fun f hf =>
        hall (List.mem_append_right _ (List.mem_append_right _ hf))
      rw [Stmt.tracedSeq, Stmt.runSeq]
      refine (Stmt.retraced hcall h hs.1 hinner).bind fun flow => ?_
      cases flow with
      | next => exact Stmt.retracedSeq hcall (h.after hs.1) hs.2 hrest
      | brk => exact .pure _
      | cont => exact .pure _

/-- A statement is retraced, by recursion. -/
theorem Stmt.retraced (hcall : tcall.Retraces c.dialect ss all call) : ∀ {s : Stmt}
    {around way : LocatedScopes} {v : Sight} {scope next : Nat} {inLoop : Bool},
    Located c.dialect ss all around way v scope → s.Resolved c.dialect ss v scope next inLoop →
    s.innerLocated next ⊆ all →
      Retraces (ExecutedCall.Found ss all) (s.traced c tcall way scope next)
        (s.run c call way.functions)
  | .expr line e, _, _, _, _, _, _, h, hs, _ => by
      rw [Stmt.Resolved] at hs
      rw [Stmt.traced, Stmt.run]
      exact (Retraces.quietly _).bind fun _ => (Expr.retraced hcall h hs).bind fun _ =>
        .ite (.pure _) (.quietly _)
  | .assign line targets value, _, _, _, _, _, _, h, hs, _ => by
      rw [Stmt.Resolved] at hs
      rw [Stmt.traced, Stmt.run]
      exact (Retraces.quietly _).bind fun _ => (Expr.retraced hcall h hs.1).bind fun _ =>
        .ite ((Retraces.quietly _).bind fun _ => .pure _) (.quietly _)
  | .decl line vars value, _, _, _, _, _, _, h, hs, _ => by
      rw [Stmt.Resolved] at hs
      rw [Stmt.traced, Stmt.run]
      -- What comes behind the value, or behind the zeros.
      have hrest : ∀ values : List Word, Retraces (ExecutedCall.Found ss all)
          (if values.length = vars.length then do
            Traced.quietly
              (Run.modifyEnv (Environment.declareAll ((vars.map (·.name)).zip values)))
            return .next
          else Traced.quietly (Run.fault (.declarationCount line)))
          (if values.length = vars.length then do
            Run.modifyEnv (Environment.declareAll ((vars.map (·.name)).zip values))
            return Flow.next
          else Run.fault (.declarationCount line)) := fun values =>
        .ite ((Retraces.quietly _).bind fun _ => .pure _) (.quietly _)
      refine (Retraces.quietly _).bind fun _ => ?_
      cases value with
      | none => exact (Retraces.pure _).bind hrest
      | some e => exact (Expr.retraced hcall h (hs.1 e rfl)).bind hrest
  | .func line name params returns body, _, _, _, _, _, _, _, _, _ => by
      rw [Stmt.traced, Stmt.run]
      exact (Retraces.quietly _).bind fun _ => .pure _
  | .cond line test body, _, _, _, _, _, _, h, hs, hall => by
      rw [Stmt.Resolved] at hs
      rw [Stmt.traced, Stmt.run]
      exact (Retraces.quietly _).bind fun _ => (Expr.retracedSingle hcall h hs.1).bind fun _ =>
        .ite (.pure _) (Block.retraced hcall h hs.2 hall)
  | .switch line subject cases, _, _, _, _, _, _, h, hs, hall => by
      rw [Stmt.Resolved] at hs
      rw [Stmt.traced, Stmt.run]
      exact (Retraces.quietly _).bind fun _ => (Expr.retracedSingle hcall h hs.1).bind fun value =>
        Case.retracedSeq hcall value h hs.2 hall
  | .loop line ⟨preLine, pre⟩ test post body, around, way, v, scope, next, _, h, hs, hall => by
      rw [Stmt.Resolved] at hs
      rcases hs with ⟨hfree, hinherits, hopened, hpre, htest, hbody, hpost⟩
      rw [Stmt.innerLocated] at hall
      -- The functions of the three parts are among all.
      have hallPre : Stmt.allLocatedSeq next (next + 1) pre ⊆ all := fun f hf =>
        hall (List.mem_append_left _ (List.mem_append_left _ hf))
      have hallBody : body.located (next + 1 + Stmt.scopeCountSeq pre) ⊆ all := fun f hf =>
        hall (List.mem_append_left _ (List.mem_append_right _ hf))
      have hallPost : post.located (next + 1 + Stmt.scopeCountSeq pre + body.scopeCount) ⊆ all :=
        fun f hf => hall (List.mem_append_right _ hf)
      -- The init block opens the scope in which the other parts stand.
      have hin := h.enter hfree hinherits hopened hpre hallPre
      have hout := hin.afterSeq hpre
      rw [Stmt.traced, Stmt.run, Block.functions, ← Stmt.map_locatedSeq next pre (next + 1)]
      refine (Retraces.quietly _).bind fun _ => Retraces.bind ?_ fun _ => .pure _
      refine Retraces.inScope ((Stmt.retracedSeq hcall hin hpre hallPre).bind fun _ => ?_)
      exact .rounds (.round (Expr.retracedSingle hcall hout htest)
        (Block.retraced hcall hout hbody hallBody) (Block.retraced hcall hout hpost hallPost)) _
  | .brk line, _, _, _, _, _, _, _, _, _ => by
      rw [Stmt.traced, Stmt.run]
      exact (Retraces.quietly _).bind fun _ => .pure _
  | .cont line, _, _, _, _, _, _, _, _, _ => by
      rw [Stmt.traced, Stmt.run]
      exact (Retraces.quietly _).bind fun _ => .pure _
  | .block b, _, _, _, _, _, _, h, hs, hall => by
      rw [Stmt.Resolved] at hs
      rw [Stmt.traced, Stmt.run]
      exact (Retraces.quietly _).bind fun _ => Block.retraced hcall h hs hall
  | .label line name, _, _, _, _, _, _, _, _, _ => by
      rw [Stmt.traced, Stmt.run]
      exact (Retraces.quietly _).bind fun _ => .quietly _
  | .stackAssign line target, _, _, _, _, _, _, _, _, _ => by
      rw [Stmt.traced, Stmt.run]
      exact (Retraces.quietly _).bind fun _ => .quietly _

/-- The case that is run is retraced. -/
theorem Case.retracedSeq (hcall : tcall.Retraces c.dialect ss all call) (value : Word) :
    ∀ {cases : List Case} {around way : LocatedScopes} {v : Sight} {scope next : Nat}
      {inLoop : Bool} {seen : List Word}, Located c.dialect ss all around way v scope →
    Case.ResolvedSeq c.dialect ss v scope next inLoop seen cases →
    Case.locatedSeq next cases ⊆ all →
      Retraces (ExecutedCall.Found ss all) (Case.tracedSeq c tcall way next value cases)
        (Case.runSeq c call way.functions value cases)
  | [], _, _, _, _, _, _, _, _, _, _ => by
      rw [Case.tracedSeq, Case.runSeq]
      exact .pure _
  | ⟨_, none, body⟩ :: rest, _, _, _, _, _, _, _, h, hs, hall => by
      rw [Case.ResolvedSeq] at hs
      rw [Case.locatedSeq] at hall
      rw [Case.tracedSeq, Case.runSeq]
      exact Block.retraced hcall h hs.1 fun f hf => hall (List.mem_append_left _ hf)
  | ⟨_, some l, body⟩ :: rest, _, _, _, _, _, _, _, h, hs, hall => by
      rw [Case.ResolvedSeq] at hs
      rcases hs with ⟨w, -, -, hbody, hrest⟩
      rw [Case.locatedSeq] at hall
      rw [Case.tracedSeq, Case.runSeq]
      exact (Retraces.quietly _).bind fun _ =>
        .ite (Block.retraced hcall h hbody fun f hf => hall (List.mem_append_left _ hf))
          (Case.retracedSeq hcall value h hrest fun f hf => hall (List.mem_append_right _ hf))

end

/-- Calls, however deep they go. -/
theorem FunctionDef.call_retraced (depth : Nat) :
    (FunctionDef.tracedCall c depth).Retraces c.dialect ss all (FunctionDef.call c depth) := by
  induction depth with
  | zero => exact fun _ _ _ _ _ _ _ _ _ => .quietly _
  | succ depth ih =>
      intro around way v scope name f args h hf
      rcases h.callee hf with ⟨outer, hidden, -, hinside, hlocated, hbody⟩
      rw [FunctionDef.tracedCall, FunctionDef.call]
      exact (Retraces.quietly _).bind fun _ =>
        (Block.retraced ih hlocated hbody hinside).bind fun _ =>
          (Retraces.quietly _).bind fun _ => .quietly _

end Code

/-- In every run of a program that is read and accepted, every call of a function goes to the
    function to which its name belongs at that place: the analysis finds the declaration of the
    name, and the function that is picked from all those on the way is the one function of the
    program with this declaration. Noting the calls has not changed the run. -/
theorem calls_go_where_names_are_found {d : Dialect} (hd : d.flavour ≠ .loose) {source : String}
    {code : Block} {ss : Scopes} (hread : Reads d source code) (haccept : analyze d code = .ok ss)
    (limits : Limits) (calldata : List UInt8) :
    (traceCalls d limits calldata code).1 = interpret d limits calldata code ∧
      ∀ call ∈ (traceCalls d limits calldata code).2,
        ss.lookup call.site call.name = some (call.callee.target, call.callee.function.symbol) ∧
          call.callee ∈ code.located 0 ∧
          ∀ f ∈ code.located 0, f.target = call.callee.target → f = call.callee := by
  have hresolved := analyze_resolved hd (hread.readable hd) haccept
  -- At the start nothing is in sight.
  have hplace : Located d ss (code.located 0) [] [] .empty 0 :=
    ⟨List.nodup_nil, rfl, trivial,
      fun _ _ h => by simp only [LocatedScopes.find?, reduceCtorEq] at h,
      fun _ _ h => h⟩
  have hretraces := Block.retraced (c := ⟨d, limits, true⟩)
    (FunctionDef.call_retraced limits.maxSteps) hplace hresolved (List.Subset.refl _)
  -- No two functions have the same place.
  have hunique : ((code.located 0).map (·.target)).Nodup :=
    (Block.located_declared code 0).nodup (analyze_declarations_nodup haccept)
  -- What a call notes is what the theorem says of it.
  have hfound : ∀ call : ExecutedCall, call.Found ss (code.located 0) →
      ss.lookup call.site call.name = some (call.callee.target, call.callee.function.symbol) ∧
        call.callee ∈ code.located 0 ∧
        ∀ f ∈ code.located 0, f.target = call.callee.target → f = call.callee :=
    fun call h => ⟨h.resolved, h.listed, fun f hf =>
      List.inj_on_of_nodup_map hunique hf h.listed⟩
  rcases hretraces ⟨.initial calldata, 0, []⟩ [] with ⟨calls, hcalls, heq⟩
  rw [traceCalls, interpret]
  simp only [heq, List.nil_append]
  rw [show LocatedScopes.functions [] = [] from rfl]
  rcases code.run ⟨d, limits, true⟩ (FunctionDef.call ⟨d, limits, true⟩ limits.maxSteps) []
    ⟨.initial calldata, 0, []⟩ with ⟨flow, s⟩ | ⟨halt, s⟩
  · exact ⟨rfl, fun call hcall => hfound call (hcalls call hcall)⟩
  · rcases halt with t | why
    · exact ⟨rfl, fun call hcall => hfound call (hcalls call hcall)⟩
    · exact ⟨rfl, fun call hcall => hfound call (hcalls call hcall)⟩

/-- A function that calls itself through a function inside of it, which is on the way twice. -/
theorem calls_go_where_names_are_found_recursive :
    ∃ code ss, parseBlock .strictAssembly
        "{ function f(n) -> r { function g(m) -> s { s := f(sub(m, 1)) } if n { r := g(n) } }
          sstore(0, f(2)) }"
          = .ok code ∧
      analyze .strictAssembly code = .ok ss ∧
      (traceCalls .strictAssembly .standard [] code).2.map (·.callee.target)
        = [⟨0, "f"⟩, ⟨2, "g"⟩, ⟨0, "f"⟩, ⟨2, "g"⟩, ⟨0, "f"⟩] ∧
      ∀ call ∈ (traceCalls .strictAssembly .standard [] code).2,
        ss.lookup call.site call.name = some (call.callee.target, call.callee.function.symbol) := by
  refine exists_of_accepted? (fun code =>
    (traceCalls .strictAssembly .standard [] code).2.map (·.callee.target)
      = [⟨0, "f"⟩, ⟨2, "g"⟩, ⟨0, "f"⟩, ⟨2, "g"⟩, ⟨0, "f"⟩]) (by decide +kernel)
    fun code ss hread haccept htest => ?_
  have hfound := calls_go_where_names_are_found (by decide) (.inl hread) haccept .standard []
  exact ⟨of_decide_eq_true htest, fun call hcall => (hfound.2 call hcall).1⟩

end YulToolchain
