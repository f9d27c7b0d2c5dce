import YulToolchain.Dialect
import YulToolchain.Execution.Environment
import YulToolchain.Names.Occurrences
import Mathlib.Data.List.Nodup

/-!
# Names in Sight

Well-formed code, described by what is in sight at each place.

The analysis keeps the scopes of a whole program in one numbered list, because
later stages ask about places by number. What a program does when it runs
depends on less: at any place there are functions that can be called, variables
that can be read, and names that can not be declared because they are taken. A
`Sight` holds just that. It is the middle ground between the analysis, which
looks at all scopes at once, and the interpreter, which only ever has the scopes
of the function it executes.

The functions in sight are kept as definitions and not as signatures, block by
block. That is the form in which the interpreter keeps them, and it makes
"the function that a call means" a plain lookup.

`Fits` says that code is well formed at a place. It asks a little more than the
analysis: that no loop is left from its own initialisation, that the default case
comes last, and that literals and instructions are such as can be read. A
program that was read and analysed has all of these but the first.

## Main definitions

* `Sight`: The functions, variables and taken names at a place.
* `Sight.Free`: Names that can be declared at a place.
* `Expr.Yields`: An expression is well formed and has a number of values.
* `Block.Fits`, `Stmt.Fits`, `Stmt.FitsSeq`, `Case.FitsSeq`: Code is well formed
  at a place.
* `FunctionDef.Fits`: A function is well formed where its definition stands.
* `Sight.Distinct`: No name is taken twice.
* `Stmt.declaresVars`, `Stmt.declaredSeq`: The variables that statements declare
  in the scope they stand in.

## Theorems

* `Sight.distinct_enter`, `Sight.distinct_declare`, `Sight.distinct_enterFunction`:
  Declaring free names keeps names distinct.
* `Stmt.FitsSeq.distinct_afterSeq`: Names stay distinct along well-formed code.
* `Stmt.FitsSeq.function_fits`: The functions of a well-formed block are well formed.
* `FunctionScopes.Fit.enter`: Entering a well-formed block keeps all functions in
  sight well formed.
* `Stmt.Fits.loop_parts`: The parts of a well-formed loop.
* `FunctionScopes.find?_split`: Where a function in sight comes from.
-/

namespace YulToolchain

/-- What is in sight at a place. -/
structure Sight where
  /-- The functions of the blocks around the place, the innermost block first. -/
  functions : FunctionScopes
  /-- The variables of the function around the place that are declared already,
      scope by scope, the innermost first. -/
  vars : List (List String)
  /-- The variables outside of that function, which are taken but not seen. -/
  hidden : List String

namespace Sight

/-- Nothing is in sight. -/
def empty : Sight := ⟨[], [], []⟩

/-- The names of the functions in sight. -/
def functionNames (v : Sight) : List String := v.functions.flatten.map (·.name)

/-- The variables in sight. -/
def visible (v : Sight) : List String := v.vars.flatten

/-- The names that are taken. -/
def taken (v : Sight) : List String := v.functionNames ++ v.visible ++ v.hidden

/-- The sight at the start of a block. -/
def enter (stmts : List Stmt) (v : Sight) : Sight :=
  ⟨stmts.filterMap Stmt.function? :: v.functions, [] :: v.vars, v.hidden⟩

/-- The sight at the start of a function with some parameters and return
    variables. -/
def enterFunction (names : List String) (v : Sight) : Sight :=
  ⟨v.functions, [names], v.visible ++ v.hidden⟩

/-- The sight after variables were declared. -/
def declare (names : List String) (v : Sight) : Sight :=
  match v.vars with
  | [] => v
  | scope :: outer => { v with vars := (scope ++ names) :: outer }

/-- The sight behind a statement. -/
def after (v : Sight) : Stmt → Sight
  | .decl _ vars _ => v.declare (vars.map (·.name))
  | _ => v

/-- The sight behind some statements. -/
def afterSeq (v : Sight) (stmts : List Stmt) : Sight := stmts.foldl after v

/-- Whether names can be declared: they are neither reserved nor empty nor
    taken, and no two of them are the same. -/
def Free (d : Dialect) (v : Sight) (names : List String) : Prop :=
  names.Nodup ∧ ∀ x ∈ names, d.reserved x = false ∧ x ≠ "" ∧ x ∉ v.taken

/-- Whether no name is taken twice. -/
def Distinct (v : Sight) : Prop := v.taken.Nodup

end Sight

/-- The names of the parameters and of the return variables of a function. -/
def FunctionDef.names (f : FunctionDef) : List String := (f.params ++ f.returns).map (·.name)

/-- Whether an expression is a string literal whose escapes can be resolved. -/
def Expr.Textual : Expr → Prop
  | .literal l => l.kind = .string ∧ ∃ bytes, l.stringBytes = .ok bytes
  | _ => False

mutual

/-- An expression is well formed at a place and has a number of values. -/
def Expr.Yields (d : Dialect) (v : Sight) : Expr → Nat → Prop
  | .literal l, n => (∃ w, l.value = .ok w) ∧ n = 1
  | .ident _ x, n => x ∈ v.visible ∧ n = 1
  | .instr _ op args, n =>
    op.isStackManipulation = false ∧ args.length = op.args ∧ n = op.returns ∧
      Expr.YieldOnes d v args
  | .call _ name args, n => match d.builtin? name with
    | some b =>
      args.length = b.params ∧ n = b.returns ∧
        if b.literalArguments then ∀ e ∈ args, e.Textual else Expr.YieldOnes d v args
    | none => ∃ f, v.functions.find? name = some f ∧ args.length = f.params.length ∧
        n = f.returns.length ∧ Expr.YieldOnes d v args

/-- Some expressions are well formed at a place and have one value each. -/
def Expr.YieldOnes (d : Dialect) (v : Sight) : List Expr → Prop
  | [] => True
  | e :: rest => e.Yields d v 1 ∧ Expr.YieldOnes d v rest

end

mutual

/-- A block is well formed at a place. -/
def Block.Fits (d : Dialect) (v : Sight) (inLoop : Bool) : Block → Prop
  | ⟨_, stmts⟩ =>
    v.Free d ((stmts.filterMap Stmt.function?).map (·.name)) ∧
      Stmt.FitsSeq d (v.enter stmts) inLoop stmts

/-- Statements are well formed one after the other. -/
def Stmt.FitsSeq (d : Dialect) (v : Sight) (inLoop : Bool) : List Stmt → Prop
  | [] => True
  | s :: rest => s.Fits d v inLoop ∧ Stmt.FitsSeq d (v.after s) inLoop rest

/-- A statement is well formed at a place. -/
def Stmt.Fits (d : Dialect) (v : Sight) (inLoop : Bool) : Stmt → Prop
  | .expr _ e => e.Yields d v 0
  | .assign _ targets value =>
    value.Yields d v targets.length ∧ ∀ t ∈ targets, t.name ∈ v.visible
  | .decl _ vars value =>
    (∀ e, value = some e → e.Yields d v vars.length) ∧ v.Free d (vars.map (·.name))
  | .func _ _ params returns body =>
    v.Free d ((params ++ returns).map (·.name)) ∧
      body.Fits d (v.enterFunction ((params ++ returns).map (·.name))) false
  | .cond _ test body => test.Yields d v 1 ∧ body.Fits d v inLoop
  | .switch _ subject cases => subject.Yields d v 1 ∧ Case.FitsSeq d v inLoop [] cases
  | .loop _ ⟨_, pre⟩ test post body =>
    v.Free d ((pre.filterMap Stmt.function?).map (·.name)) ∧
      Stmt.FitsSeq d (v.enter pre) false pre ∧
      test.Yields d ((v.enter pre).afterSeq pre) 1 ∧
      body.Fits d ((v.enter pre).afterSeq pre) true ∧
      post.Fits d ((v.enter pre).afterSeq pre) false
  | .brk _ => inLoop = true
  | .cont _ => inLoop = true
  | .block b => b.Fits d v inLoop
  | .label _ _ => False
  | .stackAssign _ _ => False

/-- The cases of a switch are well formed, given the values of those before. The
    default comes last. -/
def Case.FitsSeq (d : Dialect) (v : Sight) (inLoop : Bool) (seen : List Word) :
    List Case → Prop
  | [] => True
  | ⟨_, none, body⟩ :: rest => body.Fits d v inLoop ∧ rest = []
  | ⟨_, some l, body⟩ :: rest =>
    ∃ w, l.value = .ok w ∧ w ∉ seen ∧ body.Fits d v inLoop ∧
      Case.FitsSeq d v inLoop (seen ++ [w]) rest

end

/-- A function is well formed, given the functions in sight where its definition
    stands. -/
def FunctionDef.Fits (d : Dialect) (functions : FunctionScopes) (f : FunctionDef) : Prop :=
  ∃ hidden, (⟨functions, [f.names], hidden⟩ : Sight).Distinct ∧
    f.body.Fits d ⟨functions, [f.names], hidden⟩ false

/-- All functions in sight are well formed where their definitions stand. -/
def FunctionScopes.Fit (d : Dialect) : FunctionScopes → Prop
  | [] => True
  | fs :: outer => (∀ f ∈ fs, f.Fits d (fs :: outer)) ∧ FunctionScopes.Fit d outer

/-- The variables that a statement declares in the scope it stands in. -/
def Stmt.declaresVars : Stmt → List String
  | .decl _ vars _ => vars.map (·.name)
  | _ => []

/-- The variables that some statements declare in the scope they stand in. -/
def Stmt.declaredSeq (stmts : List Stmt) : List String := stmts.flatMap Stmt.declaresVars

/-- A statement of a sequence is one of its own or inside of one. -/
theorem Stmt.mem_allStmtsSeq {t : Stmt} : ∀ {stmts : List Stmt},
    t ∈ Stmt.allStmtsSeq stmts ↔ ∃ s ∈ stmts, t = s ∨ t ∈ s.allInner
  | [] => by simp only [Stmt.allStmtsSeq, List.not_mem_nil, false_and, exists_const]
  | s :: rest => by
      rw [Stmt.allStmtsSeq, List.mem_cons, List.mem_append, Stmt.mem_allStmtsSeq, ← or_assoc,
        List.exists_mem_cons_iff]

@[simp]
theorem Stmt.declaredSeq_cons (s : Stmt) (rest : List Stmt) :
    Stmt.declaredSeq (s :: rest) = s.declaresVars ++ Stmt.declaredSeq rest := List.flatMap_cons

namespace Sight

theorem mem_taken {v : Sight} {x : String} :
    x ∈ v.taken ↔ x ∈ v.functionNames ∨ x ∈ v.visible ∨ x ∈ v.hidden := by
  simp only [taken, List.mem_append, or_assoc]

@[simp]
theorem functions_enter (stmts : List Stmt) (v : Sight) :
    (v.enter stmts).functions = stmts.filterMap Stmt.function? :: v.functions := rfl

@[simp]
theorem vars_enter (stmts : List Stmt) (v : Sight) : (v.enter stmts).vars = [] :: v.vars := rfl

@[simp]
theorem visible_enter (stmts : List Stmt) (v : Sight) : (v.enter stmts).visible = v.visible := rfl

@[simp]
theorem functions_declare (names : List String) (v : Sight) :
    (v.declare names).functions = v.functions := by
  unfold declare
  split <;> rfl

@[simp]
theorem hidden_declare (names : List String) (v : Sight) :
    (v.declare names).hidden = v.hidden := by
  unfold declare
  split <;> rfl

@[simp]
theorem functions_after (v : Sight) (s : Stmt) : (v.after s).functions = v.functions := by
  unfold after
  split <;> simp only [functions_declare]

/-- No sequence changes the functions in sight. -/
@[simp]
theorem functions_afterSeq (v : Sight) (stmts : List Stmt) :
    (v.afterSeq stmts).functions = v.functions := by
  induction stmts generalizing v with
  | nil => rfl
  | cons s rest ih => exact (ih (v.after s)).trans (functions_after v s)

@[simp]
theorem afterSeq_nil (v : Sight) : v.afterSeq [] = v := rfl

@[simp]
theorem afterSeq_cons (v : Sight) (s : Stmt) (rest : List Stmt) :
    v.afterSeq (s :: rest) = (v.after s).afterSeq rest := rfl

theorem afterSeq_append (v : Sight) (stmts rest : List Stmt) :
    v.afterSeq (stmts ++ rest) = (v.afterSeq stmts).afterSeq rest := List.foldl_append

/-- A visible variable was visible before or is new. -/
theorem mem_visible_declare {v : Sight} {names : List String} {x : String}
    (h : x ∈ (v.declare names).visible) : x ∈ v.visible ∨ x ∈ names := by
  unfold declare visible at *
  split at h
  · exact Or.inl h
  · rename_i scope outer hv
    rw [hv]
    simp only [List.flatten_cons, List.mem_append] at h ⊢
    tauto

/-- Declaring hides no variable. -/
theorem visible_subset_declare (v : Sight) (names : List String) :
    v.visible ⊆ (v.declare names).visible := by
  intro x hx
  unfold declare visible at *
  split
  · exact hx
  · rename_i scope outer hv
    rw [hv] at hx
    simp only [List.flatten_cons, List.mem_append] at hx ⊢
    tauto

/-- Passing a statement hides no variable. -/
theorem visible_subset_after (v : Sight) (s : Stmt) : v.visible ⊆ (v.after s).visible := by
  unfold after
  split
  · exact visible_subset_declare v _
  · exact List.Subset.refl _

/-- Passing a sequence hides no variable. -/
theorem visible_subset_afterSeq (v : Sight) (stmts : List Stmt) :
    v.visible ⊆ (v.afterSeq stmts).visible := by
  induction stmts generalizing v with
  | nil => exact List.Subset.refl _
  | cons s rest ih => exact List.Subset.trans (visible_subset_after v s) (ih (v.after s))

theorem free_nil (d : Dialect) (v : Sight) : v.Free d [] :=
  ⟨List.nodup_nil, fun _ h => absurd h (List.not_mem_nil)⟩

/-- Functions with free names stay apart from all names in sight. -/
theorem distinct_enter {d : Dialect} {v : Sight} {stmts : List Stmt} (hv : v.Distinct)
    (h : v.Free d ((stmts.filterMap Stmt.function?).map (·.name))) :
    (v.enter stmts).Distinct := by
  have htaken : (v.enter stmts).taken
      = (stmts.filterMap Stmt.function?).map (·.name) ++ v.taken := by
    simp only [taken, enter, functionNames, visible, List.flatten_cons, List.map_append,
      List.append_assoc, List.nil_append]
  unfold Distinct
  rw [htaken]
  refine List.Nodup.append h.1 hv (fun x hx hx' => ?_)
  exact (h.2 x hx).2.2 hx'

/-- Variables with free names stay apart from all names in sight. -/
theorem distinct_declare {d : Dialect} {v : Sight} {names : List String} (hv : v.Distinct)
    (h : v.Free d names) : (v.declare names).Distinct := by
  rcases hvars : v.vars with _ | ⟨scope, outer⟩
  · simpa only [declare, hvars] using hv
  · have hperm : (v.declare names).taken.Perm (names ++ v.taken) := by
      rw [List.perm_iff_count]
      intro a
      simp only [taken, declare, hvars, functionNames, visible, List.flatten_cons,
        List.count_append]
      omega
    unfold Distinct
    rw [hperm.nodup_iff]
    refine List.Nodup.append h.1 hv (fun x hx hx' => ?_)
    exact (h.2 x hx).2.2 hx'

/-- A function's variables stay apart from the hidden ones and the functions. -/
theorem distinct_enterFunction {d : Dialect} {v : Sight} {names : List String}
    (hv : v.Distinct) (h : v.Free d names) : (v.enterFunction names).Distinct := by
  have hperm : (v.enterFunction names).taken.Perm (names ++ v.taken) := by
    rw [List.perm_iff_count]
    intro a
    simp only [taken, enterFunction, functionNames, visible, List.flatten_cons,
      List.flatten_nil, List.append_nil, List.count_append]
    omega
  unfold Distinct
  rw [hperm.nodup_iff]
  refine List.Nodup.append h.1 hv (fun x hx hx' => ?_)
  exact (h.2 x hx).2.2 hx'

theorem Distinct.functionNames_nodup {v : Sight} (h : v.Distinct) : v.functionNames.Nodup :=
  (List.nodup_append.mp (List.nodup_append.mp h).1).1

theorem Distinct.visible_nodup {v : Sight} (h : v.Distinct) : v.visible.Nodup :=
  (List.nodup_append.mp (List.nodup_append.mp h).1).2.1

end Sight

/-- A statement that fits leaves all names in sight apart. -/
theorem Stmt.Fits.distinct_after {d : Dialect} {v : Sight} {inLoop : Bool} {s : Stmt}
    (hv : v.Distinct) (h : s.Fits d v inLoop) : (v.after s).Distinct := by
  cases s with
  | decl line vars value =>
      simp only [Stmt.Fits] at h
      exact Sight.distinct_declare hv h.2
  | _ => exact hv

/-- Statements that fit leave all names in sight apart. -/
theorem Stmt.FitsSeq.distinct_afterSeq {d : Dialect} {inLoop : Bool} {stmts : List Stmt} :
    ∀ {v : Sight}, v.Distinct → Stmt.FitsSeq d v inLoop stmts → (v.afterSeq stmts).Distinct := by
  induction stmts with
  | nil => intro v hv _; exact hv
  | cons s rest ih =>
      intro v hv h
      simp only [Stmt.FitsSeq] at h
      exact ih (Stmt.Fits.distinct_after hv h.1) h.2

/-- A function defined by one of some well-formed statements is well formed. Only
    variables are declared on the way to its definition, and those are hidden
    from it. -/
theorem Stmt.FitsSeq.function_fits {d : Dialect} {inLoop : Bool} {f : FunctionDef}
    {stmts : List Stmt} : ∀ {v : Sight}, v.Distinct → Stmt.FitsSeq d v inLoop stmts →
      f ∈ stmts.filterMap Stmt.function? → f.Fits d v.functions := by
  induction stmts with
  | nil => intro v _ _ hf; exact absurd hf (List.not_mem_nil)
  | cons s rest ih =>
      intro v hv h hf
      simp only [Stmt.FitsSeq] at h
      rcases List.mem_filterMap.mp hf with ⟨s', hs', hsf⟩
      -- The function is the statement at hand or one of the rest.
      rcases List.mem_cons.mp hs' with rfl | hrest
      · cases s' with
        | func line name params returns body =>
            simp only [Stmt.function?, Option.some.injEq] at hsf
            subst hsf
            have hfit := h.1
            simp only [Stmt.Fits] at hfit
            exact ⟨v.visible ++ v.hidden, Sight.distinct_enterFunction hv hfit.1, hfit.2⟩
        | _ => simp only [Stmt.function?, reduceCtorEq] at hsf
      -- Statements leave the functions in sight as they are.
      · have := ih (Stmt.Fits.distinct_after hv h.1) h.2 (List.mem_filterMap.mpr ⟨s', hrest, hsf⟩)
        simpa only [Sight.functions_after] using this

/-- A function in sight is defined by one of the blocks around, and behind the
    blocks inside of that one it is found the same way. -/
theorem FunctionScopes.find?_split {name : String} {f : FunctionDef} {fs : FunctionScopes}
    (h : fs.find? name = some f) :
    ∃ inner here outer, fs = inner ++ here :: outer ∧ f ∈ here ∧ f.name = name ∧
      FunctionScopes.find? name (here :: outer) = some f := by
  induction fs with
  | nil => simp only [FunctionScopes.find?, reduceCtorEq] at h
  | cons here outer ih =>
      -- It is found here, or this scope is one to be skipped.
      by_cases hh : findFunction? name here = some f
      · refine ⟨[], here, outer, rfl, ?_, ?_, ?_⟩
        · exact List.mem_reverse.mp (List.mem_of_find?_eq_some hh)
        · simpa only [beq_iff_eq] using List.find?_some hh
        · simp only [FunctionScopes.find?, hh]
      · have hn : findFunction? name here = none := by
          rcases hc : findFunction? name here with _ | g
          · rfl
          · simp only [FunctionScopes.find?, hc, Option.some.injEq] at h
            exact absurd (h ▸ hc) hh
        simp only [FunctionScopes.find?, hn] at h
        rcases ih h with ⟨inner, h', o', heq, hrest⟩
        exact ⟨here :: inner, h', o', by rw [heq]; rfl, hrest⟩

/-- A function that is found has its name in sight. -/
theorem Sight.mem_functionNames {v : Sight} {name : String} {f : FunctionDef}
    (h : v.functions.find? name = some f) : name ∈ v.functionNames := by
  rcases FunctionScopes.find?_split h with ⟨inner, here, outer, heq, hmem, hname, _⟩
  refine List.mem_map.mpr ⟨f, ?_, hname⟩
  rw [heq]
  exact List.mem_flatten.mpr ⟨here, by simp only [List.mem_append, List.mem_cons, true_or, or_true],
    hmem⟩

/-- Entering a well-formed block keeps all functions in sight well formed. -/
theorem FunctionScopes.Fit.enter {d : Dialect} {v : Sight} {inLoop : Bool} {stmts : List Stmt}
    (hv : v.Distinct) (hfit : v.functions.Fit d)
    (hfree : v.Free d ((stmts.filterMap Stmt.function?).map (·.name)))
    (h : Stmt.FitsSeq d (v.enter stmts) inLoop stmts) :
    (v.enter stmts).functions.Fit d :=
  ⟨fun _ hf => Stmt.FitsSeq.function_fits (Sight.distinct_enter hv hfree) h hf, hfit⟩

/-- The parts of a well-formed loop are well formed where they stand: all behind
    the initialisation, whose scope they share. -/
theorem Stmt.Fits.loop_parts {d : Dialect} {v : Sight} {inLoop : Bool} {line preLine : Nat}
    {pre : List Stmt} {test : Expr} {post body : Block} (hv : v.Distinct)
    (hfit : v.functions.Fit d)
    (h : (Stmt.loop line ⟨preLine, pre⟩ test post body).Fits d v inLoop) :
    ((v.enter pre).Distinct ∧ (v.enter pre).functions.Fit d ∧
      Stmt.FitsSeq d (v.enter pre) false pre) ∧
    ((v.enter pre).afterSeq pre).Distinct ∧ ((v.enter pre).afterSeq pre).functions.Fit d ∧
      test.Yields d ((v.enter pre).afterSeq pre) 1 ∧
      body.Fits d ((v.enter pre).afterSeq pre) true ∧
      post.Fits d ((v.enter pre).afterSeq pre) false := by
  rw [Stmt.Fits] at h
  rcases h with ⟨hfree, hpre, htest, hbody, hpost⟩
  have hin := Sight.distinct_enter hv hfree
  have hfin := FunctionScopes.Fit.enter hv hfit hfree hpre
  refine ⟨⟨hin, hfin, hpre⟩, Stmt.FitsSeq.distinct_afterSeq hin hpre, ?_, htest, hbody, hpost⟩
  rw [Sight.functions_afterSeq]
  exact hfin

end YulToolchain
