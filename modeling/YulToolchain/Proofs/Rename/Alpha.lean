import YulToolchain.Proofs.Execution.Lexical
import YulToolchain.Proofs.Rename.Respell
import YulToolchain.Proofs.Static.Analyzed

/-!
# Programs That Differ in Names

Two programs are alpha-equivalent if they differ in nothing but the names of what they
declare.

Names mean something by what is in sight, so this too is said place by place. A
`Pairing` lists the variables and functions that two programs have in sight at
corresponding places, side by side. A use of a name in one program corresponds to
that of another name in the other program if the two names stand next to each other in
the list. Nothing is said about spelling: which names are equal and which are not
follows from the two programs being well formed, each on its own.

Lines are left out of account. They only show in the complaints about programs that are
not well formed.

## Main definitions

* `Pairing`: What two programs have in sight, side by side.
* `Expr.AlphaEq`, `Stmt.AlphaEq`, `Block.AlphaEq`: Code that differs in names.
* `FunctionDef.AlphaEq`, `FunctionPairs.AlphaEq`: Functions whose bodies differ in names.
* `Pairing.Joins`: A pairing of two sights of well-formed programs.

## Theorems

* `Pairing.Joins.unique`: Names are equal on one side if they are on the other.
* `Pairing.Joins.find?`: Functions that stand side by side are found by their names.
* `Pairing.Joins.enter`, `Pairing.Joins.after`, `Pairing.Joins.callee`: Going along with
  the code.
-/

namespace YulToolchain

/-- Functions of two programs side by side, the innermost block first. -/
abbrev FunctionPairs := List (List (FunctionDef × FunctionDef))

/-- The functions of the first program. -/
def FunctionPairs.firsts (fs : FunctionPairs) : FunctionScopes := fs.map (·.map (·.1))

/-- The functions of the second program. -/
def FunctionPairs.seconds (fs : FunctionPairs) : FunctionScopes := fs.map (·.map (·.2))

/-- What two programs have in sight at corresponding places, side by side. -/
structure Pairing where
  /-- The functions. -/
  functions : FunctionPairs
  /-- The variables, scope by scope. -/
  vars : List (List (String × String))

namespace Pairing

/-- Nothing is in sight. -/
def empty : Pairing := ⟨[], []⟩

/-- What is in sight at the start of two blocks. -/
def enter (stmts stmts' : List Stmt) (p : Pairing) : Pairing :=
  ⟨(stmts.filterMap Stmt.function?).zip (stmts'.filterMap Stmt.function?) :: p.functions,
    [] :: p.vars⟩

/-- What is in sight after variables were declared. -/
def declare (names : List (String × String)) (p : Pairing) : Pairing :=
  match p.vars with
  | [] => p
  | scope :: outer => { p with vars := (scope ++ names) :: outer }

/-- What is in sight behind two statements. -/
def after (p : Pairing) (s s' : Stmt) : Pairing :=
  p.declare (s.declaresVars.zip s'.declaresVars)

/-- What is in sight behind the statements of two lists. -/
def afterSeq (p : Pairing) : List Stmt → List Stmt → Pairing
  | s :: rest, s' :: rest' => (p.after s s').afterSeq rest rest'
  | _, _ => p

end Pairing

mutual

/-- Two expressions differ in names alone. -/
inductive Expr.AlphaEq (d : Dialect) (p : Pairing) : Expr → Expr → Prop
  | literal (l : Literal) : Expr.AlphaEq d p (.literal l) (.literal l)
  | ident (line line' : Nat) {x x' : String} (h : (x, x') ∈ p.vars.flatten) :
    Expr.AlphaEq d p (.ident line x) (.ident line' x')
  | instr (line line' : Nat) (op : Instruction) {args args' : List Expr}
    (hargs : Expr.AlphaEqAll d p args args') :
    Expr.AlphaEq d p (.instr line op args) (.instr line' op args')
  | builtin (line line' : Nat) {name : String} {b : Builtin} {args args' : List Expr}
    (hb : d.builtin? name = some b) (hargs : Expr.AlphaEqAll d p args args') :
    Expr.AlphaEq d p (.call line name args) (.call line' name args')
  | call (line line' : Nat) {f f' : FunctionDef} {args args' : List Expr}
    (hb : d.builtin? f.name = none) (hb' : d.builtin? f'.name = none)
    (hf : (f, f') ∈ p.functions.flatten) (hargs : Expr.AlphaEqAll d p args args') :
    Expr.AlphaEq d p (.call line f.name args) (.call line' f'.name args')

/-- The expressions of two lists differ in names alone. -/
inductive Expr.AlphaEqAll (d : Dialect) (p : Pairing) : List Expr → List Expr → Prop
  | nil : Expr.AlphaEqAll d p [] []
  | cons {e e' : Expr} {rest rest' : List Expr} (he : Expr.AlphaEq d p e e')
    (hrest : Expr.AlphaEqAll d p rest rest') : Expr.AlphaEqAll d p (e :: rest) (e' :: rest')

end

mutual

/-- Two blocks differ in names alone. -/
inductive Block.AlphaEq (d : Dialect) : Pairing → Block → Block → Prop
  | block {p : Pairing} (line line' : Nat) {stmts stmts' : List Stmt}
    (h : Stmt.AlphaEqSeq d (p.enter stmts stmts') stmts stmts') :
    Block.AlphaEq d p ⟨line, stmts⟩ ⟨line', stmts'⟩

/-- The statements of two lists differ in names alone. -/
inductive Stmt.AlphaEqSeq (d : Dialect) : Pairing → List Stmt → List Stmt → Prop
  | nil {p : Pairing} : Stmt.AlphaEqSeq d p [] []
  | cons {p : Pairing} {s s' : Stmt} {rest rest' : List Stmt} (hs : Stmt.AlphaEq d p s s')
    (hrest : Stmt.AlphaEqSeq d (p.after s s') rest rest') :
    Stmt.AlphaEqSeq d p (s :: rest) (s' :: rest')

/-- Two statements differ in names alone. -/
inductive Stmt.AlphaEq (d : Dialect) : Pairing → Stmt → Stmt → Prop
  | expr {p : Pairing} (line line' : Nat) {e e' : Expr} (he : e.AlphaEq d p e') :
    Stmt.AlphaEq d p (.expr line e) (.expr line' e')
  | assign {p : Pairing} (line line' : Nat) {targets targets' : List Identifier}
    {value value' : Expr}
    (htargets : List.Forall₂ (fun t t' => (t.name, t'.name) ∈ p.vars.flatten) targets targets')
    (hvalue : value.AlphaEq d p value') :
    Stmt.AlphaEq d p (.assign line targets value) (.assign line' targets' value')
  | zeros {p : Pairing} (line line' : Nat) {vars vars' : List TypedName}
    (hvars : vars'.length = vars.length) :
    Stmt.AlphaEq d p (.decl line vars none) (.decl line' vars' none)
  | decl {p : Pairing} (line line' : Nat) {vars vars' : List TypedName} {value value' : Expr}
    (hvars : vars'.length = vars.length) (hvalue : value.AlphaEq d p value') :
    Stmt.AlphaEq d p (.decl line vars (some value)) (.decl line' vars' (some value'))
  | func {p : Pairing} (line line' : Nat) (name name' : String)
    {params params' returns returns' : List TypedName} {body body' : Block}
    (hparams : params'.length = params.length) (hreturns : returns'.length = returns.length)
    (hbody : Block.AlphaEq d ⟨p.functions, [((params ++ returns).map (·.name)).zip
      ((params' ++ returns').map (·.name))]⟩ body body') :
    Stmt.AlphaEq d p (.func line name params returns body)
      (.func line' name' params' returns' body')
  | cond {p : Pairing} (line line' : Nat) {test test' : Expr} {body body' : Block}
    (htest : test.AlphaEq d p test') (hbody : Block.AlphaEq d p body body') :
    Stmt.AlphaEq d p (.cond line test body) (.cond line' test' body')
  | switch {p : Pairing} (line line' : Nat) {subject subject' : Expr} {cases cases' : List Case}
    (hsubject : subject.AlphaEq d p subject') (hcases : Case.AlphaEqSeq d p cases cases') :
    Stmt.AlphaEq d p (.switch line subject cases) (.switch line' subject' cases')
  | loop {p : Pairing} (line line' preLine preLine' : Nat) {pre pre' : List Stmt}
    {test test' : Expr} {post post' body body' : Block}
    (hpre : Stmt.AlphaEqSeq d (p.enter pre pre') pre pre')
    (htest : test.AlphaEq d ((p.enter pre pre').afterSeq pre pre') test')
    (hbody : Block.AlphaEq d ((p.enter pre pre').afterSeq pre pre') body body')
    (hpost : Block.AlphaEq d ((p.enter pre pre').afterSeq pre pre') post post') :
    Stmt.AlphaEq d p (.loop line ⟨preLine, pre⟩ test post body)
      (.loop line' ⟨preLine', pre'⟩ test' post' body')
  | brk {p : Pairing} (line line' : Nat) : Stmt.AlphaEq d p (.brk line) (.brk line')
  | cont {p : Pairing} (line line' : Nat) : Stmt.AlphaEq d p (.cont line) (.cont line')
  | block {p : Pairing} {b b' : Block} (hb : Block.AlphaEq d p b b') :
    Stmt.AlphaEq d p (.block b) (.block b')

/-- The cases of two lists differ in names alone. -/
inductive Case.AlphaEqSeq (d : Dialect) : Pairing → List Case → List Case → Prop
  | nil {p : Pairing} : Case.AlphaEqSeq d p [] []
  | cons {p : Pairing} (line line' : Nat) (value : Option Literal) {body body' : Block}
    {rest rest' : List Case} (hbody : Block.AlphaEq d p body body')
    (hrest : Case.AlphaEqSeq d p rest rest') :
    Case.AlphaEqSeq d p (⟨line, value, body⟩ :: rest) (⟨line', value, body'⟩ :: rest')

end

/-- Two functions have bodies that differ in names alone, given the functions around their
    definitions. -/
structure FunctionDef.AlphaEq (d : Dialect) (fs : FunctionPairs) (f f' : FunctionDef) : Prop where
  params : f'.params.length = f.params.length
  returns : f'.returns.length = f.returns.length
  body : f.body.AlphaEq d ⟨fs, [f.names.zip f'.names]⟩ f'.body

/-- All functions that stand side by side differ in names alone. -/
def FunctionPairs.AlphaEq (d : Dialect) : FunctionPairs → Prop
  | [] => True
  | here :: outer =>
    (∀ q ∈ here, FunctionDef.AlphaEq d (here :: outer) q.1 q.2) ∧ FunctionPairs.AlphaEq d outer

section Lists

/-- The functions further out are equal up to names as well. -/
theorem FunctionPairs.AlphaEq.suffix {d : Dialect} {outer : FunctionPairs} :
    ∀ {inner : FunctionPairs}, FunctionPairs.AlphaEq d (inner ++ outer) →
      FunctionPairs.AlphaEq d outer
  | [], h => h
  | _ :: _, h => FunctionPairs.AlphaEq.suffix h.2

variable {d : Dialect} {p : Pairing}

/-- Statements equal up to names declare as many variables. -/
theorem Stmt.AlphaEq.length_declaresVars {s s' : Stmt} (h : s.AlphaEq d p s') :
    s'.declaresVars.length = s.declaresVars.length := by
  cases h with
  | zeros _ _ hvars =>
      rw [Stmt.declaresVars, Stmt.declaresVars, List.length_map, List.length_map, hvars]
  | decl _ _ hvars =>
      rw [Stmt.declaresVars, Stmt.declaresVars, List.length_map, List.length_map, hvars]
  | _ => rfl

@[simp]
theorem Pairing.functions_after (p : Pairing) (s s' : Stmt) :
    (p.after s s').functions = p.functions := by
  rw [Pairing.after, Pairing.declare]
  split <;> rfl

@[simp]
theorem Pairing.declare_nil (p : Pairing) : p.declare [] = p := by
  rcases p with ⟨functions, _ | ⟨scope, outer⟩⟩
  · rfl
  · simp only [Pairing.declare, List.append_nil]

theorem Pairing.after_eq {p : Pairing} {s s' : Stmt} (h : s.declaresVars = []) :
    p.after s s' = p := by
  rw [Pairing.after, h, List.zip_nil_left, Pairing.declare_nil]

theorem Pairing.subset_declare (p : Pairing) (names : List (String × String)) :
    p.vars.flatten ⊆ (p.declare names).vars.flatten := by
  intro q hq
  rcases p with ⟨functions, _ | ⟨scope, outer⟩⟩
  · exact hq
  · simp only [Pairing.declare, List.flatten_cons, List.mem_append] at hq ⊢
    tauto

/-- Variables paired before are paired behind statements. -/
theorem Pairing.subset_afterSeq : ∀ (p : Pairing) (stmts stmts' : List Stmt),
    p.vars.flatten ⊆ (p.afterSeq stmts stmts').vars.flatten
  | _, [], _ => List.Subset.refl _
  | _, _ :: _, [] => List.Subset.refl _
  | p, s :: rest, s' :: rest' =>
      List.Subset.trans (p.subset_declare _) ((p.after s s').subset_afterSeq rest rest')

/-- The functions that some statements define stand side by side, and differ in
    names alone. -/
theorem Stmt.AlphaEqSeq.functions : ∀ {stmts stmts' : List Stmt} {p : Pairing},
    Stmt.AlphaEqSeq d p stmts stmts' →
      (stmts'.filterMap Stmt.function?).length = (stmts.filterMap Stmt.function?).length ∧
      ∀ q ∈ (stmts.filterMap Stmt.function?).zip (stmts'.filterMap Stmt.function?),
        FunctionDef.AlphaEq d p.functions q.1 q.2
  | [], stmts', p, h => by
      cases h
      exact ⟨rfl, fun q hq => absurd hq List.not_mem_nil⟩
  | s :: rest, stmts', p, h => by
      cases h with
      | cons hs hrest =>
          have ih := Stmt.AlphaEqSeq.functions hrest
          rw [Pairing.functions_after] at ih
          -- Only a function definition adds a pair, and it is one of equal functions.
          cases hs with
          | func line line' name name' hparams hreturns hbody =>
              simp only [List.filterMap_cons, Stmt.function?, List.length_cons,
                List.zip_cons_cons, List.forall_mem_cons]
              exact ⟨congrArg (· + 1) ih.1, ⟨hparams, hreturns, hbody⟩, ih.2⟩
          | _ => exact ih

end Lists

/-- A function is found by its name if no two functions in sight have the same. -/
theorem FunctionScopes.find?_of_mem {f : FunctionDef} : ∀ {fs : FunctionScopes},
    (fs.flatten.map (·.name)).Nodup → f ∈ fs.flatten → fs.find? f.name = some f
  | [], _, h => absurd h List.not_mem_nil
  | here :: outer, hnodup, h => by
      rw [List.flatten_cons, List.map_append, List.nodup_append] at hnodup
      rw [FunctionScopes.find?]
      rw [List.flatten_cons] at h
      rcases List.mem_append.mp h with h | h
      -- The last definition of the name is the only one.
      · have hfind : findFunction? f.name here = some f := by
          rcases hf : findFunction? f.name here with _ | g
          · have hnone := List.find?_eq_none.mp hf f (List.mem_reverse.mpr h)
            exact absurd (beq_self_eq_true f.name) hnone
          · have hname : g.name = f.name := by simpa only [beq_iff_eq] using List.find?_some hf
            have hmem := List.mem_reverse.mp (List.mem_of_find?_eq_some hf)
            rw [List.inj_on_of_nodup_map hnodup.1 hmem h hname]
        simp only [hfind]
      · have hnone := FunctionScopes.findFunction?_eq_none fun hmem =>
          hnodup.2.2 f.name hmem f.name (List.mem_map_of_mem h) rfl
        simp only [hnone]
        exact FunctionScopes.find?_of_mem hnodup.2.1 h

theorem Stmt.Fits.free_declaresVars {d : Dialect} {v : Sight} {inLoop : Bool} {s : Stmt}
    (h : s.Fits d v inLoop) : v.Free d s.declaresVars := by
  cases s with
  | decl line vars value =>
      rw [Stmt.Fits] at h
      exact h.2
  | _ => exact Sight.free_nil d v

/-- A pairing of what is in sight in two well-formed programs. -/
structure Pairing.Joins (d : Dialect) (p : Pairing) (v v' : Sight) : Prop where
  functions : v.functions = p.functions.firsts
  functions' : v'.functions = p.functions.seconds
  vars : v.vars = p.vars.map (·.map (·.1))
  vars' : v'.vars = p.vars.map (·.map (·.2))
  distinct : v.Distinct
  distinct' : v'.Distinct
  fit : v.functions.Fit d
  fit' : v'.functions.Fit d
  bodies : p.functions.AlphaEq d

namespace Pairing.Joins

variable {d : Dialect} {p : Pairing} {v v' : Sight}

theorem empty (d : Dialect) : Pairing.empty.Joins d .empty .empty :=
  ⟨rfl, rfl, rfl, rfl, List.nodup_nil, List.nodup_nil, trivial, trivial, trivial⟩

theorem visible (h : p.Joins d v v') : v.visible = p.vars.flatten.map (·.1) := by
  rw [Sight.visible, h.vars, List.map_flatten]

theorem visible' (h : p.Joins d v v') : v'.visible = p.vars.flatten.map (·.2) := by
  rw [Sight.visible, h.vars', List.map_flatten]

/-- Names are equal on one side if they are on the other. -/
theorem unique (h : p.Joins d v v') {q r : String × String} (hq : q ∈ p.vars.flatten)
    (hr : r ∈ p.vars.flatten) : q.1 = r.1 ↔ q.2 = r.2 := by
  have hnodup := h.distinct.visible_nodup
  have hnodup' := h.distinct'.visible_nodup
  rw [h.visible] at hnodup
  rw [h.visible'] at hnodup'
  constructor
  · intro heq
    rw [List.inj_on_of_nodup_map hnodup hq hr heq]
  · intro heq
    rw [List.inj_on_of_nodup_map hnodup' hq hr heq]

theorem mem_visible (h : p.Joins d v v') {q : String × String} (hq : q ∈ p.vars.flatten) :
    q.1 ∈ v.visible ∧ q.2 ∈ v'.visible := by
  rw [h.visible, h.visible']
  exact ⟨List.mem_map_of_mem hq, List.mem_map_of_mem hq⟩

/-- Functions that stand side by side are found by their names. -/
theorem find? (h : p.Joins d v v') {f f' : FunctionDef} (hf : (f, f') ∈ p.functions.flatten) :
    v.functions.find? f.name = some f ∧ v'.functions.find? f'.name = some f' := by
  have hnodup := h.distinct.functionNames_nodup
  have hnodup' := h.distinct'.functionNames_nodup
  refine ⟨FunctionScopes.find?_of_mem hnodup ?_, FunctionScopes.find?_of_mem hnodup' ?_⟩
  · rw [h.functions, FunctionPairs.firsts, ← List.map_flatten]
    exact List.mem_map_of_mem hf
  · rw [h.functions', FunctionPairs.seconds, ← List.map_flatten]
    exact List.mem_map_of_mem hf

/-- Entering two blocks that differ in names. -/
theorem enter (h : p.Joins d v v') {stmts stmts' : List Stmt} {inLoop : Bool}
    (hfree : v.Free d ((stmts.filterMap Stmt.function?).map (·.name)))
    (hfree' : v'.Free d ((stmts'.filterMap Stmt.function?).map (·.name)))
    (hfits : Stmt.FitsSeq d (v.enter stmts) inLoop stmts)
    (hfits' : Stmt.FitsSeq d (v'.enter stmts') inLoop stmts')
    (halpha : Stmt.AlphaEqSeq d (p.enter stmts stmts') stmts stmts') :
    (p.enter stmts stmts').Joins d (v.enter stmts) (v'.enter stmts') := by
  -- The functions of both blocks are paired in order, so that the pairs have them as their parts.
  rcases halpha.functions with ⟨hlength, hbodies⟩
  refine ⟨?_, ?_, ?_, ?_, Sight.distinct_enter h.distinct hfree,
    Sight.distinct_enter h.distinct' hfree', .enter h.distinct h.fit hfree hfits,
    .enter h.distinct' h.fit' hfree' hfits', hbodies, h.bodies⟩
  · rw [Sight.functions_enter, h.functions, FunctionPairs.firsts, FunctionPairs.firsts,
      Pairing.enter, List.map_cons, List.map_fst_zip (Nat.le_of_eq hlength.symm)]
  · rw [Sight.functions_enter, h.functions', FunctionPairs.seconds, FunctionPairs.seconds,
      Pairing.enter, List.map_cons, List.map_snd_zip (Nat.le_of_eq hlength)]
  · rw [Sight.vars_enter, h.vars]
    rfl
  · rw [Sight.vars_enter, h.vars']
    rfl

theorem declare (h : p.Joins d v v') {names names' : List String}
    (hlength : names'.length = names.length) (hfree : v.Free d names) (hfree' : v'.Free d names') :
    (p.declare (names.zip names')).Joins d (v.declare names) (v'.declare names') := by
  have hvars := h.vars
  have hvars' := h.vars'
  have hdistinct := Sight.distinct_declare h.distinct hfree
  have hdistinct' := Sight.distinct_declare h.distinct' hfree'
  rw [Pairing.declare]
  -- Without a scope nothing is declared on either side.
  rcases hp : p.vars with _ | ⟨scope, outer⟩
  · rw [hp] at hvars hvars'
    have hv : v.declare names = v := by rw [Sight.declare, hvars]; rfl
    have hv' : v'.declare names' = v' := by rw [Sight.declare, hvars']; rfl
    rw [hv, hv']
    exact h
  · rw [hp] at hvars hvars'
    -- The new pairs stand behind those of the innermost scope.
    refine ⟨?_, ?_, ?_, ?_, hdistinct, hdistinct', ?_, ?_, h.bodies⟩
    · rw [Sight.functions_declare, h.functions]
    · rw [Sight.functions_declare, h.functions']
    · simp only [Sight.declare, hvars, List.map_cons, List.map_append,
        List.map_fst_zip (Nat.le_of_eq hlength.symm)]
    · simp only [Sight.declare, hvars', List.map_cons, List.map_append,
        List.map_snd_zip (Nat.le_of_eq hlength)]
    · rw [Sight.functions_declare]
      exact h.fit
    · rw [Sight.functions_declare]
      exact h.fit'

/-- Going on behind two statements that differ in names. -/
theorem after (h : p.Joins d v v') {s s' : Stmt} {inLoop : Bool} (hfits : s.Fits d v inLoop)
    (hfits' : s'.Fits d v' inLoop) (halpha : s.AlphaEq d p s') :
    (p.after s s').Joins d (v.after s) (v'.after s') := by
  rw [Pairing.after, Sight.after_eq, Sight.after_eq]
  exact h.declare halpha.length_declaresVars hfits.free_declaresVars hfits'.free_declaresVars

/-- Pairs join both sights behind statements as well. -/
theorem afterSeq {inLoop : Bool} : ∀ {stmts stmts' : List Stmt} {p : Pairing} {v v' : Sight},
    p.Joins d v v' → Stmt.FitsSeq d v inLoop stmts → Stmt.FitsSeq d v' inLoop stmts' →
    Stmt.AlphaEqSeq d p stmts stmts' →
      (p.afterSeq stmts stmts').Joins d (v.afterSeq stmts) (v'.afterSeq stmts')
  | [], _, p, v, v', h, _, _, halpha => by
      cases halpha
      exact h
  | s :: rest, _, p, v, v', h, hfits, hfits', halpha => by
      cases halpha with
      | cons hs hrest =>
          rw [Stmt.FitsSeq] at hfits hfits'
          exact (h.after hfits.1 hfits'.1 hs).afterSeq hfits.2 hfits'.2 hrest

/-- What the bodies of two functions that stand side by side have in sight. -/
theorem callee {fs : FunctionPairs} (hfit : fs.firsts.Fit d) (hfit' : fs.seconds.Fit d)
    (hnodup : (fs.firsts.flatten.map (·.name)).Nodup)
    (hnodup' : (fs.seconds.flatten.map (·.name)).Nodup) (halpha : fs.AlphaEq d)
    {f f' : FunctionDef} (hf : (f, f') ∈ fs.flatten) :
    ∃ around v v', f.AlphaEq d around f' ∧
      Pairing.Joins d ⟨around, [f.names.zip f'.names]⟩ v v' ∧
      v.vars = [f.names] ∧ v'.vars = [f'.names] ∧
      v.functions.Within fs.firsts ∧ v'.functions.Within fs.seconds ∧
      f.body.Fits d v false ∧ f'.body.Fits d v' false := by
  -- The callee is defined in one of the scopes, and sees that one and those further out.
  rcases List.mem_flatten.mp hf with ⟨here, hhere, hmem⟩
  rcases List.append_of_mem hhere with ⟨inner, outer, rfl⟩
  have hfirsts : FunctionPairs.firsts (inner ++ here :: outer)
      = FunctionPairs.firsts inner ++ FunctionPairs.firsts (here :: outer) := List.map_append
  have hseconds : FunctionPairs.seconds (inner ++ here :: outer)
      = FunctionPairs.seconds inner ++ FunctionPairs.seconds (here :: outer) := List.map_append
  rw [hfirsts] at hfit hnodup ⊢
  rw [hseconds] at hfit' hnodup' ⊢
  have halpha := halpha.suffix
  have hpair := halpha.1 _ hmem
  have hsuffix : FunctionScopes.Fit d (FunctionPairs.firsts (here :: outer)) := hfit.suffix
  have hsuffix' : FunctionScopes.Fit d (FunctionPairs.seconds (here :: outer)) := hfit'.suffix
  rcases hsuffix.1 f (List.mem_map_of_mem hmem) with ⟨hidden, hdistinct, hbody⟩
  rcases hsuffix'.1 f' (List.mem_map_of_mem hmem) with ⟨hidden', hdistinct', hbody'⟩
  -- Both frames have as many names.
  have hnames : f'.names.length = f.names.length := by
    simp only [FunctionDef.names, List.length_map, List.length_append, hpair.params,
      hpair.returns]
  refine ⟨here :: outer, _, _, hpair, ⟨rfl, rfl, ?_, ?_, hdistinct, hdistinct', hsuffix, hsuffix',
    halpha⟩, rfl, rfl, FunctionScopes.Within.append hnodup, FunctionScopes.Within.append hnodup',
    hbody, hbody'⟩
  · simp only [List.map_cons, List.map_nil, List.map_fst_zip (Nat.le_of_eq hnames.symm)]
  · simp only [List.map_cons, List.map_nil, List.map_snd_zip (Nat.le_of_eq hnames)]

end Pairing.Joins

end YulToolchain
