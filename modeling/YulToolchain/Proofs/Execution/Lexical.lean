import YulToolchain.Execution.Interpreter
import YulToolchain.Proofs.Static.Builtin
import YulToolchain.Proofs.Static.Sight

/-!
# Functions in Sight and Functions on the Way

A call means the function that stands for its name in the text.

The interpreter looks functions up in all blocks that are being executed, those of
the callers included. The text gives less: a function body sees the functions of
the blocks around its definition. For well-formed code the two never differ,
since every name that is in sight from a place is found the same way on both
paths. So a run of well-formed code may be taken to be a run with just the
functions in sight.

## Main definitions

* `FunctionScopes.Within`: Functions of one list are found in another.
* `Caller.Lexical`: Calls do not depend on functions that are out of sight.

## Theorems

* `FunctionScopes.Fit.callee`: The sight of the body of a function.
* `Block.run_lexical`, `Stmt.run_lexical`, `Expr.run_lexical`: Code does not
  depend on functions that are out of sight.
* `FunctionDef.call_lexical`: Neither do calls.
-/

namespace YulToolchain

namespace FunctionScopes

/-- Every function found in one list of blocks is found in another. -/
def Within (inner outer : FunctionScopes) : Prop :=
  ∀ name f, inner.find? name = some f → outer.find? name = some f

theorem Within.refl (fs : FunctionScopes) : Within fs fs := fun _ _ h => h

theorem Within.trans {a b c : FunctionScopes} (hab : Within a b) (hbc : Within b c) : Within a c :=
  fun name f h => hbc name f (hab name f h)

/-- A scope more on both sides. -/
theorem Within.cons {inner outer : FunctionScopes} (h : Within inner outer)
    (fs : List FunctionDef) : Within (fs :: inner) (fs :: outer) := by
  intro name f hf
  simp only [find?] at hf ⊢
  cases hfs : findFunction? name fs with
  | some g => simpa only [hfs] using hf
  | none =>
      simp only [hfs] at hf ⊢
      exact h name f hf

/-- A name that is not there is not found. -/
theorem findFunction?_eq_none {name : String} {fs : List FunctionDef}
    (h : name ∉ fs.map (·.name)) : findFunction? name fs = none := by
  rw [findFunction?, List.find?_eq_none]
  intro f hf
  rw [beq_iff_eq]
  rintro rfl
  exact h (List.mem_map_of_mem (List.mem_reverse.mp hf))

/-- The functions of further blocks do not hide those of the blocks around them. -/
theorem Within.append {outer : FunctionScopes} : ∀ {inner : FunctionScopes},
    ((inner ++ outer).flatten.map (·.name)).Nodup → Within outer (inner ++ outer)
  | [], _ => .refl outer
  | fs :: inner, h => by
      rw [List.cons_append, List.flatten_cons, List.map_append, List.nodup_append] at h
      intro name f hf
      have hrest := Within.append h.2.1 name f hf
      have hmem : name ∈ ((inner ++ outer).flatten.map (·.name)) :=
        Sight.mem_functionNames (v := ⟨inner ++ outer, [], []⟩) hrest
      have hnone := findFunction?_eq_none (fun hfs => h.2.2 name hfs name hmem rfl)
      simp only [List.cons_append, find?, hnone]
      exact hrest

theorem Fit.suffix {d : Dialect} {outer : FunctionScopes} :
    ∀ {inner : FunctionScopes}, (inner ++ outer).Fit d → outer.Fit d
  | [], h => h
  | _ :: _, h => Fit.suffix h.2

/-- The sight that the body of a function has. -/
theorem Fit.callee {d : Dialect} {fs : FunctionScopes} (hfit : fs.Fit d)
    (hnodup : (fs.flatten.map (·.name)).Nodup) {name : String} {f : FunctionDef}
    (h : fs.find? name = some f) :
    ∃ around hidden, (⟨around, [f.names], hidden⟩ : Sight).Distinct ∧ around.Fit d ∧
      Within around fs ∧ around.find? name = some f ∧
      f.body.Fits d ⟨around, [f.names], hidden⟩ false := by
  rcases find?_split h with ⟨inner, here, outer, rfl, hmem, _, hfind⟩
  have hhere : FunctionScopes.Fit d (here :: outer) := hfit.suffix
  rcases hhere.1 f hmem with ⟨hidden, hdistinct, hbody⟩
  exact ⟨here :: outer, hidden, hdistinct, hhere, Within.append hnodup, hfind, hbody⟩

end FunctionScopes

open FunctionScopes

/-- Calls of functions in sight do not depend on functions that are out of
    sight. -/
def Caller.Lexical (d : Dialect) (call : Caller) : Prop :=
  ∀ (inner outer : FunctionScopes) (name : String) (f : FunctionDef) (args : List Word),
    inner.Fit d → (inner.flatten.map (·.name)).Nodup → inner.Within outer →
    inner.find? name = some f → call outer f args = call inner f args

section Code

variable {c : RunContext} {call : Caller}

mutual

/-- An expression calls what is in sight, whatever is around. -/
theorem Expr.run_lexical (hcall : call.Lexical c.dialect) {v : Sight} {fs : FunctionScopes}
    (hv : v.Distinct) (hfit : v.functions.Fit c.dialect) (hfs : v.functions.Within fs) :
    ∀ {e : Expr} {n : Nat}, e.Yields c.dialect v n → e.run c call fs = e.run c call v.functions
  | .literal _, _, _ => by simp only [Expr.run]
  | .ident _ _, _, _ => by simp only [Expr.run]
  | .instr _ _ args, _, h => by
      rw [Expr.Yields] at h
      simp only [Expr.run, Expr.runArgs_lexical hcall hv hfit hfs h.2.2.2]
  | .call _ name args, _, h => by
      simp only [Expr.Yields] at h
      simp only [Expr.run]
      rcases hb : c.dialect.builtin? name with _ | b
      -- The function is found within the other scopes too.
      · simp only [hb] at h
        rcases h with ⟨f, hf, _, _, hargs⟩
        simp only [hf, hfs name f hf, Expr.runArgs_lexical hcall hv hfit hfs hargs,
          hcall v.functions fs name f _ hfit hv.functionNames_nodup hfs hf]
      · simp only [hb] at h
        -- Only queries and effects on the stack take texts.
        by_cases hlit : b.literalArguments = true
        · rcases Dialect.builtin?_cases hb with ⟨b', hproper, rfl | rfl⟩
          · rcases hproper with ⟨op, _, rfl⟩ | rfl | rfl | rfl
            · exact absurd hlit Bool.noConfusion
            · rfl
            · rfl
            · exact absurd hlit Bool.noConfusion
          · rfl
        · rw [if_neg hlit] at h
          simp only [Expr.runArgs_lexical hcall hv hfit hfs h.2.2]

/-- So do arguments. -/
theorem Expr.runArgs_lexical (hcall : call.Lexical c.dialect) {v : Sight} {fs : FunctionScopes}
    (hv : v.Distinct) (hfit : v.functions.Fit c.dialect) (hfs : v.functions.Within fs) :
    ∀ {es : List Expr}, Expr.YieldOnes c.dialect v es →
      Expr.runArgs c call fs es = Expr.runArgs c call v.functions es
  | [], _ => by simp only [Expr.runArgs]
  | e :: rest, h => by
      rw [Expr.YieldOnes] at h
      simp only [Expr.runArgs, Expr.run_lexical hcall hv hfit hfs h.1,
        Expr.runArgs_lexical hcall hv hfit hfs h.2]

end

/-- So does a single value. -/
theorem Expr.runSingle_lexical (hcall : call.Lexical c.dialect) {v : Sight} {fs : FunctionScopes}
    (hv : v.Distinct) (hfit : v.functions.Fit c.dialect) (hfs : v.functions.Within fs) {e : Expr}
    {n : Nat} (h : e.Yields c.dialect v n) :
    e.runSingle c call fs = e.runSingle c call v.functions := by
  rw [Expr.runSingle, Expr.runSingle, Expr.run_lexical hcall hv hfit hfs h]

mutual

/-- A well-formed block does not depend on functions that are out of sight. -/
theorem Block.run_lexical (hcall : call.Lexical c.dialect) : ∀ {b : Block} {v : Sight}
    {inLoop : Bool} {fs : FunctionScopes}, v.Distinct → v.functions.Fit c.dialect →
    v.functions.Within fs → b.Fits c.dialect v inLoop →
      b.run c call fs = b.run c call v.functions
  | ⟨line, stmts⟩, v, inLoop, fs, hv, hfit, hfs, h => by
      rw [Block.Fits] at h
      simp only [Block.run, Block.functions]
      rw [Stmt.runSeq_lexical hcall (Sight.distinct_enter hv h.1) (.enter hv hfit h.1 h.2)
        (hfs.cons _) h.2]
      rfl

/-- So do statements in a row. -/
theorem Stmt.runSeq_lexical (hcall : call.Lexical c.dialect) : ∀ {stmts : List Stmt} {v : Sight}
    {inLoop : Bool} {fs : FunctionScopes}, v.Distinct → v.functions.Fit c.dialect →
    v.functions.Within fs → Stmt.FitsSeq c.dialect v inLoop stmts →
      Stmt.runSeq c call fs stmts = Stmt.runSeq c call v.functions stmts
  | [], _, _, _, _, _, _, _ => by simp only [Stmt.runSeq]
  | s :: rest, v, inLoop, fs, hv, hfit, hfs, h => by
      rw [Stmt.FitsSeq] at h
      have hrest := Stmt.runSeq_lexical hcall (Stmt.Fits.distinct_after hv h.1)
        (by rw [Sight.functions_after]; exact hfit) (by rw [Sight.functions_after]; exact hfs) h.2
      rw [Sight.functions_after] at hrest
      simp only [Stmt.runSeq, Stmt.run_lexical hcall hv hfit hfs h.1, hrest]

/-- So does a statement. -/
theorem Stmt.run_lexical (hcall : call.Lexical c.dialect) : ∀ {s : Stmt} {v : Sight}
    {inLoop : Bool} {fs : FunctionScopes}, v.Distinct → v.functions.Fit c.dialect →
    v.functions.Within fs → s.Fits c.dialect v inLoop →
      s.run c call fs = s.run c call v.functions
  | .expr _ e, v, _, fs, hv, hfit, hfs, h => by
      rw [Stmt.Fits] at h
      simp only [Stmt.run, Expr.run_lexical hcall hv hfit hfs h]
  | .assign _ _ value, v, _, fs, hv, hfit, hfs, h => by
      rw [Stmt.Fits] at h
      simp only [Stmt.run, Expr.run_lexical hcall hv hfit hfs h.1]
  | .decl _ _ none, _, _, _, _, _, _, _ => by simp only [Stmt.run]
  | .decl _ _ (some value), v, _, fs, hv, hfit, hfs, h => by
      rw [Stmt.Fits] at h
      simp only [Stmt.run, Expr.run_lexical hcall hv hfit hfs (h.1 value rfl)]
  | .func _ _ _ _ _, _, _, _, _, _, _, _ => by simp only [Stmt.run]
  | .cond _ test body, v, _, fs, hv, hfit, hfs, h => by
      rw [Stmt.Fits] at h
      simp only [Stmt.run, Expr.runSingle_lexical hcall hv hfit hfs h.1,
        Block.run_lexical hcall hv hfit hfs h.2]
  | .switch _ subject cases, v, _, fs, hv, hfit, hfs, h => by
      rw [Stmt.Fits] at h
      simp only [Stmt.run, Expr.runSingle_lexical hcall hv hfit hfs h.1,
        Case.runSeq_lexical hcall _ hv hfit hfs h.2]
  | .loop _ ⟨line, pre⟩ test post body, v, _, fs, hv, hfit, hfs, h => by
      rcases Stmt.Fits.loop_parts hv hfit h with
        ⟨⟨hin, hfin, hpre⟩, hout, hfout, htest, hbody, hpost⟩
      -- The functions of the init block are in front on both sides.
      have hfs' := hfs.cons (pre.filterMap Stmt.function?)
      have hfunctions : ((v.enter pre).afterSeq pre).functions
          = pre.filterMap Stmt.function? :: v.functions := by
        rw [Sight.functions_afterSeq, Sight.functions_enter]
      have hwithin : ((v.enter pre).afterSeq pre).functions.Within
          (pre.filterMap Stmt.function? :: fs) := by
        rw [hfunctions]
        exact hfs'
      -- All four parts depend on what is in sight only.
      have hpre' := Stmt.runSeq_lexical hcall hin hfin hfs' hpre
      have htest' := Expr.runSingle_lexical hcall hout hfout hwithin htest
      have hbody' := Block.run_lexical hcall hout hfout hwithin hbody
      have hpost' := Block.run_lexical hcall hout hfout hwithin hpost
      rw [hfunctions] at htest' hbody' hpost'
      simp only [Stmt.run, Block.functions, hpre', htest', hbody', hpost', Sight.functions_enter]
  | .brk _, _, _, _, _, _, _, _ => by simp only [Stmt.run]
  | .cont _, _, _, _, _, _, _, _ => by simp only [Stmt.run]
  | .block b, v, _, fs, hv, hfit, hfs, h => by
      rw [Stmt.Fits] at h
      simp only [Stmt.run, Block.run_lexical hcall hv hfit hfs h]
  | .label _ _, _, _, _, _, _, _, _ => by simp only [Stmt.run]
  | .stackAssign _ _, _, _, _, _, _, _, _ => by simp only [Stmt.run]

/-- So do cases. -/
theorem Case.runSeq_lexical (hcall : call.Lexical c.dialect) (value : Word) :
    ∀ {cases : List Case} {v : Sight} {inLoop : Bool} {seen : List Word} {fs : FunctionScopes},
    v.Distinct → v.functions.Fit c.dialect → v.functions.Within fs →
    Case.FitsSeq c.dialect v inLoop seen cases →
      Case.runSeq c call fs value cases = Case.runSeq c call v.functions value cases
  | [], _, _, _, _, _, _, _, _ => by simp only [Case.runSeq]
  | ⟨_, none, body⟩ :: rest, v, _, _, fs, hv, hfit, hfs, h => by
      rw [Case.FitsSeq] at h
      simp only [Case.runSeq, Block.run_lexical hcall hv hfit hfs h.1]
  | ⟨_, some l, body⟩ :: rest, v, _, _, fs, hv, hfit, hfs, h => by
      rw [Case.FitsSeq] at h
      rcases h with ⟨w, _, _, hbody, hrest⟩
      simp only [Case.runSeq, Block.run_lexical hcall hv hfit hfs hbody,
        Case.runSeq_lexical hcall value hv hfit hfs hrest]

end

end Code

/-- Calls do not depend on functions that are out of sight. -/
theorem FunctionDef.call_lexical (c : RunContext) :
    ∀ depth, Caller.Lexical c.dialect (FunctionDef.call c depth)
  | 0 => fun _ _ _ _ _ _ _ _ _ => rfl
  | depth + 1 => by
      intro inner outer name f args hfit hnodup hwithin hf
      rcases hfit.callee hnodup hf with ⟨around, hidden, hv, haround, hin, _, hbody⟩
      -- The body is the same whether it runs where it is defined or where it is called.
      have hbody' : ∀ fs, around.Within fs →
          f.body.run c (FunctionDef.call c depth) fs
            = f.body.run c (FunctionDef.call c depth) around :=
        fun fs hfs => Block.run_lexical (FunctionDef.call_lexical c depth) hv haround hfs hbody
      simp only [FunctionDef.call, hbody' outer (hin.trans hwithin), hbody' inner hin]

end YulToolchain
