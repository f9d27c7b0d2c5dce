import YulToolchain.Proofs.CodeGen.Abreast
import YulToolchain.Proofs.Rename.Written

/-!
# Stack Checking Is Modular

Whether a function reaches too deep is its own affair.

In an accepted program in which all functions have different names, the reports that carry
the name of a function are those of one run of generation over its definition
(`generate_attributed`), and two such runs report the same wherever the definition stands
(`Generates.same`). The lines on which it stands play no part, and nothing has to be known
of the functions that it calls, since a call takes as many arguments and leaves as many
values as the analysis has counted.

## Main definitions

* `Block.allFunctions`: The functions defined anywhere inside a block.
* `FunctionDef.onLine`: A definition with all its lines changed.

## Theorems

* `Block.map_located`: The functions of a block are those that are told apart by their places.
* `generate_reports_function`: The reports that carry the name of a function come from a run
  over its definition.
* `stack_checking_is_modular`: They are the same in all programs with that function.
-/

namespace YulToolchain

/-- The functions that some statements define, not those inside them. -/
def Stmt.functionsOf (stmts : List Stmt) : List FunctionDef := stmts.filterMap Stmt.function?

/-- The functions defined anywhere inside a block. -/
def Block.allFunctions (b : Block) : List FunctionDef := Stmt.functionsOf b.allStmts

/-- A definition moved to a line. -/
def FunctionDef.onLine (n : Nat) (f : FunctionDef) : FunctionDef :=
  ⟨n, f.name, f.params.map (TypedName.onLine n), f.returns.map (TypedName.onLine n),
    f.body.onLine n⟩

/-- The line of a function is that of its statement. -/
theorem FunctionDef.stmt_onLine (n : Nat) (f : FunctionDef) :
    f.stmt.onLine n = (f.onLine n).stmt := by
  rw [stmt, Stmt.onLine]
  rfl

section Places

theorem Stmt.functionsOf_append (stmts stmts' : List Stmt) :
    Stmt.functionsOf (stmts ++ stmts') = Stmt.functionsOf stmts ++ Stmt.functionsOf stmts' :=
  List.filterMap_append

/-- Functions of a list of statements, the first one first. -/
theorem Stmt.functionsOf_cons (s : Stmt) (rest : List Stmt) :
    Stmt.functionsOf (s :: rest) = s.function?.toList ++ Stmt.functionsOf rest := by
  rw [functionsOf, List.filterMap_cons]
  cases s.function? <;> rfl

/-- The function that is located is the one that is defined. -/
theorem Stmt.map_located? (s : Stmt) (scope next : Nat) :
    (s.located? scope next).toList.map (·.function) = s.function?.toList := by
  rw [located?]
  cases s.function? <;> rfl

mutual

/-- The functions that are told apart by their places are all there are. -/
theorem Block.map_located : ∀ (b : Block) (id : Nat),
    (b.located id).map (·.function) = b.allFunctions
  | ⟨_, stmts⟩, id => by
      rw [Block.located, Block.allFunctions, Block.allStmts, Stmt.map_allLocatedSeq stmts]
termination_by structural b => b

/-- All located functions of statements are their functions. -/
theorem Stmt.map_allLocatedSeq : ∀ (stmts : List Stmt) (scope next : Nat),
    (Stmt.allLocatedSeq scope next stmts).map (·.function)
      = Stmt.functionsOf (Stmt.allStmtsSeq stmts)
  | [], _, _ => rfl
  | s :: rest, scope, next => by
      rw [Stmt.allLocatedSeq, Stmt.allStmtsSeq, List.map_append, List.map_append, Stmt.map_located?,
        Stmt.map_innerLocated s, Stmt.map_allLocatedSeq rest, Stmt.functionsOf_cons,
        Stmt.functionsOf_append, List.append_assoc]
termination_by structural stmts => stmts

/-- The same inside of a statement. -/
theorem Stmt.map_innerLocated : ∀ (s : Stmt) (next : Nat),
    (s.innerLocated next).map (·.function) = Stmt.functionsOf s.allInner
  | .func _ _ _ _ body, next => by
      rw [Stmt.innerLocated, Stmt.allInner, Block.map_located body, Block.allFunctions]
  | .cond _ _ body, next => by
      rw [Stmt.innerLocated, Stmt.allInner, Block.map_located body, Block.allFunctions]
  | .switch _ _ cases, next => by
      rw [Stmt.innerLocated, Stmt.allInner, Case.map_locatedSeq cases]
  | .loop _ ⟨_, pre⟩ _ post body, next => by
      rw [Stmt.innerLocated, Stmt.allInner, List.map_append, List.map_append,
        Stmt.map_allLocatedSeq pre, Block.map_located body, Block.map_located post,
        Stmt.functionsOf_append, Stmt.functionsOf_append, Block.allStmts, Block.allFunctions,
        Block.allFunctions]
  | .block b, next => by
      rw [Stmt.innerLocated, Stmt.allInner, Block.map_located b, Block.allFunctions]
  | .expr _ _, _ => rfl
  | .assign _ _ _, _ => rfl
  | .decl _ _ _, _ => rfl
  | .brk _, _ => rfl
  | .cont _, _ => rfl
  | .label _ _, _ => rfl
  | .stackAssign _ _, _ => rfl
termination_by structural s => s

/-- The same for cases. -/
theorem Case.map_locatedSeq : ∀ (cases : List Case) (next : Nat),
    (Case.locatedSeq next cases).map (·.function) = Stmt.functionsOf (Case.allStmtsSeq cases)
  | [], _ => rfl
  | ⟨_, _, body⟩ :: rest, next => by
      rw [Case.locatedSeq, Case.allStmtsSeq, List.map_append, Block.map_located body,
        Case.map_locatedSeq rest, Stmt.functionsOf_append, Block.allFunctions]
termination_by structural cases => cases

end

/-- Different names make different functions. -/
theorem Block.distinct_located {code : Block}
    (h : (code.allFunctions.map (·.name)).Nodup) (id : Nat) :
    LocatedFunction.Distinct (code.located id) := by
  rw [LocatedFunction.Distinct]
  rwa [← Block.map_located code id, List.map_map] at h

end Places

section Programs

variable {A B : Type} [Target A] [Target B] [Target.Lawful A] [Target.Lawful B] {d : Dialect}

/-- In accepted code every function has a name. -/
theorem Block.allFunctions_named {code : Block} {ss : Scopes}
    (haccept : YulToolchain.analyze d code = .ok ss) {f : FunctionDef}
    (hf : f ∈ code.allFunctions) : f.name ≠ "" := by
  rcases List.mem_filterMap.mp hf with ⟨s, hs, hfunction⟩
  have hdeclared : f.name ∈ code.allStmts.flatMap Stmt.declaresHere := by
    refine List.mem_flatMap.mpr ⟨s, hs, ?_⟩
    cases s with
    | func line name params returns body =>
        obtain rfl := Option.some.inj hfunction
        exact List.mem_cons_self
    | _ => exact absurd hfunction (by rintro ⟨⟩)
  rw [Block.declared_eq_declarations code 0] at hdeclared
  rcases List.mem_map.mp hdeclared with ⟨decl, hdecl, hname⟩
  exact hname ▸ ((YulToolchain.analyze_found haccept).2 decl hdecl).2.1

/-- The reports of a program that carry the name of a function come from a run over its
    definition. -/
theorem generate_reports_function {code : Block} {scopes : Scopes}
    (haccept : analyze d code = .ok scopes)
    (hdistinct : (code.allFunctions.map (·.name)).Nodup) {f : FunctionDef}
    (hf : f ∈ code.allFunctions) {objects : ObjectNames} {named : Bool} {target target' : A}
    {errors : List StackTooDeep}
    (hrun : generate ⟨d, scopes, objects, named⟩ code target = .ok (errors, target')) :
    ∃ place own, place.function = f ∧ Generates A ⟨d, scopes, objects, named⟩ place own ∧
      errors.filter (·.function = f.name) = (own.filter (·.function = f.name)).reverse := by
  have hplace : f ∈ (code.located 0).map (·.function) := (code.map_located 0).symm ▸ hf
  rcases List.mem_map.mp hplace with ⟨place, hmem, rfl⟩
  have hattributed := generate_attributed (c := ⟨d, scopes, objects, named⟩)
    (analyze_charted haccept).1 (Block.distinct_located hdistinct 0) hrun
  rcases hattributed.inside place hmem (Block.allFunctions_named haccept hf) with
    ⟨own, hgives, hreports⟩
  refine ⟨place, own, rfl, hgives, ?_⟩
  rw [← hreports, List.filter_reverse, List.reverse_reverse]

/-- Two accepted programs in which every function has a name of its own report the same for
    a function that both of them define, whatever else is in them and wherever the definition
    stands. Both can be generated if they can be read and the objects they refer to are
    known. -/
theorem stack_checking_is_modular (hd : d.flavour ≠ .loose) {code code' : Block}
    {scopes scopes' : Scopes} (haccept : analyze d code = .ok scopes)
    (haccept' : analyze d code' = .ok scopes')
    (hdistinct : (code.allFunctions.map (·.name)).Nodup)
    (hdistinct' : (code'.allFunctions.map (·.name)).Nodup) {f f' : FunctionDef}
    (hf : f ∈ code.allFunctions) (hf' : f' ∈ code'.allFunctions)
    (hsame : f.onLine 0 = f'.onLine 0) (objects objects' : ObjectNames) (named named' : Bool)
    (target : A) (other : B) :
    (∀ errors target' errors' other',
      generate ⟨d, scopes, objects, named⟩ code target = .ok (errors, target') →
      generate ⟨d, scopes', objects', named'⟩ code' other = .ok (errors', other') →
      errors.filter (·.function = f.name) = errors'.filter (·.function = f.name)) ∧
    (code.Readable → (∀ name ∈ code.objectNames d, objects.Knows name) →
      ∃ errors target', generate ⟨d, scopes, objects, named⟩ code target = .ok (errors, target')) ∧
    (code'.Readable → (∀ name ∈ code'.objectNames d, objects'.Knows name) →
      ∃ errors other',
        generate ⟨d, scopes', objects', named'⟩ code' other = .ok (errors, other')) := by
  refine ⟨fun errors target' errors' other' hrun hrun' => ?_, fun hr hobjects => ?_,
    fun hr' hobjects => ?_⟩
  · have hname : f.name = f'.name := congrArg (·.name) hsame
    -- Both programs were accepted, so both know their scopes.
    have hcomparable : GenContext.Comparable ⟨d, scopes, objects, named⟩
        ⟨d, scopes', objects', named'⟩ :=
      ⟨rfl, hd, (analyze_charted haccept).2, (analyze_charted haccept').2⟩
    -- The reports for the function are those of its own code in each program.
    rcases generate_reports_function haccept hdistinct hf hrun with ⟨p, own, hp, hgives, hreports⟩
    rcases generate_reports_function haccept' hdistinct' hf' hrun' with
      ⟨p', own', hp', hgives', hreports'⟩
    -- The code is the same but for the lines.
    have hstmt : p.function.stmt.onLine 0 = p'.function.stmt.onLine 0 := by
      rw [hp, hp', FunctionDef.stmt_onLine, FunctionDef.stmt_onLine, hsame]
    rw [hreports, Generates.same hcomparable hstmt hgives hgives', hname, hreports']
  -- An accepted program whose objects are known is generated.
  · rcases generate_keeps_height (c := ⟨d, scopes, objects, named⟩)
      (analyze_resolved hd hr haccept) hobjects target with
      ⟨errors, target', hrun, -⟩
    exact ⟨errors, target', hrun⟩
  · rcases generate_keeps_height (c := ⟨d, scopes', objects', named'⟩)
      (analyze_resolved hd hr' haccept') hobjects other with
      ⟨errors, other', hrun, -⟩
    exact ⟨errors, other', hrun⟩

end Programs

/-- The definition of a function that copies its argument over some variables, none of which
    it uses. -/
def Stmt.crowded (line : Nat) (name : String) (vars : List String) : Stmt :=
  .func line name [⟨line, "x", ""⟩] [⟨line, "y", ""⟩] ⟨line,
    [.decl line (vars.map fun v => ⟨line, v, ""⟩) none,
      .assign line [⟨line, "y"⟩] (.ident line "x")]⟩

/-- A function that overflows, alone and inside a block behind another one that does. -/
theorem stack_checking_is_modular_crowded :
    let vars := ["a", "b", "c", "d", "e", "g", "h", "i", "j", "k", "l", "m", "n", "o", "p", "q",
      "r"]
    let code : Block := ⟨1, [.crowded 1 "f" vars]⟩
    let code' : Block := ⟨1, [.block ⟨1, [.crowded 2 "other" vars, .crowded 3 "f" vars]⟩]⟩
    ∃ scopes scopes', analyze .strictAssembly code = .ok scopes ∧
      analyze .strictAssembly code' = .ok scopes' ∧ ∃ errors target' errors' other',
      generate ⟨.strictAssembly, scopes, ⟨none, []⟩, true⟩ code (Target.fresh : Assembly)
        = .ok (errors, target') ∧
      generate ⟨.strictAssembly, scopes', ⟨none, []⟩, false⟩ code' (Target.fresh : DryRun)
        = .ok (errors', other') ∧
      errors = [⟨"f", "x", 3⟩, ⟨"f", "y", 2⟩] ∧ errors'.length = 4 ∧
      errors.filter (·.function = "f") = errors'.filter (·.function = "f") := by
  -- Everything is evaluated at once.
  intro vars code code'
  have htest : ((analyze .strictAssembly code).toOption.any fun scopes =>
      (analyze .strictAssembly code').toOption.any fun scopes' =>
      (generate ⟨.strictAssembly, scopes, ⟨none, []⟩, true⟩ code
        (Target.fresh : Assembly)).toOption.any fun found =>
      (generate ⟨.strictAssembly, scopes', ⟨none, []⟩, false⟩ code'
        (Target.fresh : DryRun)).toOption.any fun found' =>
      decide (found.1 = [⟨"f", "x", 3⟩, ⟨"f", "y", 2⟩] ∧ found'.1.length = 4)) = true := by
    decide +kernel
  rcases exists_ok_of_any htest with ⟨scopes, haccept, htest⟩
  rcases exists_ok_of_any htest with ⟨scopes', haccept', htest⟩
  rcases exists_ok_of_any htest with ⟨⟨errors, target'⟩, hrun, htest⟩
  rcases exists_ok_of_any htest with ⟨⟨errors', other'⟩, hrun', htest⟩
  have hfound := of_decide_eq_true htest
  -- The reports for the function, by the theorem.
  have hsame := (stack_checking_is_modular (by decide) haccept haccept' (by decide) (by decide)
    List.mem_cons_self (List.mem_cons_of_mem _ List.mem_cons_self) rfl ⟨none, []⟩ ⟨none, []⟩ true
    false (Target.fresh : Assembly) (Target.fresh : DryRun)).1 errors target' errors' other'
    hrun hrun'
  exact ⟨scopes, scopes', haccept, haccept', errors, target', errors', other', hrun, hrun',
    hfound.1, hfound.2, hsame⟩

end YulToolchain
