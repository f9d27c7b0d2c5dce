import YulToolchain.Proofs.Execution.Lexical
import YulToolchain.Proofs.Pass.Becomes

/-!
# Wider Sights

How what is in sight in new code compares to what was in sight in the old code.

Opening a block moves its declarations one scope up. From then on they are in sight
behind the block, where they were not before, so at each place more can be in sight
in the new code than in the old. Nothing goes out of sight, and nobody minds what
is new, because its names are declared only once in the program. `Sight.Widens` says
this. It also says that there is room for the names that are still to be declared:
of those that are declared only once, none is taken yet.

## Main definitions

* `Stmt.pendingSeq`: The names that are still to be declared at the start of some
  statements.
* `Sight.Widens`: One sight is wider than another.
* `FunctionScopes.site`: The blocks around the definition of a function.
* `Sight.Offers`: The functions of some statements are in sight.

## Theorems

* `Expr.Yields.widen`: Expressions are well formed in a wider sight.
* `Sight.Widens.free`: So are declarations.
* `Sight.Widens.enter`, `Sight.Widens.splice`, `Sight.Widens.enterFunction`,
  `Sight.Widens.after`: Going along with the code.
-/

namespace YulToolchain

/-- The names that are still to be declared at the start of a statement. The name of a
    function is not among them, as it was declared with the block around it. -/
def Stmt.pending (s : Stmt) : List String :=
  (match s with
    | .func _ _ params returns _ => (params ++ returns).map (·.name)
    | s => s.declaresHere) ++ s.allInner.flatMap Stmt.declaresHere

/-- The names that are still to be declared at the start of some statements. -/
def Stmt.pendingSeq (stmts : List Stmt) : List String := stmts.flatMap Stmt.pending

@[simp]
theorem Stmt.pendingSeq_nil : Stmt.pendingSeq [] = [] := rfl

@[simp]
theorem Stmt.pendingSeq_cons (s : Stmt) (rest : List Stmt) :
    Stmt.pendingSeq (s :: rest) = s.pending ++ Stmt.pendingSeq rest := List.flatMap_cons

@[simp]
theorem Stmt.pendingSeq_append (stmts rest : List Stmt) :
    Stmt.pendingSeq (stmts ++ rest) = Stmt.pendingSeq stmts ++ Stmt.pendingSeq rest :=
  List.flatMap_append

/-- The names declared in a block are those of its functions and those that are still
    to be declared at its start. -/
theorem Block.count_declared (line : Nat) (stmts : List Stmt) (x : String) :
    (⟨line, stmts⟩ : Block).declared.count x
      = ((stmts.filterMap Stmt.function?).map (·.name)).count x
        + (Stmt.pendingSeq stmts).count x := by
  rw [Block.declared, Block.allStmts]
  induction stmts with
  | nil => rfl
  | cons s rest ih =>
      simp only [Stmt.allStmtsSeq, List.flatMap_cons, List.flatMap_append, List.count_append, ih,
        Stmt.pendingSeq_cons]
      -- The name of a function is declared by the block, and the rest is pending.
      cases s with
      | func line name params returns body =>
          simp only [Stmt.declaresHere, Stmt.pending, Stmt.function?, List.filterMap_cons,
            List.map_cons, List.count_cons, List.count_append]
          omega
      | _ =>
          simp only [Stmt.pending, Stmt.function?, List.filterMap_cons, List.count_append]
          omega

/-- A variable declared directly is pending. -/
theorem Stmt.count_declaredSeq_le (stmts : List Stmt) (x : String) :
    (Stmt.declaredSeq stmts).count x ≤ (Stmt.pendingSeq stmts).count x := by
  induction stmts with
  | nil => exact Nat.le_refl _
  | cons s rest ih =>
      rw [Stmt.declaredSeq_cons, Stmt.pendingSeq_cons, List.count_append, List.count_append]
      have hs : s.declaresVars.count x ≤ s.pending.count x := by
        cases s with
        | decl line vars value =>
            simp only [Stmt.pending, List.count_append]
            exact Nat.le_add_right _ _
        | _ => exact Nat.zero_le _
      omega

/-- The blocks around the definition of a function. -/
def FunctionScopes.site (name : String) : FunctionScopes → FunctionScopes
  | [] => []
  | fs :: outer => if (findFunction? name fs).isSome then fs :: outer else site name outer

/-- Every function found in one list of blocks has a namesake in another one that can be
    called the same way. -/
def FunctionScopes.Resolve (fs fs' : FunctionScopes) : Prop :=
  ∀ name f, fs.find? name = some f → ∃ f', fs'.find? name = some f' ∧ f'.header = f.header

theorem FunctionScopes.Within.resolve {fs fs' : FunctionScopes} (h : fs.Within fs') :
    fs.Resolve fs' := fun name f hf => ⟨f, h name f hf, rfl⟩

/-- The functions of a block, when those of its new version are found already. -/
theorem FunctionScopes.Resolve.cons {fs fs' : FunctionScopes} (h : fs.Resolve fs')
    {U : String → Prop} {stmts out : List Stmt} (hmirrors : Stmt.Mirrors U stmts out)
    (hout : ∀ f ∈ out.filterMap Stmt.function?, fs'.find? f.name = some f) :
    FunctionScopes.Resolve (stmts.filterMap Stmt.function? :: fs) fs' := by
  intro name f hf
  rw [FunctionScopes.find?] at hf
  cases hfind : findFunction? name (stmts.filterMap Stmt.function?) with
  -- The name is found further out.
  | none =>
      rw [hfind] at hf
      exact h name f hf
  -- The name is one of the block.
  | some g =>
      rw [hfind] at hf
      obtain rfl := Option.some.inj hf
      have hmem := List.mem_reverse.mp (List.mem_of_find?_eq_some hfind)
      have hbeq := List.find?_some hfind
      have hname : g.name = name := beq_iff_eq.mp hbeq
      rcases hmirrors.found g hmem with ⟨g', hg', hheader⟩
      have hname' : g'.name = name := (congrArg (·.1) hheader).trans hname
      exact ⟨g', hname' ▸ hout g' hg', hheader⟩

namespace Sight

theorem count_taken (v : Sight) (x : String) :
    v.taken.count x = v.functionNames.count x + v.visible.count x + v.hidden.count x := by
  rw [taken, List.count_append, List.count_append]

/-- A block takes the names of its functions. -/
theorem count_taken_enter (v : Sight) (stmts : List Stmt) (x : String) :
    (v.enter stmts).taken.count x
      = ((stmts.filterMap Stmt.function?).map (·.name)).count x + v.taken.count x := by
  rw [count_taken, count_taken, visible_enter]
  simp only [enter, functionNames, List.flatten_cons, List.map_append, List.count_append]
  omega

/-- A declaration takes at most its names. -/
theorem count_taken_declare_le (v : Sight) (names : List String) (x : String) :
    (v.declare names).taken.count x ≤ v.taken.count x + names.count x := by
  rw [count_taken, count_taken, hidden_declare, functionNames, functions_declare]
  rcases v with ⟨functions, _ | ⟨scope, outer⟩, hidden⟩
  · simp only [declare, functionNames]
    omega
  · simp only [declare, visible, functionNames, List.flatten_cons, List.count_append]
    omega

/-- A function takes the names of its frame. -/
theorem count_taken_enterFunction (v : Sight) (names : List String) (x : String) :
    (v.enterFunction names).taken.count x = names.count x + v.taken.count x := by
  rw [count_taken, count_taken]
  simp only [enterFunction, functionNames, visible, List.flatten_cons, List.flatten_nil,
    List.append_nil, List.count_append]
  omega

theorem mem_taken_iff_count {v : Sight} {x : String} : x ∈ v.taken ↔ 1 ≤ v.taken.count x :=
  List.one_le_count_iff.symm

/-- A declaration only adds taken names. -/
theorem taken_subset_declare (v : Sight) (names : List String) :
    v.taken ⊆ (v.declare names).taken := by
  intro x hx
  rw [mem_taken] at hx ⊢
  rw [functionNames, functions_declare, hidden_declare]
  exact hx.imp_right fun h => h.imp_left fun h => v.visible_subset_declare names h

/-- One sight is wider than another, and has room for names that are to be declared. -/
structure Widens (U : String → Prop) (v v' : Sight) (names : List String) : Prop where
  visible : v.visible ⊆ v'.visible
  functions : v.functions.Resolve v'.functions
  taken : ∀ x ∈ v'.taken, x ∈ v.taken ∨ U x
  room : ∀ x, U x → v'.taken.count x + names.count x ≤ 1

/-- The functions of some statements are in sight, in the innermost block. -/
def Offers (v : Sight) (stmts : List Stmt) : Prop :=
  ∀ f ∈ stmts.filterMap Stmt.function?,
    v.functions.find? f.name = some f ∧ v.functions.site f.name = v.functions

theorem Offers.append {v : Sight} {stmts rest : List Stmt} :
    v.Offers (stmts ++ rest) ↔ v.Offers stmts ∧ v.Offers rest := by
  rw [Offers, List.filterMap_append, List.forall_mem_append]
  rfl

/-- Statements before it do not change what a list offers. -/
theorem Offers.after {v : Sight} {stmts out : List Stmt} (h : v.Offers stmts) :
    (v.afterSeq out).Offers stmts := by
  intro f hf
  rw [functions_afterSeq]
  exact h f hf

/-- A function is found by its name if the names are distinct. -/
theorem findFunction?_eq_some {fs : List FunctionDef} (hnodup : (fs.map (·.name)).Nodup)
    {f : FunctionDef} (hf : f ∈ fs) : findFunction? f.name fs = some f := by
  rw [findFunction?]
  have hsome : (fs.reverse.find? (·.name == f.name)).isSome := by
    rw [List.find?_isSome]
    exact ⟨f, List.mem_reverse.mpr hf, beq_self_eq_true _⟩
  rcases Option.isSome_iff_exists.mp hsome with ⟨g, hg⟩
  have hbeq := List.find?_some hg
  have hname : g.name = f.name := beq_iff_eq.mp hbeq
  have hmem : g ∈ fs := List.mem_reverse.mp (List.mem_of_find?_eq_some hg)
  rw [hg, List.inj_on_of_nodup_map hnodup hmem hf hname]

/-- A block offers its own functions. -/
theorem Offers.enter {v : Sight} {stmts : List Stmt}
    (hnodup : ((stmts.filterMap Stmt.function?).map (·.name)).Nodup) :
    (v.enter stmts).Offers stmts := by
  intro f hf
  have hfind := findFunction?_eq_some hnodup hf
  rw [functions_enter, FunctionScopes.find?, FunctionScopes.site, hfind]
  exact ⟨rfl, rfl⟩

/-- What is found further out is not hidden by the functions of a block. -/
theorem Free.within {d : Dialect} {v : Sight} {stmts : List Stmt}
    (hfree : v.Free d ((stmts.filterMap Stmt.function?).map (·.name))) :
    v.functions.Within (v.enter stmts).functions := by
  intro name f hf
  have hnone := FunctionScopes.findFunction?_eq_none fun hmem =>
    (hfree.2 name hmem).2.2 (mem_taken.mpr (Or.inl (mem_functionNames hf)))
  rw [functions_enter, FunctionScopes.find?, hnone]
  exact hf

namespace Widens

variable {U : String → Prop} {v v' : Sight} {names names' : List String}

theorem fewer (h : Widens U v v' names) (hle : ∀ x, names'.count x ≤ names.count x) :
    Widens U v v' names' :=
  ⟨h.visible, h.functions, h.taken, fun x hx =>
    Nat.le_trans (Nat.add_le_add_left (hle x) _) (h.room x hx)⟩

theorem left (h : Widens U v v' (names ++ names')) : Widens U v v' names := by
  refine h.fewer fun x => ?_
  rw [List.count_append]
  exact Nat.le_add_right _ _

theorem right (h : Widens U v v' (names ++ names')) : Widens U v v' names' := by
  refine h.fewer fun x => ?_
  rw [List.count_append]
  exact Nat.le_add_left _ _

/-- A name that may be declared is not taken in the wider sight, as there is room for it. -/
theorem not_taken (h : Widens U v v' names) {x : String} (hx : x ∈ names)
    (hfree : x ∉ v.taken) : x ∉ v'.taken := by
  intro hmem
  rcases h.taken x hmem with hold | hU
  · exact hfree hold
  · have hroom := h.room x hU
    rw [mem_taken_iff_count] at hmem
    rw [← List.one_le_count_iff] at hx
    omega

theorem free (h : Widens U v v' names) {d : Dialect} (hfree : v.Free d names) :
    v'.Free d names :=
  ⟨hfree.1, fun x hx => ⟨(hfree.2 x hx).1, (hfree.2 x hx).2.1,
    h.not_taken hx (hfree.2 x hx).2.2⟩⟩

/-- Declarations in the old code are there in the new one, and what is there besides is
    declared only once. -/
theorem declare (h : Widens U v v' (names' ++ names)) {old : List String}
    (hv : v.vars ≠ []) (hv' : v'.vars ≠ []) (hold : old ⊆ names')
    (hnew : ∀ x ∈ names', x ∈ old ∨ U x) :
    Widens U (v.declare old) (v'.declare names') names := by
  refine ⟨fun x hx => ?_, ?_, fun x hx => ?_, fun x hx => ?_⟩
  -- A visible name is an old declared one or was visible before.
  · rcases mem_visible_declare hx with hx | hx
    · exact v'.visible_subset_declare names' (h.visible hx)
    · exact mem_visible_after_decl hv' (hold hx)
  · rw [functions_declare, functions_declare]
    exact h.functions
  -- A taken name is declared, and then by the old code or once only.
  · rcases (mem_taken_declare hv').mp hx with hx | hx
    · refine (hnew x hx).imp_left fun hx => ?_
      exact mem_taken.mpr (Or.inr (Or.inl (mem_visible_after_decl hv hx)))
    · exact (h.taken x hx).imp_left fun hx => v.taken_subset_declare old hx
  -- Each name has room for what is still pending.
  · have hroom := h.room x hx
    have hle := v'.count_taken_declare_le names' x
    rw [List.count_append] at hroom
    omega

/-- The frame of a function has pending names, the same on both sides. -/
theorem enterFunction (h : Widens U v v' (names' ++ names)) :
    Widens U (v.enterFunction names') (v'.enterFunction names') names := by
  refine ⟨List.Subset.refl _, h.functions, fun x hx => ?_, fun x hx => ?_⟩
  · rw [mem_taken_iff_count, count_taken_enterFunction] at hx
    rw [mem_taken_iff_count, count_taken_enterFunction]
    by_cases hmem : x ∈ names'
    · rw [← List.one_le_count_iff] at hmem
      exact Or.inl (Nat.le_trans hmem (Nat.le_add_right _ _))
    · rw [List.count_eq_zero_of_not_mem hmem, Nat.zero_add] at hx ⊢
      rw [← mem_taken_iff_count] at hx ⊢
      exact h.taken x hx
  · have hroom := h.room x hx
    rw [List.count_append] at hroom
    rw [count_taken_enterFunction]
    omega

/-- A block whose statements are spliced: the new code stays where it is. -/
theorem splice (h : Widens U v v' names) {stmts out : List Stmt}
    (hmirrors : Stmt.Mirrors U stmts out) (hoffers : v'.Offers out) :
    Widens U (v.enter stmts) v' names := by
  refine ⟨h.visible, h.functions.cons hmirrors fun f hf => (hoffers f hf).1, fun x hx => ?_, h.room⟩
  refine (h.taken x hx).imp_left fun hx => ?_
  rw [mem_taken_iff_count] at hx ⊢
  rw [count_taken_enter]
  omega

/-- A block that stays a block. -/
theorem enter {line : Nat} {stmts out : List Stmt} {d : Dialect}
    (h : Widens U v v' ((⟨line, out⟩ : Block).declared ++ names))
    (hmirrors : Stmt.Mirrors U stmts out)
    (hfree : v'.Free d ((out.filterMap Stmt.function?).map (·.name))) :
    Widens U (v.enter stmts) (v'.enter out) (Stmt.pendingSeq out ++ names) := by
  refine ⟨h.visible, FunctionScopes.Resolve.cons (fun name f hf => ?_) hmirrors
    (fun f hf => (Offers.enter hfree.1 f hf).1), fun x hx => ?_, fun x hx => ?_⟩
  · rcases h.functions name f hf with ⟨f', hf', hheader⟩
    exact ⟨f', hfree.within name f' hf', hheader⟩
  -- A name declared once needs room only.
  · by_cases hU : U x
    · exact Or.inr hU
    · have hnames := hmirrors.names x hU
      rw [mem_taken_iff_count, count_taken_enter] at hx ⊢
      -- Another taken name was taken before, or it is a function of both blocks.
      by_cases hmem : x ∈ v'.taken
      · have hold := (h.taken x hmem).resolve_right hU
        rw [mem_taken_iff_count] at hold
        exact Or.inl (Nat.le_trans hold (Nat.le_add_left _ _))
      · rw [List.count_eq_zero_of_not_mem hmem] at hx
        exact Or.inl (by omega)
  · have hroom := h.room x hx
    rw [List.count_append, Block.count_declared] at hroom
    rw [count_taken_enter, List.count_append]
    omega

/-- A block without declarations. -/
theorem enter_nil (h : Widens U v v' names) : Widens U v (v'.enter []) names := by
  refine ⟨h.visible, h.functions, fun x hx => ?_, fun x hx => ?_⟩
  · rw [mem_taken_iff_count, count_taken_enter] at hx
    refine h.taken x (mem_taken_iff_count.mpr ?_)
    simpa only [List.filterMap_nil, List.map_nil, List.count_nil, Nat.zero_add] using hx
  · rw [count_taken_enter, List.filterMap_nil, List.map_nil, List.count_nil, Nat.zero_add]
    exact h.room x hx

/-- Behind a statement and what it becomes. -/
theorem after {c : RunContext} {r : Liberty} {k : Known} {s : Stmt} {out : List Stmt}
    (h : Widens U v v' (Stmt.pendingSeq out ++ names)) (hs : s.Becomes (.running c U r) k out)
    (hv : v.vars ≠ []) (hv' : v'.vars ≠ []) : Widens U (v.after s) (v'.afterSeq out) names := by
  rw [after_eq, afterSeq_eq]
  refine declare (h.fewer fun x => ?_) hv hv' hs.vars.1 hs.vars.2
  have hle := Stmt.count_declaredSeq_le out x
  rw [List.count_append, List.count_append]
  omega

end Widens

/-- There is a scope behind statements if there was one before. -/
theorem vars_afterSeq_ne {v : Sight} (h : v.vars ≠ []) (stmts : List Stmt) :
    (v.afterSeq stmts).vars ≠ [] := by
  induction stmts generalizing v with
  | nil => exact h
  | cons s rest ih => exact ih (vars_after_ne h s)

/-- Behind some statements and what they become. -/
theorem Widens.afterSeq {U : String → Prop} {r : Liberty} {c : RunContext} {names : List String} :
    ∀ {stmts out : List Stmt} {k : Known} {v v' : Sight},
    Widens U v v' (Stmt.pendingSeq out ++ names) → Stmt.BecomesSeq (.running c U r) k stmts out →
    v.vars ≠ [] → v'.vars ≠ [] → Widens U (v.afterSeq stmts) (v'.afterSeq out) names
  | [], out, k, v, v', h, hs, _, _ => by
      rw [Stmt.becomesSeq_nil.mp hs] at h ⊢
      exact h
  | s :: rest, out, k, v, v', h, hs, hv, hv' => by
      rcases Stmt.becomesSeq_cons.mp hs with ⟨first, more, k₁, rfl, hs, _, hmore⟩
      rw [Stmt.pendingSeq_append, List.append_assoc] at h
      rw [afterSeq_cons, afterSeq_append]
      exact Widens.afterSeq (h.after hs hv hv') hmore (vars_after_ne hv s)
        (vars_afterSeq_ne hv' first)

end Sight

mutual

/-- An expression is well formed in a wider sight. -/
theorem Expr.Yields.widen {d : Dialect} {v v' : Sight} (hvisible : v.visible ⊆ v'.visible)
    (hfunctions : v.functions.Resolve v'.functions) : ∀ {e : Expr} {n : Nat}, e.Yields d v n →
      e.Yields d v' n
  | .literal _, _, h => by
      rw [Expr.Yields] at h ⊢
      exact h
  | .ident _ _, _, h => by
      rw [Expr.Yields] at h ⊢
      exact ⟨hvisible h.1, h.2⟩
  | .instr _ _ args, _, h => by
      rw [Expr.Yields] at h ⊢
      exact ⟨h.1, h.2.1, h.2.2.1, Expr.YieldOnes.widen hvisible hfunctions h.2.2.2⟩
  | .call _ name args, _, h => by
      simp only [Expr.Yields] at h ⊢
      cases hb : d.builtin? name with
      | none =>
          simp only [hb] at h ⊢
          rcases h with ⟨f, hf, hlength, hn, hargs⟩
          -- The function found there has the same header.
          rcases hfunctions name f hf with ⟨f', hf', hheader⟩
          have hparams : f'.params = f.params := congrArg (·.2.1) hheader
          have hreturns : f'.returns = f.returns := congrArg (·.2.2) hheader
          exact ⟨f', hf', hparams ▸ hlength, hreturns ▸ hn,
            Expr.YieldOnes.widen hvisible hfunctions hargs⟩
      | some b =>
          simp only [hb] at h ⊢
          refine ⟨h.1, h.2.1, ?_⟩
          split
          · rename_i hlit
            simpa only [hlit, if_true] using h.2.2
          · rename_i hlit
            rw [if_neg hlit] at h
            exact Expr.YieldOnes.widen hvisible hfunctions h.2.2

/-- Arguments yield one value each where more is visible and the functions resolve. -/
theorem Expr.YieldOnes.widen {d : Dialect} {v v' : Sight} (hvisible : v.visible ⊆ v'.visible)
    (hfunctions : v.functions.Resolve v'.functions) : ∀ {es : List Expr},
      Expr.YieldOnes d v es → Expr.YieldOnes d v' es
  | [], h => h
  | e :: rest, h => by
      rw [Expr.YieldOnes] at h ⊢
      exact ⟨Expr.Yields.widen hvisible hfunctions h.1,
        Expr.YieldOnes.widen hvisible hfunctions h.2⟩

end

end YulToolchain
