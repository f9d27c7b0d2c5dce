import YulToolchain.Proofs.Rename.Alpha
import YulToolchain.Proofs.Static.Resolved

/-!
# Respelled Code Differs in Names Alone

Code whose names are spelled by their declarations is alpha-equivalent to what it
was before.

The spelling of a name depends on the scope it is used in, and the pairing of names at a
place knows nothing of scopes. What connects the two is that every variable in sight
stands next to its spelling in the scope of the place. A scope finds what is in sight
around it the same way, so entering one does not change the spelling of any name in
sight. That is all that resolved code has to offer, and all that is needed.

New names must not be those of builtins. A call of a function would otherwise become
that of a builtin.

## Main definitions

* `Scopes.Clear`: No name is spelled as a builtin.
* `Pairing.Spells`: What is in sight stands next to its spelling.

## Theorems

* `Pairing.Spells.enter`, `Pairing.Spells.after`, `Pairing.Spells.enterFunction`: Going
  along with the code.
* `Expr.alphaEq_respell`, `Block.alphaEq_respell`: Resolved code differs from its
  respelling in names alone.
-/

namespace YulToolchain

/-- No name is spelled as a builtin, unless it is that of a builtin. -/
def Scopes.Clear (d : Dialect) (ss : Scopes) (names : Declaration → String) : Prop :=
  ∀ scope x, d.builtin? x = none → d.builtin? (ss.spelling d names scope x) = none

/-- Every variable and every function in sight stands next to its spelling in a scope. -/
structure Pairing.Spells (f : Spelling) (scope : Nat) (v : Sight) (p : Pairing) : Prop where
  vars : p.vars = v.vars.map (·.map fun x => (x, f scope x))
  functions : ∀ x g, v.functions.find? x = some g →
    ∃ g', (g, g') ∈ p.functions.flatten ∧ g'.name = f scope x

namespace Pairing.Spells

variable {f : Spelling} {scope : Nat} {v : Sight} {p : Pairing}

theorem empty (f : Spelling) (scope : Nat) : Pairing.empty.Spells f scope .empty :=
  ⟨rfl, fun _ _ h => absurd h (by rintro ⟨⟩)⟩

theorem variable_mem (h : p.Spells f scope v) {x : String} (hx : x ∈ v.visible) :
    (x, f scope x) ∈ p.vars.flatten := by
  rw [h.vars, ← List.map_flatten]
  exact List.mem_map_of_mem hx

theorem function_mem (h : p.Spells f scope v) {x : String} {g : FunctionDef}
    (hg : v.functions.find? x = some g) :
    ∃ g', g.name = x ∧ (g, g') ∈ p.functions.flatten ∧ g'.name = f scope x := by
  rcases h.functions x g hg with ⟨g', hmem, hname⟩
  rcases FunctionScopes.find?_split hg with ⟨_, _, _, _, _, hx, _⟩
  exact ⟨g', hx, hmem, hname⟩

/-- The functions that some statements define stand next to those that their
    respellings define. -/
theorem zip_functions (f : Spelling) (scope : Nat) {g : FunctionDef} :
    ∀ {stmts : List Stmt} (next : Nat), g ∈ stmts.filterMap Stmt.function? →
      ∃ g', (g, g') ∈ (stmts.filterMap Stmt.function?).zip
          ((Stmt.respellSeq f scope next stmts).filterMap Stmt.function?) ∧
        g'.name = f scope g.name
  | [], _, h => absurd h List.not_mem_nil
  | s :: rest, next, h => by
      rw [Stmt.respellSeq]
      have ih : g ∈ rest.filterMap Stmt.function? → _ := zip_functions f scope (next + s.scopeCount)
      cases s with
      -- The definition is this one or one of the others.
      | func line name params returns body =>
          simp only [Stmt.respell, List.filterMap_cons, Stmt.function?, List.zip_cons_cons] at h ⊢
          rcases List.mem_cons.mp h with rfl | h
          · exact ⟨_, List.mem_cons_self, rfl⟩
          · rcases ih h with ⟨g', hmem, hname⟩
            exact ⟨g', List.mem_cons_of_mem _ hmem, hname⟩
      | loop line pre test post body =>
          cases pre
          exact ih h
      | _ => exact ih h

/-- Going into a block. -/
theorem enter {d : Dialect} {ss : Scopes} {names : Declaration → String} {id : Nat}
    (h : p.Spells (ss.spelling d names) scope v) (hin : ss.Inherits id scope v) (next : Nat)
    (stmts : List Stmt) :
    (p.enter stmts (Stmt.respellSeq (ss.spelling d names) id next stmts)).Spells
      (ss.spelling d names) id (v.enter stmts) := by
  refine ⟨?_, ?_⟩
  -- Variables outside are spelled the same from inside.
  · rw [Pairing.enter, Sight.vars_enter, List.map_cons, List.map_nil, h.vars]
    refine congrArg ([] :: ·) ?_
    refine List.map_congr_left fun scopeVars hscope => List.map_congr_left fun x hx => ?_
    rw [Scopes.spelling_congr (hin.vars x (List.mem_flatten.mpr ⟨scopeVars, hscope, hx⟩))]
  · intro x g hg
    rw [Sight.functions_enter, FunctionScopes.find?] at hg
    rw [Pairing.enter, List.flatten_cons]
    -- The function is one further out, or one of the block itself.
    rcases hhere : findFunction? x (stmts.filterMap Stmt.function?) with _ | g₀
    · rw [hhere] at hg
      rcases h.functions x g hg with ⟨g', hmem, hname⟩
      refine ⟨g', List.mem_append_right _ hmem, hname.trans ?_⟩
      exact (Scopes.spelling_congr (hin.functions x g hg)).symm
    · rw [hhere] at hg
      obtain rfl := Option.some.inj hg
      have hmem := List.mem_reverse.mp (List.mem_of_find?_eq_some hhere)
      have hx : g₀.name = x := by simpa only [beq_iff_eq] using List.find?_some hhere
      rcases zip_functions (ss.spelling d names) id next hmem with ⟨g', hg', hname⟩
      rw [hx] at hname
      exact ⟨g', List.mem_append_left _ hg', hname⟩

/-- Going into the body of a function. -/
theorem enterFunction {d : Dialect} {ss : Scopes} {names : Declaration → String} {next : Nat}
    (h : p.Spells (ss.spelling d names) scope v)
    (hin : ∀ x g, v.functions.find? x = some g → ss.lookup next x = ss.lookup scope x)
    (xs : List String) :
    Pairing.Spells (ss.spelling d names) next (v.enterFunction xs)
      ⟨p.functions, [xs.map fun x => (x, ss.spelling d names next x)]⟩ := by
  refine ⟨rfl, fun x g hg => ?_⟩
  rcases h.functions x g hg with ⟨g', hmem, hname⟩
  exact ⟨g', hmem, hname.trans (Scopes.spelling_congr (hin x g hg)).symm⟩

/-- A renamed statement declares the spellings. -/
theorem declaresVars_respell (f : Spelling) (scope next : Nat) (s : Stmt) :
    (s.respell f scope next).declaresVars = s.declaresVars.map (f scope) := by
  cases s with
  | decl line vars value =>
      simp only [Stmt.respell, Stmt.declaresVars, List.map_map]
      rfl
  | loop line pre test post body =>
      cases pre
      rfl
  | _ => rfl

/-- Going on behind a statement. -/
theorem after (h : p.Spells f scope v) (next : Nat) (s : Stmt) :
    (p.after s (s.respell f scope next)).Spells f scope (v.after s) := by
  have hzip : s.declaresVars.zip (s.respell f scope next).declaresVars
      = s.declaresVars.map fun x => (x, f scope x) := by
    rw [declaresVars_respell, List.map_prod_left_eq_zip]
  rw [Pairing.after, hzip, Sight.after_eq]
  have hvars := h.vars
  refine ⟨?_, fun x g hg => ?_⟩
  -- The declared variables are paired in the innermost scope, if there is one.
  · rw [Pairing.declare, Sight.declare]
    rcases hv : v.vars with _ | ⟨here, outer⟩
    · rw [hv] at hvars
      simp only [hvars, List.map_nil, hv]
    · rw [hv, List.map_cons] at hvars
      simp only [hvars, List.map_cons, List.map_append]
  · rw [Sight.functions_declare] at hg
    rcases h.functions x g hg with ⟨g', hmem, hname⟩
    refine ⟨g', ?_, hname⟩
    rw [Pairing.declare]
    split
    · exact hmem
    · exact hmem

theorem afterSeq : ∀ (stmts : List Stmt) {v : Sight} {p : Pairing} (next : Nat),
    p.Spells f scope v →
      (p.afterSeq stmts (Stmt.respellSeq f scope next stmts)).Spells f scope (v.afterSeq stmts)
  | [], _, _, _, h => h
  | s :: _, _, _, next, h => by
      rw [Stmt.respellSeq, Pairing.afterSeq, Sight.afterSeq_cons]
      exact afterSeq _ _ (h.after next s)

end Pairing.Spells

section Code

variable {d : Dialect} {ss : Scopes} {names : Declaration → String}

mutual

/-- A well-formed expression differs from its respelling in names alone. -/
theorem Expr.alphaEq_respell (hclear : ss.Clear d names) {v : Sight} {scope : Nat} {p : Pairing}
    (hp : p.Spells (ss.spelling d names) scope v) : ∀ {e : Expr} {n : Nat}, e.Yields d v n →
      e.AlphaEq d p (e.respell (ss.spelling d names scope))
  | .literal l, _, _ => by
      rw [Expr.respell]
      exact .literal l
  | .ident line x, _, h => by
      rw [Expr.Yields] at h
      rw [Expr.respell]
      exact .ident line line (hp.variable_mem h.1)
  | .instr line op args, _, h => by
      rw [Expr.Yields] at h
      rw [Expr.respell]
      exact .instr line line op (Expr.alphaEqAll_respell hclear hp h.2.2.2)
  | .call line x args, _, h => by
      simp only [Expr.Yields] at h
      rw [Expr.respell]
      rcases hb : d.builtin? x with _ | b
      · simp only [hb] at h
        rcases h with ⟨g, hg, _, _, hargs⟩
        -- The function is paired with its renaming, and that is no builtin.
        rcases hp.function_mem hg with ⟨g', rfl, hmem, hname⟩
        have hb' := hclear scope g.name hb
        rw [← hname] at hb' ⊢
        exact .call line line hb hb' hmem (Expr.alphaEqAll_respell hclear hp hargs)
      · simp only [hb] at h
        rw [Scopes.spelling_builtin hb]
        refine .builtin line line hb ?_
        rcases h with ⟨_, _, hargs⟩
        -- Literal arguments have no names.
        split at hargs
        · exact Expr.alphaEqAll_literals hargs
        · exact Expr.alphaEqAll_respell hclear hp hargs

theorem Expr.alphaEqAll_respell (hclear : ss.Clear d names) {v : Sight} {scope : Nat}
    {p : Pairing} (hp : p.Spells (ss.spelling d names) scope v) : ∀ {es : List Expr},
    Expr.YieldOnes d v es → Expr.AlphaEqAll d p es (Expr.respellAll (ss.spelling d names scope) es)
  | [], _ => by
      rw [Expr.respellAll]
      exact .nil
  | e :: rest, h => by
      rw [Expr.YieldOnes] at h
      rw [Expr.respellAll]
      exact .cons (Expr.alphaEq_respell hclear hp h.1) (Expr.alphaEqAll_respell hclear hp h.2)

/-- The names of objects are text and stay as they are. -/
theorem Expr.alphaEqAll_literals {p : Pairing} {g : String → String} : ∀ {es : List Expr},
    (∀ e ∈ es, e.Textual) → Expr.AlphaEqAll d p es (Expr.respellAll g es)
  | [], _ => by
      rw [Expr.respellAll]
      exact .nil
  | .literal l :: rest, h => by
      rw [Expr.respellAll, Expr.respell]
      exact .cons (.literal l)
        (Expr.alphaEqAll_literals fun e he => h e (List.mem_cons_of_mem _ he))
  | .ident _ _ :: _, h => False.elim (h _ List.mem_cons_self)
  | .instr _ _ _ :: _, h => False.elim (h _ List.mem_cons_self)
  | .call _ _ _ :: _, h => False.elim (h _ List.mem_cons_self)

end

theorem Identifier.forall₂_respell {v : Sight} {scope : Nat} {p : Pairing}
    (hp : p.Spells (ss.spelling d names) scope v) {targets : List Identifier}
    (h : ∀ t ∈ targets, t.name ∈ v.visible) :
    List.Forall₂ (fun t t' : Identifier => (t.name, t'.name) ∈ p.vars.flatten) targets
      (targets.map (·.respell (ss.spelling d names scope))) := by
  rw [List.forall₂_map_right_iff, List.forall₂_same]
  exact fun t ht => hp.variable_mem (h t ht)

/-- The parameters and return variables of a function next to their respellings. -/
theorem TypedName.zip_respell (g : String → String) (params returns : List TypedName) :
    ((params ++ returns).map (·.name)).zip
        (((params.map (·.respell g)) ++ (returns.map (·.respell g))).map (·.name))
      = ((params ++ returns).map (·.name)).map fun x => (x, g x) := by
  have hnames : ((params.map (·.respell g)) ++ (returns.map (·.respell g))).map (·.name)
      = ((params ++ returns).map (·.name)).map g := by
    rw [← List.map_append, List.map_map, List.map_map]
    rfl
  rw [hnames, List.map_prod_left_eq_zip]

mutual

/-- A resolved block differs from its respelling in names alone. -/
theorem Block.alphaEq_respell (hclear : ss.Clear d names) : ∀ {b : Block} {v : Sight}
    {p : Pairing} {scope id : Nat} {inLoop : Bool}, b.Resolved d ss v scope id inLoop →
    p.Spells (ss.spelling d names) scope v →
      b.AlphaEq d p (b.respell (ss.spelling d names) id)
  | ⟨line, stmts⟩, v, p, scope, id, _, h, hp => by
      rw [Block.Resolved] at h
      rw [Block.respell]
      exact .block line line
        (Stmt.alphaEqSeq_respell hclear h.2.2.2 (hp.enter h.2.1 (id + 1) stmts))

/-- Renamed statements are equal to the statements up to names. -/
theorem Stmt.alphaEqSeq_respell (hclear : ss.Clear d names) : ∀ {stmts : List Stmt} {v : Sight}
    {p : Pairing} {scope next : Nat} {inLoop : Bool},
    Stmt.ResolvedSeq d ss v scope next inLoop stmts → p.Spells (ss.spelling d names) scope v →
      Stmt.AlphaEqSeq d p stmts (Stmt.respellSeq (ss.spelling d names) scope next stmts)
  | [], _, _, _, _, _, _, _ => by
      rw [Stmt.respellSeq]
      exact .nil
  | s :: rest, v, p, scope, next, _, h, hp => by
      rw [Stmt.ResolvedSeq] at h
      rw [Stmt.respellSeq]
      exact .cons (Stmt.alphaEq_respell hclear h.1 hp)
        (Stmt.alphaEqSeq_respell hclear h.2 (hp.after next s))

/-- A resolved statement differs from its respelling in names alone. -/
theorem Stmt.alphaEq_respell (hclear : ss.Clear d names) : ∀ {s : Stmt} {v : Sight}
    {p : Pairing} {scope next : Nat} {inLoop : Bool}, s.Resolved d ss v scope next inLoop →
    p.Spells (ss.spelling d names) scope v →
      s.AlphaEq d p (s.respell (ss.spelling d names) scope next)
  | .expr line e, _, _, _, _, _, h, hp => by
      rw [Stmt.Resolved] at h
      rw [Stmt.respell]
      exact .expr line line (Expr.alphaEq_respell hclear hp h)
  | .assign line targets value, _, _, _, _, _, h, hp => by
      rw [Stmt.Resolved] at h
      rw [Stmt.respell]
      exact .assign line line (Identifier.forall₂_respell hp h.2)
        (Expr.alphaEq_respell hclear hp h.1)
  | .decl line vars none, _, _, _, _, _, _, _ => by
      rw [Stmt.respell, Option.map_none]
      exact .zeros line line (List.length_map _)
  | .decl line vars (some value), _, _, _, _, _, h, hp => by
      rw [Stmt.Resolved] at h
      rw [Stmt.respell, Option.map_some]
      exact .decl line line (List.length_map _) (Expr.alphaEq_respell hclear hp (h.1 value rfl))
  | .func line name params returns body, _, p, _, next, _, h, hp => by
      rw [Stmt.Resolved] at h
      rcases h with ⟨_, _, hin, _, hbody⟩
      rw [Stmt.respell]
      refine .func line line name _ (List.length_map _) (List.length_map _) ?_
      rw [TypedName.zip_respell]
      -- The pairs inside are the parameters and results, each with its spelling.
      exact Block.alphaEq_respell hclear hbody (hp.enterFunction hin _)
  | .cond line test body, _, _, _, _, _, h, hp => by
      rw [Stmt.Resolved] at h
      rw [Stmt.respell]
      exact .cond line line (Expr.alphaEq_respell hclear hp h.1)
        (Block.alphaEq_respell hclear h.2 hp)
  | .switch line subject cases, _, _, _, _, _, h, hp => by
      rw [Stmt.Resolved] at h
      rw [Stmt.respell]
      exact .switch line line (Expr.alphaEq_respell hclear hp h.1)
        (Case.alphaEqSeq_respell hclear h.2 hp)
  | .loop line ⟨preLine, pre⟩ test post body, _, _, _, next, _, h, hp => by
      rw [Stmt.Resolved] at h
      rcases h with ⟨_, hin, _, hpre, htest, hbody, hpost⟩
      -- Behind the init part its variables are paired as well.
      have hpre' := hp.enter hin (next + 1) pre
      have hloop := Pairing.Spells.afterSeq pre (next + 1) hpre'
      rw [Stmt.respell]
      exact .loop line line preLine preLine (Stmt.alphaEqSeq_respell hclear hpre hpre')
        (Expr.alphaEq_respell hclear hloop htest) (Block.alphaEq_respell hclear hbody hloop)
        (Block.alphaEq_respell hclear hpost hloop)
  | .brk line, _, _, _, _, _, _, _ => by
      rw [Stmt.respell]
      exact .brk line line
  | .cont line, _, _, _, _, _, _, _ => by
      rw [Stmt.respell]
      exact .cont line line
  | .block b, _, _, _, _, _, h, hp => by
      rw [Stmt.Resolved] at h
      rw [Stmt.respell]
      exact .block (Block.alphaEq_respell hclear h hp)
  | .label _ _, _, _, _, _, _, h, _ => by
      rw [Stmt.Resolved] at h
      exact False.elim h
  | .stackAssign _ _, _, _, _, _, _, h, _ => by
      rw [Stmt.Resolved] at h
      exact False.elim h

/-- Renamed cases are equal to the cases up to names. -/
theorem Case.alphaEqSeq_respell (hclear : ss.Clear d names) : ∀ {cases : List Case} {v : Sight}
    {p : Pairing} {scope next : Nat} {inLoop : Bool} {seen : List Word},
    Case.ResolvedSeq d ss v scope next inLoop seen cases →
    p.Spells (ss.spelling d names) scope v →
      Case.AlphaEqSeq d p cases (Case.respellSeq (ss.spelling d names) next cases)
  | [], _, _, _, _, _, _, _, _ => by
      rw [Case.respellSeq]
      exact .nil
  | ⟨line, none, body⟩ :: rest, _, _, _, _, _, _, h, hp => by
      rw [Case.ResolvedSeq] at h
      obtain rfl := h.2
      rw [Case.respellSeq, Case.respellSeq]
      exact .cons line line none (Block.alphaEq_respell hclear h.1 hp) .nil
  | ⟨line, some l, body⟩ :: rest, _, _, _, _, _, _, h, hp => by
      rw [Case.ResolvedSeq] at h
      rcases h with ⟨_, _, _, hbody, hrest⟩
      rw [Case.respellSeq]
      exact .cons line line (some l) (Block.alphaEq_respell hclear hbody hp)
        (Case.alphaEqSeq_respell hclear hrest hp)

end

end Code

end YulToolchain
