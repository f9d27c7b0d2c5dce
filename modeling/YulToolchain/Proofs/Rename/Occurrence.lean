import Mathlib.Data.List.Perm.Basic
import YulToolchain.Proofs.Rename.Respell
import YulToolchain.Proofs.Static.Passage

/-!
# Where Names Occur

The places of a program at which names are declared and used.

A place is told by the number of its scope, as everywhere else. Declarations were
listed before (`Block.declarations`); uses are listed here in the same way. Respelled
code has its declarations and uses at the same places, so the two lists tell what a
renaming does to a program without looking into the program.

In accepted code every name is found where it is declared or used, and no declaration
occurs twice: declarations of different scopes have different numbers, and what the
analysis adds to one scope has different names.

## Main definitions

* `Expr.uses`, `Stmt.uses`, `Block.uses`: The names that code uses, with the numbers of the
  scopes.
* `Stmt.ownNames`: The names that a statement declares in the scope it stands in.
* `Scopes.Locates`: Names are found where they are used, and declarations in their scopes.

## Theorems

* `Block.uses_respell`, `Block.declarations_respell`: Respelled code declares and uses
  names at the same places.
* `analyze_found`: In accepted code names are found where they occur.
* `analyze_declarations_nodup`: No declaration occurs twice.
-/

namespace YulToolchain

mutual

/-- The names that an expression uses. -/
def Expr.uses : Expr → List String
  | .literal _ => []
  | .ident _ x => [x]
  | .instr _ _ args => Expr.usesAll args
  | .call _ x args => x :: Expr.usesAll args

/-- The names that some expressions use. -/
def Expr.usesAll : List Expr → List String
  | [] => []
  | e :: rest => e.uses ++ Expr.usesAll rest

end

mutual

/-- The names that a block with a number uses. -/
def Block.uses (id : Nat) : Block → List (Nat × String)
  | ⟨_, stmts⟩ => Stmt.usesSeq id (id + 1) stmts

/-- The names that statements in a scope use. -/
def Stmt.usesSeq (scope next : Nat) : List Stmt → List (Nat × String)
  | [] => []
  | s :: rest => s.uses scope next ++ Stmt.usesSeq scope (next + s.scopeCount) rest

/-- The names that a statement in a scope uses, there and in the scopes that it opens. -/
def Stmt.uses (scope next : Nat) : Stmt → List (Nat × String)
  | .expr _ e => e.uses.map (scope, ·)
  | .assign _ targets value => (targets.map (·.name) ++ value.uses).map (scope, ·)
  | .decl _ _ value => ((value.map Expr.uses).getD []).map (scope, ·)
  | .func _ _ _ _ body => body.uses (next + 1)
  | .cond _ test body => test.uses.map (scope, ·) ++ body.uses next
  | .switch _ subject cases => subject.uses.map (scope, ·) ++ Case.usesSeq next cases
  | .loop _ ⟨_, pre⟩ test post body =>
    Stmt.usesSeq next (next + 1) pre ++ test.uses.map (next, ·)
      ++ body.uses (next + 1 + Stmt.scopeCountSeq pre)
      ++ post.uses (next + 1 + Stmt.scopeCountSeq pre + body.scopeCount)
  | .brk _ => []
  | .cont _ => []
  | .block b => b.uses next
  | .label _ _ => []
  | .stackAssign _ target => [(scope, target.name)]

/-- The names that the cases of a switch use. -/
def Case.usesSeq (next : Nat) : List Case → List (Nat × String)
  | [] => []
  | ⟨_, _, body⟩ :: rest => body.uses next ++ Case.usesSeq (next + body.scopeCount) rest

end

/-- The names that a statement declares in the scope it stands in. -/
def Stmt.ownNames : Stmt → List String
  | .decl _ vars _ => vars.map (·.name)
  | .func _ name _ _ _ => [name]
  | .label _ name => [name]
  | _ => []

section Respelled

variable (f : Spelling)

mutual

/-- A renamed expression uses the new names. -/
theorem Expr.uses_respell (g : String → String) : ∀ e : Expr, (e.respell g).uses = e.uses.map g
  | .literal _ => by rw [Expr.respell, Expr.uses, List.map_nil]
  | .ident _ _ => by rw [Expr.respell, Expr.uses, Expr.uses, List.map_singleton]
  | .instr _ _ args => by
      rw [Expr.respell, Expr.uses, Expr.uses, Expr.usesAll_respell]
  | .call _ _ args => by
      rw [Expr.respell, Expr.uses, Expr.uses, Expr.usesAll_respell, List.map_cons]

theorem Expr.usesAll_respell (g : String → String) : ∀ es : List Expr,
    Expr.usesAll (Expr.respellAll g es) = (Expr.usesAll es).map g
  | [] => by rw [Expr.respellAll, Expr.usesAll, List.map_nil]
  | e :: rest => by
      rw [Expr.respellAll, Expr.usesAll, Expr.usesAll, Expr.uses_respell, Expr.usesAll_respell,
        List.map_append]

end

/-- The names of one scope, spelled anew. -/
theorem map_scope_respell (scope : Nat) (xs : List String) :
    (xs.map (f scope)).map (Prod.mk scope)
      = (xs.map (Prod.mk scope)).map fun u => (u.1, f u.1 u.2) := by
  rw [List.map_map, List.map_map]
  rfl

mutual

/-- A respelled block uses names at the same places. -/
theorem Block.uses_respell : ∀ (b : Block) (id : Nat),
    (b.respell f id).uses id = (b.uses id).map fun u => (u.1, f u.1 u.2)
  | ⟨_, stmts⟩, id => by
      rw [Block.respell, Block.uses, Block.uses, Stmt.usesSeq_respell]

/-- Renamed statements use the new names, in the same scopes. -/
theorem Stmt.usesSeq_respell : ∀ (stmts : List Stmt) (scope next : Nat),
    Stmt.usesSeq scope next (Stmt.respellSeq f scope next stmts)
      = (Stmt.usesSeq scope next stmts).map fun u => (u.1, f u.1 u.2)
  | [], _, _ => by rw [Stmt.respellSeq, Stmt.usesSeq, List.map_nil]
  | s :: rest, scope, next => by
      rw [Stmt.respellSeq, Stmt.usesSeq, Stmt.usesSeq, Stmt.scopeCount_respell,
        Stmt.uses_respell, Stmt.usesSeq_respell, List.map_append]

/-- A respelled statement uses names at the same places. -/
theorem Stmt.uses_respell : ∀ (s : Stmt) (scope next : Nat),
    (s.respell f scope next).uses scope next
      = (s.uses scope next).map fun u => (u.1, f u.1 u.2)
  | .expr _ e, scope, _ => by
      rw [Stmt.respell, Stmt.uses, Stmt.uses, Expr.uses_respell, map_scope_respell]
  -- The targets of an assignment are used before its value.
  | .assign _ targets value, scope, _ => by
      have htargets : (targets.map (·.respell (f scope))).map (·.name)
          = (targets.map (·.name)).map (f scope) := by
        rw [List.map_map, List.map_map]
        rfl
      rw [Stmt.respell, Stmt.uses, Stmt.uses, Expr.uses_respell, htargets, ← List.map_append,
        map_scope_respell]
  | .decl _ _ none, _, _ => by
      simp only [Stmt.respell, Stmt.uses, Option.map_none, Option.getD_none, List.map_nil]
  | .decl _ _ (some value), scope, _ => by
      simp only [Stmt.respell, Stmt.uses, Option.map_some, Option.getD_some, Expr.uses_respell,
        map_scope_respell]
  | .func _ _ _ _ body, _, _ => by
      rw [Stmt.respell, Stmt.uses, Stmt.uses, Block.uses_respell]
  | .cond _ test body, _, _ => by
      rw [Stmt.respell, Stmt.uses, Stmt.uses, Expr.uses_respell, map_scope_respell,
        Block.uses_respell, List.map_append]
  | .switch _ subject cases, _, _ => by
      rw [Stmt.respell, Stmt.uses, Stmt.uses, Expr.uses_respell, map_scope_respell,
        Case.usesSeq_respell, List.map_append]
  | .loop _ ⟨_, pre⟩ test post body, _, _ => by
      -- The scopes of the parts have the same numbers, since renaming keeps their count.
      rw [Stmt.respell, Stmt.uses, Stmt.uses, Stmt.scopeCountSeq_respell,
        Block.scopeCount_respell, Stmt.usesSeq_respell, Expr.uses_respell, map_scope_respell,
        Block.uses_respell, Block.uses_respell, List.map_append, List.map_append, List.map_append]
  | .brk _, _, _ => by rw [Stmt.respell, Stmt.uses, List.map_nil]
  | .cont _, _, _ => by rw [Stmt.respell, Stmt.uses, List.map_nil]
  | .block b, _, _ => by rw [Stmt.respell, Stmt.uses, Stmt.uses, Block.uses_respell]
  | .label _ _, _, _ => by rw [Stmt.respell, Stmt.uses, Stmt.uses, List.map_nil]
  | .stackAssign _ _, _, _ => by
      rw [Stmt.respell, Stmt.uses, Stmt.uses, List.map_singleton]
      rfl

theorem Case.usesSeq_respell : ∀ (cases : List Case) (next : Nat),
    Case.usesSeq next (Case.respellSeq f next cases)
      = (Case.usesSeq next cases).map fun u => (u.1, f u.1 u.2)
  | [], _ => by rw [Case.respellSeq, Case.usesSeq, List.map_nil]
  | ⟨_, _, body⟩ :: rest, next => by
      rw [Case.respellSeq, Case.usesSeq, Case.usesSeq, Block.scopeCount_respell,
        Block.uses_respell, Case.usesSeq_respell, List.map_append]

end

/-- The variables of one scope, declared under other names. -/
theorem TypedName.declarations_respell (scope : Nat) (vars : List TypedName) :
    (vars.map (·.respell (f scope))).map (fun v => (⟨scope, v.name⟩ : Declaration))
      = (vars.map fun v => (⟨scope, v.name⟩ : Declaration)).map fun decl =>
        ⟨decl.scope, f decl.scope decl.name⟩ := by
  rw [List.map_map, List.map_map]
  rfl

mutual

/-- A respelled block declares names at the same places. -/
theorem Block.declarations_respell : ∀ (b : Block) (id : Nat),
    (b.respell f id).declarations id
      = (b.declarations id).map fun decl => ⟨decl.scope, f decl.scope decl.name⟩
  | ⟨_, stmts⟩, id => by
      rw [Block.respell, Block.declarations, Block.declarations, Stmt.declarationsSeq_respell]

/-- Renamed statements declare the new names, in the same scopes. -/
theorem Stmt.declarationsSeq_respell : ∀ (stmts : List Stmt) (scope next : Nat),
    Stmt.declarationsSeq scope next (Stmt.respellSeq f scope next stmts)
      = (Stmt.declarationsSeq scope next stmts).map fun decl =>
        ⟨decl.scope, f decl.scope decl.name⟩
  | [], _, _ => by rw [Stmt.respellSeq, Stmt.declarationsSeq, List.map_nil]
  | s :: rest, scope, next => by
      rw [Stmt.respellSeq, Stmt.declarationsSeq, Stmt.declarationsSeq, Stmt.scopeCount_respell,
        Stmt.declarations_respell, Stmt.declarationsSeq_respell, List.map_append]

/-- A respelled statement declares names at the same places. -/
theorem Stmt.declarations_respell : ∀ (s : Stmt) (scope next : Nat),
    (s.respell f scope next).declarations scope next
      = (s.declarations scope next).map fun decl => ⟨decl.scope, f decl.scope decl.name⟩
  | .expr _ _, _, _ => by rw [Stmt.respell, Stmt.declarations, Stmt.declarations, List.map_nil]
  | .assign _ _ _, _, _ => by rw [Stmt.respell, Stmt.declarations, Stmt.declarations, List.map_nil]
  | .decl _ vars _, scope, _ => by
      rw [Stmt.respell, Stmt.declarations, Stmt.declarations, TypedName.declarations_respell]
  | .func _ _ params returns body, _, next => by
      rw [Stmt.respell, Stmt.declarations, Stmt.declarations, Block.declarations_respell,
        ← List.map_append, TypedName.declarations_respell, List.cons_append, List.cons_append,
        List.map_cons]
      exact congrArg _ List.map_append.symm
  | .cond _ _ body, _, _ => by
      rw [Stmt.respell, Stmt.declarations, Stmt.declarations, Block.declarations_respell]
  | .switch _ _ cases, _, _ => by
      rw [Stmt.respell, Stmt.declarations, Stmt.declarations, Case.declarationsSeq_respell]
  | .loop _ ⟨_, pre⟩ _ post body, _, _ => by
      rw [Stmt.respell, Stmt.declarations, Stmt.declarations, Stmt.scopeCountSeq_respell,
        Block.scopeCount_respell, Stmt.declarationsSeq_respell, Block.declarations_respell,
        Block.declarations_respell, List.map_append, List.map_append]
  | .brk _, _, _ => by rw [Stmt.respell, Stmt.declarations, List.map_nil]
  | .cont _, _, _ => by rw [Stmt.respell, Stmt.declarations, List.map_nil]
  | .block b, _, _ => by
      rw [Stmt.respell, Stmt.declarations, Stmt.declarations, Block.declarations_respell]
  | .label _ _, _, _ => by
      rw [Stmt.respell, Stmt.declarations, Stmt.declarations, List.map_singleton]
  | .stackAssign _ _, _, _ => by
      rw [Stmt.respell, Stmt.declarations, Stmt.declarations, List.map_nil]

theorem Case.declarationsSeq_respell : ∀ (cases : List Case) (next : Nat),
    Case.declarationsSeq next (Case.respellSeq f next cases)
      = (Case.declarationsSeq next cases).map fun decl => ⟨decl.scope, f decl.scope decl.name⟩
  | [], _ => by rw [Case.respellSeq, Case.declarationsSeq, List.map_nil]
  | ⟨_, _, body⟩ :: rest, next => by
      rw [Case.respellSeq, Case.declarationsSeq, Case.declarationsSeq, Block.scopeCount_respell,
        Block.declarations_respell, Case.declarationsSeq_respell, List.map_append]

end

end Respelled

section Found

variable {d : Dialect} {final : Scopes}

/-- A name is found where it is used, unless it is that of a builtin. -/
def Scopes.Finds (d : Dialect) (ss : Scopes) (u : Nat × String) : Prop :=
  d.builtin? u.2 = none → ∃ r, ss.lookup u.1 u.2 = some r

/-- A declaration is found in its scope, under a name that can be declared. -/
def Scopes.Keeps (d : Dialect) (ss : Scopes) (decl : Declaration) : Prop :=
  d.reserved decl.name = false ∧ decl.name ≠ "" ∧
    ∃ symbol, ss.lookup decl.scope decl.name = some (decl, symbol)

/-- Names are found where they are used, and declarations in their scopes. -/
def Scopes.Locates (d : Dialect) (ss : Scopes) (uses : List (Nat × String))
    (declarations : List Declaration) : Prop :=
  (∀ u ∈ uses, ss.Finds d u) ∧ ∀ decl ∈ declarations, ss.Keeps d decl

namespace Scopes

theorem locates_nil : final.Locates d [] [] :=
  ⟨fun _ hu => absurd hu List.not_mem_nil, fun _ hdecl => absurd hdecl List.not_mem_nil⟩

theorem locates_append {uses uses' : List (Nat × String)} {decls decls' : List Declaration} :
    final.Locates d (uses ++ uses') (decls ++ decls') ↔
      final.Locates d uses decls ∧ final.Locates d uses' decls' := by
  simp only [Locates, List.forall_mem_append]
  tauto

theorem locates_uses {uses : List (Nat × String)} :
    final.Locates d uses [] ↔ ∀ u ∈ uses, final.Finds d u :=
  ⟨fun h => h.1, fun h => ⟨h, locates_nil.2⟩⟩

end Scopes

theorem Expr.usesAll_literals : ∀ {args : List Expr}, Expr.checkLiterals args = .ok () →
    Expr.usesAll args = []
  | [], _ => by rw [Expr.usesAll]
  | .literal l :: rest, h => by
      rw [Expr.checkLiterals] at h
      by_cases hk : l.kind = .string
      · rw [if_pos hk] at h
        rw [Expr.usesAll, Expr.uses, List.nil_append, Expr.usesAll_literals h]
      · rw [if_neg hk] at h
        exact absurd h (by rintro ⟨⟩)
  | .ident _ _ :: _, h => absurd h (by rintro ⟨⟩)
  | .instr _ _ _ :: _, h => absurd h (by rintro ⟨⟩)
  | .call _ _ _ :: _, h => absurd h (by rintro ⟨⟩)

mutual

/-- In an expression that has values names are found. -/
theorem Expr.uses_found {ss : Scopes} {scope : Nat} : ∀ {e : Expr} {n : Nat},
    e.valueCount d ss scope = .ok n → ∀ x ∈ e.uses, d.builtin? x = none →
      ∃ r, ss.lookup scope x = some r
  | .literal _, _, _, x, hx, _ => by
      rw [Expr.uses] at hx
      exact absurd hx List.not_mem_nil
  | .ident _ y, _, h, x, hx, _ => by
      rw [Expr.valueCount] at h
      rw [Expr.uses, List.mem_singleton] at hx
      subst hx
      rcases hl : ss.lookup scope x with _ | r
      · simp only [hl, reduceCtorEq] at h
      · exact ⟨r, rfl⟩
  | .instr _ op args, _, h, x, hx, hb => by
      rw [Expr.valueCount] at h
      rw [Expr.uses] at hx
      by_cases hlength : args.length ≠ op.args
      -- The number of arguments is right, or the expression would not have been counted.
      · rw [if_pos hlength] at h
        exact absurd h (by rintro ⟨⟩)
      · rw [if_neg hlength] at h
        rcases bind_eq_ok h with ⟨_, hargs, _⟩
        exact Expr.usesAll_found hargs x hx hb
  | .call _ y args, _, h, x, hx, hb => by
      rw [Expr.valueCount] at h
      rw [Expr.uses, List.mem_cons] at hx
      rcases hy : d.builtin? y with _ | b
      · simp only [hy] at h
        -- A name that is called is a function in sight.
        rcases hl : ss.lookup scope y with _ | ⟨decl, symbol⟩
        · simp only [hl, reduceCtorEq] at h
        · cases symbol with
          | var type => simp only [hl, reduceCtorEq] at h
          | label => simp only [hl, reduceCtorEq] at h
          | function params returns =>
              simp only [hl] at h
              by_cases hlength : args.length ≠ params.length
              · rw [if_pos hlength] at h
                exact absurd h (by rintro ⟨⟩)
              · rw [if_neg hlength] at h
                rcases bind_eq_ok h with ⟨_, hargs, _⟩
                rcases hx with rfl | hx
                · exact ⟨_, hl⟩
                · exact Expr.usesAll_found hargs x hx hb
      · have hx : x ∈ Expr.usesAll args := by
          -- A builtin is not looked up.
          refine hx.resolve_left ?_
          rintro rfl
          exact absurd (hb.symm.trans hy) (by rintro ⟨⟩)
        simp only [hy] at h
        by_cases hlength : args.length ≠ b.params
        · rw [if_pos hlength] at h
          exact absurd h (by split <;> rintro ⟨⟩)
        · rw [if_neg hlength] at h
          by_cases hlit : b.literalArguments = true
          · rw [if_pos hlit] at h
            rcases bind_eq_ok h with ⟨_, hargs, _⟩
            -- Literal arguments use no names.
            rw [Expr.usesAll_literals hargs] at hx
            exact absurd hx List.not_mem_nil
          · rw [if_neg hlit, if_neg hlength] at h
            rcases bind_eq_ok h with ⟨_, hargs, _⟩
            exact Expr.usesAll_found hargs x hx hb
termination_by structural e => e

theorem Expr.usesAll_found {ss : Scopes} {scope : Nat} : ∀ {es : List Expr},
    Expr.checkArgs d ss scope es = .ok () → ∀ x ∈ Expr.usesAll es, d.builtin? x = none →
      ∃ r, ss.lookup scope x = some r
  | [], _, x, hx, _ => by
      rw [Expr.usesAll] at hx
      exact absurd hx List.not_mem_nil
  | e :: rest, h, x, hx, hb => by
      rw [Expr.checkArgs] at h
      rcases bind_eq_ok h with ⟨_, hrest, h⟩
      rcases bind_eq_ok h with ⟨_, hcount, _⟩
      rw [Expr.usesAll, List.mem_append] at hx
      rcases hx with hx | hx
      · exact Expr.uses_found hcount x hx hb
      · exact Expr.usesAll_found hrest x hx hb
termination_by structural es => es

end

variable {ss ss' : Scopes} {scope : Nat}

/-- Names found while the expression is counted are found in the final scopes too. -/
theorem Expr.locates_uses (hgrows : Scopes.Grows ss final) {e : Expr} {n : Nat}
    (h : e.valueCount d ss scope = .ok n) : final.Locates d (e.uses.map (scope, ·)) [] := by
  refine Scopes.locates_uses.mpr fun u hu hb => ?_
  rcases List.mem_map.mp hu with ⟨x, hx, rfl⟩
  rcases Expr.uses_found h x hx hb with ⟨r, hr⟩
  exact ⟨r, hgrows _ _ _ hr⟩

theorem Analysis.expectValues_found (hgrows : Scopes.Grows ss final) {e : Expr} {n : Nat}
    (h : Analysis.expectValues d ss scope e n = .ok ()) :
    final.Locates d (e.uses.map (scope, ·)) [] := by
  rcases bind_eq_ok h with ⟨_, hcount, _⟩
  exact Expr.locates_uses hgrows hcount

/-- A target is a variable in sight. -/
theorem Analysis.expectVariable_found (hgrows : Scopes.Grows ss final) {t : Identifier}
    (h : Analysis.expectVariable ss scope t = .ok ()) : final.Finds d (scope, t.name) := by
  rw [Analysis.expectVariable] at h
  rcases hl : ss.lookup scope t.name with _ | r
  · simp only [hl, reduceCtorEq] at h
  · exact fun _ => ⟨r, hgrows _ _ _ hl⟩

theorem Analysis.expectVariables_found (hgrows : Scopes.Grows ss final) :
    ∀ {targets : List Identifier}, targets.forM (Analysis.expectVariable ss scope) = .ok () →
      ∀ t ∈ targets, final.Finds d (scope, t.name)
  | [], _ => fun _ ht => absurd ht List.not_mem_nil
  | t :: rest, h => by
      rcases bind_eq_ok h with ⟨_, hhere, hrest⟩
      exact List.forall_mem_cons.mpr ⟨Analysis.expectVariable_found hgrows hhere,
        Analysis.expectVariables_found hgrows hrest⟩

/-- Declared variables are found where they are declared. -/
theorem Analysis.declareVariables_found {vars : List TypedName} (h : ss.Place scope)
    (hok : Analysis.declareVariables d scope vars ss = .ok ss') (hgrows : Scopes.Grows ss' final) :
    final.Locates d [] (vars.map fun v => ⟨scope, v.name⟩) := by
  rcases Analysis.declareVariables_passed h hok with ⟨hpassed, hnames⟩
  refine ⟨fun _ hu => absurd hu List.not_mem_nil, fun decl hdecl => ?_⟩
  rcases List.mem_map.mp hdecl with ⟨v, hv, rfl⟩
  have hmem : (v.name, Symbol.var v.type) ∈ TypedName.symbols vars := List.mem_map_of_mem hv
  exact ⟨(hnames v hv).1, (hnames v hv).2, _, hgrows _ _ _ (hpassed.lookup h hmem)⟩

/-- Hoisted names are found where they are declared. -/
theorem Analysis.hoist_found {stmts : List Stmt} (h : ss.Place scope)
    (hok : Analysis.hoist d scope stmts ss = .ok ss') (hgrows : Scopes.Grows ss' final) :
    ∀ p ∈ stmts.flatMap Stmt.hoists, final.Keeps d ⟨scope, p.1⟩ := by
  rcases Analysis.hoist_passed h hok with ⟨hpassed, hnames⟩
  exact fun p hp => ⟨(hnames p hp).1, (hnames p hp).2, _, hgrows _ _ _ (hpassed.lookup h hp)⟩

mutual

/-- In an accepted block names are found where they occur. -/
theorem Block.analyze_found : ∀ {b : Block} {ss ss' : Scopes} {scope : Nat} {inLoop : Bool},
    ss.Place scope → b.analyze d (some scope) inLoop ss = .ok ss' → Scopes.Grows ss' final →
      final.Locates d (b.uses ss.toArray.size) (b.declarations ss.toArray.size)
  | ⟨_, stmts⟩, ss, ss', scope, inLoop, h, hok, hgrows => by
      rw [Block.analyze] at hok
      rcases bind_eq_ok hok with ⟨ss₁, hhoist, hseq⟩
      have h₁ := (Analysis.hoist_passed (h.push false) hhoist).1
      have hplace₁ := h₁.place (h.push false)
      have hgrows₁ := (Stmt.analyzeSeq_passed hplace₁ hseq).grows.trans hgrows
      have hsize := h₁.size
      rw [Scopes.size_push, Nat.add_zero] at hsize
      rw [Block.uses, Block.declarations, ← hsize]
      exact Stmt.analyzeSeq_found hplace₁ (Analysis.hoist_found (h.push false) hhoist hgrows₁)
        hseq hgrows
termination_by structural b => b

/-- The names in accepted statements are found in the scopes that come out. -/
theorem Stmt.analyzeSeq_found : ∀ {stmts : List Stmt} {ss ss' : Scopes} {scope : Nat}
    {inLoop : Bool}, ss.Place scope →
    (∀ p ∈ stmts.flatMap Stmt.hoists, final.Keeps d ⟨scope, p.1⟩) →
    Stmt.analyzeSeq d scope inLoop stmts ss = .ok ss' → Scopes.Grows ss' final →
      final.Locates d (Stmt.usesSeq scope ss.toArray.size stmts)
        (Stmt.declarationsSeq scope ss.toArray.size stmts)
  | [], ss, ss', scope, inLoop, _, _, _, _ => by
      rw [Stmt.usesSeq, Stmt.declarationsSeq]
      exact Scopes.locates_nil
  | s :: rest, ss, ss', scope, inLoop, h, hhoisted, hok, hgrows => by
      rw [List.flatMap_cons, List.forall_mem_append] at hhoisted
      rw [Stmt.analyzeSeq] at hok
      rcases bind_eq_ok hok with ⟨ss₁, hs, hrest⟩
      -- What the others declare comes on top of what the first one has declared.
      have h₁ := Stmt.analyze_passed h hs
      have hgrows₁ := (Stmt.analyzeSeq_passed (h₁.place h) hrest).grows.trans hgrows
      rw [Stmt.usesSeq, Stmt.declarationsSeq, ← h₁.size]
      exact Scopes.locates_append.mpr ⟨Stmt.analyze_found h hhoisted.1 hs hgrows₁,
        Stmt.analyzeSeq_found (h₁.place h) hhoisted.2 hrest hgrows⟩
termination_by structural stmts => stmts

/-- In an accepted statement names are found where they occur. -/
theorem Stmt.analyze_found : ∀ {s : Stmt} {ss ss' : Scopes} {scope : Nat} {inLoop : Bool},
    ss.Place scope → (∀ p ∈ s.hoists, final.Keeps d ⟨scope, p.1⟩) →
    s.analyze d scope inLoop ss = .ok ss' → Scopes.Grows ss' final →
      final.Locates d (s.uses scope ss.toArray.size) (s.declarations scope ss.toArray.size)
  | .expr _ e, ss, ss', scope, inLoop, _, _, hok, hgrows => by
      rcases Stmt.analyze_expr_ok hok with ⟨rfl, n, hn, _⟩
      rw [Stmt.uses, Stmt.declarations]
      exact Expr.locates_uses hgrows hn
  | .assign _ targets value, ss, ss', scope, inLoop, _, _, hok, hgrows => by
      rw [Stmt.analyze] at hok
      rcases bind_eq_ok hok with ⟨_, hvalue, hok⟩
      rcases bind_eq_ok hok with ⟨_, htargets, hok⟩
      cases hok
      have hfound : ∀ t ∈ targets, final.Finds d (scope, t.name) :=
        Analysis.expectVariables_found hgrows htargets
      rw [Stmt.uses, Stmt.declarations, List.map_append, List.map_map, Scopes.locates_uses,
        List.forall_mem_append]
      exact ⟨List.forall_mem_map.mpr hfound, (Analysis.expectValues_found hgrows hvalue).1⟩
  | .decl _ vars none, ss, ss', scope, inLoop, h, _, hok, hgrows => by
      rw [Stmt.analyze] at hok
      rw [Stmt.uses, Stmt.declarations]
      exact Analysis.declareVariables_found h hok hgrows
  | .decl _ vars (some value), ss, ss', scope, inLoop, h, _, hok, hgrows => by
      rw [Stmt.analyze] at hok
      rcases bind_eq_ok hok with ⟨_, hvalue, hok⟩
      have hgrows₁ := (Analysis.declareVariables_passed h hok).1.grows.trans hgrows
      rw [Stmt.uses, Stmt.declarations]
      exact ⟨(Analysis.expectValues_found hgrows₁ hvalue).1,
        (Analysis.declareVariables_found h hok hgrows).2⟩
  -- The scope of the parameters has the next number, and the body the one behind it.
  | .func _ name params returns body, ss, ss', scope, inLoop, h, hhoisted, hok, hgrows => by
      rw [Stmt.analyze] at hok
      rcases bind_eq_ok hok with ⟨ss₁, hvars, hbody⟩
      have h₁ := (Analysis.declareVariables_passed (h.push true) hvars).1
      have hplace₁ := h₁.place (h.push true)
      have hgrows₁ := (Block.analyze_passed hplace₁ hbody).grows.trans hgrows
      have hsize := h₁.size
      rw [Scopes.size_push, Nat.add_zero] at hsize
      have hbody' := Block.analyze_found hplace₁ hbody hgrows
      rw [hsize] at hbody'
      rw [Stmt.uses, Stmt.declarations]
      refine Scopes.locates_append.mpr ⟨⟨Scopes.locates_nil.1, ?_⟩, hbody'⟩
      exact List.forall_mem_cons.mpr ⟨hhoisted _ (List.mem_singleton_self _),
        (Analysis.declareVariables_found (h.push true) hvars hgrows₁).2⟩
  | .cond _ test body, ss, ss', scope, inLoop, h, _, hok, hgrows => by
      rw [Stmt.analyze] at hok
      rcases bind_eq_ok hok with ⟨_, htest, hbody⟩
      have hgrows₁ := (Block.analyze_passed h hbody).grows.trans hgrows
      rw [Stmt.uses, Stmt.declarations]
      exact Scopes.locates_append.mpr ⟨Analysis.expectValues_found hgrows₁ htest,
        Block.analyze_found h hbody hgrows⟩
  | .switch _ subject cases, ss, ss', scope, inLoop, h, _, hok, hgrows => by
      rw [Stmt.analyze] at hok
      rcases bind_eq_ok hok with ⟨_, hsubject, hcases⟩
      have hgrows₁ := (Case.analyzeSeq_passed h hcases).grows.trans hgrows
      rw [Stmt.uses, Stmt.declarations]
      exact Scopes.locates_append.mpr
        ⟨Analysis.expectValues_found hgrows₁ hsubject, Case.analyzeSeq_found h hcases hgrows⟩
  | .loop _ ⟨_, pre⟩ test post body, ss, ss', scope, inLoop, h, _, hok, hgrows => by
      rw [Stmt.analyze] at hok
      rcases bind_eq_ok hok with ⟨ss₁, hhoist, hok⟩
      rcases bind_eq_ok hok with ⟨ss₂, hpre, hok⟩
      rcases bind_eq_ok hok with ⟨_, htest, hok⟩
      -- The scopes after each of the four parts.
      rcases bind_eq_ok hok with ⟨ss₃, hbody, hpost⟩
      have h₁ := (Analysis.hoist_passed (h.push false) hhoist).1
      have hplace₁ := h₁.place (h.push false)
      have h₂ := Stmt.analyzeSeq_passed hplace₁ hpre
      have hplace₂ := h₂.place hplace₁
      have h₃ := Block.analyze_passed hplace₂ hbody
      have hplace₃ := h₃.place hplace₂
      have hgrows₃ := (Block.analyze_passed hplace₃ hpost).grows.trans hgrows
      have hgrows₂ := h₃.grows.trans hgrows₃
      have hgrows₁ := h₂.grows.trans hgrows₂
      -- From here on only the numbers of the scopes are left to match.
      have hsize₁ := h₁.size
      rw [Scopes.size_push, Nat.add_zero] at hsize₁
      have hsize₂ := h₂.size
      have hsize₃ := h₃.size
      rw [hsize₁] at hsize₂
      rw [hsize₂] at hsize₃
      have hpre' := Stmt.analyzeSeq_found hplace₁
        (Analysis.hoist_found (h.push false) hhoist hgrows₁) hpre hgrows₂
      have htest' := Analysis.expectValues_found hgrows₂ htest
      have hbody' := Block.analyze_found hplace₂ hbody hgrows₃
      have hpost' := Block.analyze_found hplace₃ hpost hgrows
      rw [hsize₁] at hpre'
      rw [hsize₂] at hbody'
      rw [hsize₃] at hpost'
      rw [Stmt.uses, Stmt.declarations,
        ← List.append_nil (Stmt.declarationsSeq ss.toArray.size (ss.toArray.size + 1) pre)]
      exact Scopes.locates_append.mpr ⟨Scopes.locates_append.mpr
        ⟨Scopes.locates_append.mpr ⟨hpre', htest'⟩, hbody'⟩, hpost'⟩
  | .brk _, ss, ss', scope, inLoop, _, _, _, _ => by
      rw [Stmt.uses, Stmt.declarations]
      exact Scopes.locates_nil
  | .cont _, ss, ss', scope, inLoop, _, _, _, _ => by
      rw [Stmt.uses, Stmt.declarations]
      exact Scopes.locates_nil
  | .block b, ss, ss', scope, inLoop, h, _, hok, hgrows => by
      rw [Stmt.analyze] at hok
      rw [Stmt.uses, Stmt.declarations]
      exact Block.analyze_found h hok hgrows
  | .label _ name, ss, ss', scope, inLoop, _, hhoisted, _, _ => by
      rw [Stmt.uses, Stmt.declarations]
      exact ⟨Scopes.locates_nil.1, List.forall_mem_singleton.mpr
        (hhoisted _ (List.mem_singleton_self _))⟩
  | .stackAssign _ target, ss, ss', scope, inLoop, _, _, hok, hgrows => by
      rw [Stmt.analyze] at hok
      rcases bind_eq_ok hok with ⟨_, htarget, hok⟩
      cases hok
      rw [Stmt.uses, Stmt.declarations, Scopes.locates_uses, List.forall_mem_singleton]
      exact Analysis.expectVariable_found hgrows htarget
termination_by structural s => s

theorem Case.analyzeSeq_found : ∀ {cases : List Case} {ss ss' : Scopes} {scope : Nat}
    {inLoop : Bool} {seen : List Word}, ss.Place scope →
    Case.analyzeSeq d scope inLoop seen cases ss = .ok ss' → Scopes.Grows ss' final →
      final.Locates d (Case.usesSeq ss.toArray.size cases)
        (Case.declarationsSeq ss.toArray.size cases)
  | [], ss, ss', scope, inLoop, seen, _, _, _ => by
      rw [Case.usesSeq, Case.declarationsSeq]
      exact Scopes.locates_nil
  | ⟨line, value, body⟩ :: rest, ss, ss', scope, inLoop, seen, h, hok, hgrows => by
      rcases Case.analyzeSeq_cons_ok hok with ⟨ss₁, seen', hbody, hrest⟩
      have h₁ := Block.analyze_passed h hbody
      have hgrows₁ := (Case.analyzeSeq_passed (h₁.place h) hrest).grows.trans hgrows
      rw [Case.usesSeq, Case.declarationsSeq, ← h₁.size]
      exact Scopes.locates_append.mpr ⟨Block.analyze_found h hbody hgrows₁,
        Case.analyzeSeq_found (h₁.place h) hrest hgrows⟩
termination_by structural cases => cases

end

/-- In an accepted program names are found where they occur. -/
theorem analyze_found {code : Block} {ss : Scopes} (h : analyze d code = .ok ss) :
    ss.Locates d (code.uses 0) (code.declarations 0) := by
  rcases code with ⟨line, stmts⟩
  rw [analyze, Block.analyze] at h
  rcases bind_eq_ok h with ⟨ss₁, hhoist, hseq⟩
  have h₁ := (Analysis.hoist_passed Scopes.place_root hhoist).1
  have hplace₁ := h₁.place Scopes.place_root
  have hsize : ss₁.toArray.size = 0 + 1 := h₁.size
  rw [Block.uses, Block.declarations, ← hsize]
  exact Stmt.analyzeSeq_found hplace₁ (Analysis.hoist_found Scopes.place_root hhoist
    (Stmt.analyzeSeq_passed hplace₁ hseq).grows) hseq (.refl ss)

end Found

section Places

mutual

/-- A block declares in the scopes that it opens. -/
theorem Block.declarations_scope : ∀ {b : Block} {id : Nat}, ∀ decl ∈ b.declarations id,
    id ≤ decl.scope ∧ decl.scope < id + b.scopeCount
  | ⟨_, stmts⟩, id, decl, hdecl => by
      rw [Block.declarations] at hdecl
      rw [Block.scopeCount]
      rcases Stmt.declarationsSeq_scope decl hdecl with h | h <;> omega

/-- A declaration belongs to its scope, or to one that is opened behind it. -/
theorem Stmt.declarationsSeq_scope : ∀ {stmts : List Stmt} {scope next : Nat},
    ∀ decl ∈ Stmt.declarationsSeq scope next stmts,
      (decl.scope = scope ∧ decl.name ∈ stmts.flatMap Stmt.ownNames) ∨
        (next ≤ decl.scope ∧ decl.scope < next + Stmt.scopeCountSeq stmts)
  | [], _, _, decl, hdecl => by
      rw [Stmt.declarationsSeq] at hdecl
      exact absurd hdecl List.not_mem_nil
  | s :: rest, scope, next, decl, hdecl => by
      rw [Stmt.declarationsSeq, List.mem_append] at hdecl
      rw [Stmt.scopeCountSeq, List.flatMap_cons, List.mem_append]
      rcases hdecl with hdecl | hdecl
      · rcases Stmt.declarations_scope decl hdecl with h | h
        · exact Or.inl ⟨h.1, Or.inl h.2⟩
        · exact Or.inr (by omega)
      · rcases Stmt.declarationsSeq_scope decl hdecl with h | h
        · exact Or.inl ⟨h.1, Or.inr h.2⟩
        · exact Or.inr (by omega)

/-- A statement declares its own names in the scope that it stands in, and all others in
    the scopes that it opens. -/
theorem Stmt.declarations_scope : ∀ {s : Stmt} {scope next : Nat},
    ∀ decl ∈ s.declarations scope next,
      (decl.scope = scope ∧ decl.name ∈ s.ownNames) ∨
        (next ≤ decl.scope ∧ decl.scope < next + s.scopeCount)
  | .expr _ _, _, _, decl, hdecl => by
      rw [Stmt.declarations] at hdecl
      exact absurd hdecl List.not_mem_nil
  | .assign _ _ _, _, _, decl, hdecl => by
      rw [Stmt.declarations] at hdecl
      exact absurd hdecl List.not_mem_nil
  | .decl _ vars _, _, _, decl, hdecl => by
      rw [Stmt.declarations] at hdecl
      rcases List.mem_map.mp hdecl with ⟨x, hx, rfl⟩
      exact Or.inl ⟨rfl, List.mem_map_of_mem hx⟩
  | .func _ _ _ _ body, _, _, decl, hdecl => by
      rw [Stmt.declarations, List.mem_append, List.mem_cons] at hdecl
      rw [Stmt.scopeCount]
      rcases hdecl with (rfl | hdecl) | hdecl
      -- The function itself, its parameters and results, and what its body declares.
      · exact Or.inl ⟨rfl, List.mem_singleton_self _⟩
      · rcases List.mem_map.mp hdecl with ⟨x, hx, rfl⟩
        exact Or.inr ⟨Nat.le_refl _, Nat.lt_add_of_pos_right (by omega)⟩
      · have := Block.declarations_scope decl hdecl
        exact Or.inr (by omega)
  | .cond _ _ body, _, _, decl, hdecl => by
      rw [Stmt.declarations] at hdecl
      rw [Stmt.scopeCount]
      exact Or.inr (Block.declarations_scope decl hdecl)
  | .switch _ _ cases, _, _, decl, hdecl => by
      rw [Stmt.declarations] at hdecl
      rw [Stmt.scopeCount]
      exact Or.inr (Case.declarationsSeq_scope decl hdecl)
  | .loop _ ⟨_, pre⟩ _ post body, _, next, decl, hdecl => by
      rw [Stmt.declarations] at hdecl
      rw [Stmt.scopeCount, Block.scopeCount]
      simp only [List.mem_append, or_assoc] at hdecl
      refine Or.inr ?_
      rcases hdecl with hdecl | hdecl | hdecl
      -- The init part opens the scopes before those of the body and the post part.
      · rcases Stmt.declarationsSeq_scope decl hdecl with h | h <;> omega
      · have := Block.declarations_scope decl hdecl
        omega
      · have := Block.declarations_scope decl hdecl
        omega
  | .brk _, _, _, decl, hdecl => by
      rw [Stmt.declarations] at hdecl
      exact absurd hdecl List.not_mem_nil
  | .cont _, _, _, decl, hdecl => by
      rw [Stmt.declarations] at hdecl
      exact absurd hdecl List.not_mem_nil
  | .block b, _, _, decl, hdecl => by
      rw [Stmt.declarations] at hdecl
      rw [Stmt.scopeCount]
      exact Or.inr (Block.declarations_scope decl hdecl)
  | .label _ _, _, _, decl, hdecl => by
      rw [Stmt.declarations, List.mem_singleton] at hdecl
      subst hdecl
      exact Or.inl ⟨rfl, List.mem_singleton_self _⟩
  | .stackAssign _ _, _, _, decl, hdecl => by
      rw [Stmt.declarations] at hdecl
      exact absurd hdecl List.not_mem_nil

theorem Case.declarationsSeq_scope : ∀ {cases : List Case} {next : Nat},
    ∀ decl ∈ Case.declarationsSeq next cases,
      next ≤ decl.scope ∧ decl.scope < next + Case.scopeCountSeq cases
  | [], _, decl, hdecl => by
      rw [Case.declarationsSeq] at hdecl
      exact absurd hdecl List.not_mem_nil
  | ⟨_, _, body⟩ :: rest, next, decl, hdecl => by
      rw [Case.declarationsSeq, List.mem_append] at hdecl
      rw [Case.scopeCountSeq]
      rcases hdecl with hdecl | hdecl
      · have := Block.declarations_scope decl hdecl
        omega
      · have := Case.declarationsSeq_scope decl hdecl
        omega

end

end Places

section Once

variable {d : Dialect}

/-- Variables with different names are different declarations. -/
theorem TypedName.declarations_nodup {scope : Nat} {vars : List TypedName}
    (h : (vars.map (·.name)).Nodup) :
    (vars.map fun v => (⟨scope, v.name⟩ : Declaration)).Nodup := by
  refine List.Nodup.of_map Declaration.name ?_
  rwa [List.map_map]

/-- What is added to a scope has different names. -/
theorem Scopes.Passed.names_nodup {scope n : Nat} {added : List (String × Symbol)}
    {ss ss' : Scopes} (h : Scopes.Passed scope added n ss ss') (hplace : ss.Place scope) :
    (added.map (·.1)).Nodup := by
  rcases Scopes.get?_isSome hplace.opened with ⟨s, hs⟩
  have hnodup := h.tidy scope _ (h.here s hs)
  rw [List.map_append, List.map_reverse] at hnodup
  exact List.nodup_reverse.mp (List.nodup_append.mp hnodup).1

/-- The names of a statement are those it hoists and those it adds. -/
theorem Stmt.ownNames_eq (s : Stmt) : s.ownNames = (s.hoists ++ s.adds).map (·.1) := by
  cases s with
  | decl line vars value =>
      simp only [Stmt.ownNames, Stmt.hoists, Stmt.adds, TypedName.symbols, List.nil_append,
        List.map_map, Function.comp_def]
  | _ => rfl

/-- Hoisted or not, the names that statements declare in one scope are different. -/
theorem Stmt.ownNames_nodup {stmts : List Stmt}
    (h : ((stmts.flatMap Stmt.hoists ++ stmts.flatMap Stmt.adds).map (·.1)).Nodup) :
    (stmts.flatMap Stmt.ownNames).Nodup := by
  have heq : stmts.flatMap Stmt.ownNames
      = (stmts.flatMap fun s => s.hoists ++ s.adds).map (·.1) := by
    rw [List.map_flatMap]
    exact congrArg (List.flatMap · stmts) (funext Stmt.ownNames_eq)
  rw [heq]
  exact ((List.flatMap_append_perm stmts Stmt.hoists Stmt.adds).map (·.1)).nodup_iff.mp h

/-- What a scope gets when it is entered and what it gets later have different names. -/
theorem Analysis.hoist_ownNames {stmts : List Stmt} {ss ss₁ ss' : Scopes} {scope : Nat}
    {inLoop : Bool} (h : ss.Place scope) (hhoist : Analysis.hoist d scope stmts ss = .ok ss₁)
    (hseq : Stmt.analyzeSeq d scope inLoop stmts ss₁ = .ok ss') :
    (stmts.flatMap Stmt.ownNames).Nodup := by
  have h₁ := (Analysis.hoist_passed h hhoist).1
  exact Stmt.ownNames_nodup
    ((h₁.trans (Stmt.analyzeSeq_passed (h₁.place h) hseq)).names_nodup h)

mutual

/-- No declaration of an accepted block occurs twice. -/
theorem Block.declarations_nodup : ∀ {b : Block} {ss ss' : Scopes} {scope : Nat} {inLoop : Bool},
    ss.Place scope → b.analyze d (some scope) inLoop ss = .ok ss' →
      (b.declarations ss.toArray.size).Nodup
  | ⟨_, stmts⟩, ss, ss', scope, inLoop, h, hok => by
      rw [Block.analyze] at hok
      rcases bind_eq_ok hok with ⟨ss₁, hhoist, hseq⟩
      have h₁ := (Analysis.hoist_passed (h.push false) hhoist).1
      have hsize := h₁.size
      rw [Scopes.size_push, Nat.add_zero] at hsize
      rw [Block.declarations, ← hsize]
      exact Stmt.declarationsSeq_nodup (h₁.place (h.push false))
        (Analysis.hoist_ownNames (h.push false) hhoist hseq) hseq
termination_by structural b => b

/-- No declaration of accepted statements occurs twice. -/
theorem Stmt.declarationsSeq_nodup : ∀ {stmts : List Stmt} {ss ss' : Scopes} {scope : Nat}
    {inLoop : Bool}, ss.Place scope → (stmts.flatMap Stmt.ownNames).Nodup →
    Stmt.analyzeSeq d scope inLoop stmts ss = .ok ss' →
      (Stmt.declarationsSeq scope ss.toArray.size stmts).Nodup
  | [], ss, ss', scope, inLoop, _, _, _ => by
      rw [Stmt.declarationsSeq]
      exact List.nodup_nil
  | s :: rest, ss, ss', scope, inLoop, h, hown, hok => by
      rw [List.flatMap_cons, List.nodup_append] at hown
      rw [Stmt.analyzeSeq] at hok
      rcases bind_eq_ok hok with ⟨ss₁, hs, hrest⟩
      have h₁ := Stmt.analyze_passed h hs
      have hopened := h.opened
      have hrest' := Stmt.declarationsSeq_nodup (h₁.place h) hown.2.1 hrest
      rw [h₁.size] at hrest'
      rw [Stmt.declarationsSeq]
      refine List.Nodup.append (Stmt.declarations_nodup h hown.1 hs) hrest' ?_
      -- Either both are in the scope of the statements, or the numbers differ.
      intro decl hdecl hlater
      rcases Stmt.declarations_scope decl hdecl with h₂ | h₂
      · rcases Stmt.declarationsSeq_scope decl hlater with h₃ | h₃
        · exact hown.2.2 _ h₂.2 _ h₃.2 rfl
        · omega
      · rcases Stmt.declarationsSeq_scope decl hlater with h₃ | h₃ <;> omega
termination_by structural stmts => stmts

/-- No declaration of an accepted statement occurs twice. -/
theorem Stmt.declarations_nodup : ∀ {s : Stmt} {ss ss' : Scopes} {scope : Nat} {inLoop : Bool},
    ss.Place scope → s.ownNames.Nodup → s.analyze d scope inLoop ss = .ok ss' →
      (s.declarations scope ss.toArray.size).Nodup
  | .expr _ _, ss, ss', scope, inLoop, _, _, _ => by
      rw [Stmt.declarations]
      exact List.nodup_nil
  | .assign _ _ _, ss, ss', scope, inLoop, _, _, _ => by
      rw [Stmt.declarations]
      exact List.nodup_nil
  | .decl _ vars _, ss, ss', scope, inLoop, _, hown, _ => by
      rw [Stmt.declarations]
      exact TypedName.declarations_nodup hown
  | .func _ name params returns body, ss, ss', scope, inLoop, h, _, hok => by
      rw [Stmt.analyze] at hok
      rcases bind_eq_ok hok with ⟨ss₁, hvars, hbody⟩
      have h₁ := (Analysis.declareVariables_passed (h.push true) hvars).1
      have hnodup := h₁.names_nodup (h.push true)
      rw [TypedName.symbols, List.map_map] at hnodup
      have hsize := h₁.size
      rw [Scopes.size_push, Nat.add_zero] at hsize
      have hbody' := Block.declarations_nodup (h₁.place (h.push true)) hbody
      rw [hsize] at hbody'
      -- The function belongs to the scope outside, its variables to the next, its body to those
      -- behind.
      have hopened := h.opened
      have hin : ∀ decl ∈ (params ++ returns).map fun v =>
          (⟨ss.toArray.size, v.name⟩ : Declaration), decl.scope = ss.toArray.size := by
        intro decl hdecl
        rcases List.mem_map.mp hdecl with ⟨x, _, rfl⟩
        rfl
      rw [Stmt.declarations, List.cons_append, List.nodup_cons, List.mem_append, not_or]
      refine ⟨⟨fun hdecl => ?_, fun hdecl => ?_⟩, ?_⟩
      · have : scope = ss.toArray.size := hin _ hdecl
        omega
      · have : ss.toArray.size + 1 ≤ scope := (Block.declarations_scope _ hdecl).1
        omega
      · refine List.Nodup.append (TypedName.declarations_nodup hnodup) hbody'
          fun decl hdecl hdecl' => ?_
        have := hin decl hdecl
        have := (Block.declarations_scope decl hdecl').1
        omega
  | .cond _ _ body, ss, ss', scope, inLoop, h, _, hok => by
      rw [Stmt.analyze] at hok
      rcases bind_eq_ok hok with ⟨_, _, hbody⟩
      rw [Stmt.declarations]
      exact Block.declarations_nodup h hbody
  | .switch _ _ cases, ss, ss', scope, inLoop, h, _, hok => by
      rw [Stmt.analyze] at hok
      rcases bind_eq_ok hok with ⟨_, _, hcases⟩
      rw [Stmt.declarations]
      exact Case.declarationsSeq_nodup h hcases
  | .loop _ ⟨_, pre⟩ _ post body, ss, ss', scope, inLoop, h, _, hok => by
      rw [Stmt.analyze] at hok
      rcases bind_eq_ok hok with ⟨ss₁, hhoist, hok⟩
      rcases bind_eq_ok hok with ⟨ss₂, hpre, hok⟩
      rcases bind_eq_ok hok with ⟨_, _, hok⟩
      rcases bind_eq_ok hok with ⟨ss₃, hbody, hpost⟩
      have h₁ := (Analysis.hoist_passed (h.push false) hhoist).1
      have hplace₁ := h₁.place (h.push false)
      have h₂ := Stmt.analyzeSeq_passed hplace₁ hpre
      have hplace₂ := h₂.place hplace₁
      have h₃ := Block.analyze_passed hplace₂ hbody
      -- The three parts declare in scopes that do not meet.
      have hpre' := Stmt.declarationsSeq_nodup hplace₁
        (Analysis.hoist_ownNames (h.push false) hhoist hpre) hpre
      have hbody' := Block.declarations_nodup hplace₂ hbody
      have hpost' := Block.declarations_nodup (h₃.place hplace₂) hpost
      have hsize := h₁.size
      rw [Scopes.size_push, Nat.add_zero] at hsize
      rw [hsize] at hpre'
      rw [h₂.size, hsize] at hbody'
      rw [h₃.size, h₂.size, hsize] at hpost'
      rw [Stmt.declarations]
      refine List.Nodup.append (List.Nodup.append hpre' hbody' ?_) hpost' ?_
      · intro decl hdecl hdecl'
        have := Block.declarations_scope decl hdecl'
        rcases Stmt.declarationsSeq_scope decl hdecl with h | h <;> omega
      · intro decl hdecl hdecl'
        have := Block.declarations_scope decl hdecl'
        rcases List.mem_append.mp hdecl with hdecl | hdecl
        · rcases Stmt.declarationsSeq_scope decl hdecl with h | h <;> omega
        · have := Block.declarations_scope decl hdecl
          omega
  | .brk _, ss, ss', scope, inLoop, _, _, _ => by
      rw [Stmt.declarations]
      exact List.nodup_nil
  | .cont _, ss, ss', scope, inLoop, _, _, _ => by
      rw [Stmt.declarations]
      exact List.nodup_nil
  | .block b, ss, ss', scope, inLoop, h, _, hok => by
      rw [Stmt.analyze] at hok
      rw [Stmt.declarations]
      exact Block.declarations_nodup h hok
  | .label _ _, ss, ss', scope, inLoop, _, _, _ => by
      rw [Stmt.declarations]
      exact List.nodup_singleton _
  | .stackAssign _ _, ss, ss', scope, inLoop, _, _, _ => by
      rw [Stmt.declarations]
      exact List.nodup_nil
termination_by structural s => s

/-- No declaration of accepted cases occurs twice. -/
theorem Case.declarationsSeq_nodup : ∀ {cases : List Case} {ss ss' : Scopes} {scope : Nat}
    {inLoop : Bool} {seen : List Word}, ss.Place scope →
    Case.analyzeSeq d scope inLoop seen cases ss = .ok ss' →
      (Case.declarationsSeq ss.toArray.size cases).Nodup
  | [], ss, ss', scope, inLoop, seen, _, _ => by
      rw [Case.declarationsSeq]
      exact List.nodup_nil
  | ⟨line, value, body⟩ :: rest, ss, ss', scope, inLoop, seen, h, hok => by
      obtain ⟨ss₁, seen', hbody, hrest⟩ := Case.analyzeSeq_cons_ok hok
      have h₁ := Block.analyze_passed h hbody
      have hrest' := Case.declarationsSeq_nodup (h₁.place h) hrest
      rw [h₁.size] at hrest'
      rw [Case.declarationsSeq]
      refine List.Nodup.append (Block.declarations_nodup h hbody) hrest'
        fun decl hdecl hdecl' => ?_
      have := Block.declarations_scope decl hdecl
      have := Case.declarationsSeq_scope decl hdecl'
      omega
termination_by structural cases => cases

end

/-- No declaration of an accepted program occurs twice. -/
theorem analyze_declarations_nodup {code : Block} {ss : Scopes} (h : analyze d code = .ok ss) :
    (code.declarations 0).Nodup := by
  rcases code with ⟨line, stmts⟩
  rw [analyze, Block.analyze] at h
  rcases bind_eq_ok h with ⟨ss₁, hhoist, hseq⟩
  have h₁ := (Analysis.hoist_passed Scopes.place_root hhoist).1
  have hsize : ss₁.toArray.size = 0 + 1 := h₁.size
  rw [Block.declarations, ← hsize]
  exact Stmt.declarationsSeq_nodup (h₁.place Scopes.place_root)
    (Analysis.hoist_ownNames Scopes.place_root hhoist hseq) hseq

end Once

end YulToolchain
