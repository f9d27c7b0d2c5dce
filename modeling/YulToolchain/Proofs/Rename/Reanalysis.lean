import YulToolchain.Proofs.Rename.Respell
import YulToolchain.Proofs.Names.Fresh
import YulToolchain.Proofs.Static.Passage

/-!
# Analysing Code in Other Names

The analysis of respelled code goes as that of the code did, with the names in the
scopes replaced.

For that the new names must not bring together what was apart: two declarations may
have the same new name only if they had the same old one. Nothing else is needed.
In particular new names may be old names of other declarations, be they declared
earlier or later. Whether a name is taken is asked of the declarations around a
place. Of these none has the new name of another unless it had its old name, and
then the analysis would have found the old name taken as well.

## Main definitions

* `Scopes.respell`: Scopes with the names in them replaced.
* `Scopes.Covered`: All declarations in some scopes have a property.
* `Apart`: New names keep apart what was apart, and can be declared.
* `Block.Respells`, `Stmt.Respells`: Code is accepted in other names if it is accepted.

## Theorems

* `Scopes.lookup_respell`: A name is found where it was.
* `Scopes.register?_respell`: A declaration is entered where it was.
* `Expr.valueCount_respell`: Expressions have as many values.
* `Stmt.Respells.func`, `Stmt.Respells.loop` and so on: One for each kind of statement, from what
  is known of its parts.
* `Block.analyze_respell`, `Stmt.analyze_respell`: Statements.
* `analyze_respell`: Programs.
-/

namespace YulToolchain

/-- A scope with the names in it replaced. -/
def Scope.respell (g : String → String) (s : Scope) : Scope :=
  { s with symbols := s.symbols.map fun p => (g p.1, p.2) }

/-- Scopes with the names in them replaced. -/
def Scopes.respell (names : Declaration → String) (ss : Scopes) : Scopes :=
  ⟨ss.toArray.mapIdx fun i s => s.respell fun x => names ⟨i, x⟩⟩

/-- All declarations in some scopes have a property. -/
def Scopes.Covered (G : Declaration → Prop) (ss : Scopes) : Prop :=
  ∀ i s, ss.get? i = some s → ∀ p ∈ s.symbols, G ⟨i, p.1⟩

/-- New names keep apart what was apart, and can be declared where the old ones
    could. -/
structure Apart (d : Dialect) (names : Declaration → String) (G : Declaration → Prop) : Prop where
  apart : ∀ a b, G a → G b → names a = names b → a.name = b.name
  reserved : ∀ a, G a → d.reserved a.name = false ∧ d.reserved (names a) = false
  nonempty : ∀ a, G a → names a ≠ ""

section Lookup

variable {d : Dialect} {names : Declaration → String} {G : Declaration → Prop} {ss : Scopes}

theorem Scopes.get?_respell (i : Nat) :
    (ss.respell names).get? i = (ss.get? i).map (·.respell fun x => names ⟨i, x⟩) := by
  simp only [Scopes.respell, Scopes.get?, Array.getElem?_mapIdx]

@[simp]
theorem Scopes.size_respell : (ss.respell names).toArray.size = ss.toArray.size := by
  simp only [Scopes.respell, Array.size_mapIdx]

theorem Scopes.push_respell (parent : Option Nat) (isFunction : Bool) :
    ((ss.respell names).push parent isFunction).2
      = (ss.push parent isFunction).2.respell names := by
  simp only [Scopes.push, Scopes.respell, Array.mapIdx_push, Scope.respell, List.map_nil]

theorem Scopes.chainFrom_respell (fuel id : Nat) : (ss.respell names).chainFrom fuel id
    = (ss.chainFrom fuel id).map fun p => (p.1, p.2.respell fun x => names ⟨p.1, x⟩) := by
  induction fuel generalizing id with
  | zero => rfl
  | succ fuel ih =>
      simp only [Scopes.chainFrom, Scopes.get?_respell]
      rcases ss.get? id with _ | s
      · rfl
      · simp only [Option.map_some, List.map_cons]
        have hparent : (s.respell fun x => names ⟨id, x⟩).parent = s.parent := rfl
        rw [hparent]
        rcases s.parent with _ | outer
        · rfl
        · simp only [ih outer]

theorem Scopes.chain_respell (id : Nat) : (ss.respell names).chain id
    = (ss.chain id).map fun p => (p.1, p.2.respell fun x => names ⟨p.1, x⟩) := by
  rw [Scopes.chain, Scopes.chain, Scopes.size_respell, Scopes.chainFrom_respell]

/-- A scope of a chain is one of the scopes. -/
theorem Scopes.get?_of_mem_chain {id : Nat} {p : Nat × Scope} (h : p ∈ ss.chain id) :
    ss.get? p.1 = some p.2 := by
  have hfrom : ∀ fuel id, p ∈ ss.chainFrom fuel id → ss.get? p.1 = some p.2 := by
    intro fuel
    -- By induction on the length of the search, for every scope to begin at.
    induction fuel with
    | zero => intro id h; exact absurd h List.not_mem_nil
    | succ fuel ih =>
        intro id h
        rw [Scopes.chainFrom] at h
        rcases hs : ss.get? id with _ | s
        · simp only [hs] at h
          exact absurd h List.not_mem_nil
        · simp only [hs] at h
          rcases List.mem_cons.mp h with rfl | h
          · exact hs
          · rcases hp : s.parent with _ | outer
            · simp only [hp] at h
              exact absurd h List.not_mem_nil
            · simp only [hp] at h
              exact ih outer h
  exact hfrom _ _ h

theorem Scopes.covered_chain (h : ss.Covered G) (id : Nat) :
    ∀ p ∈ ss.chain id, ∀ q ∈ p.2.symbols, G ⟨p.1, q.1⟩ :=
  fun p hp q hq => h p.1 p.2 (Scopes.get?_of_mem_chain hp) q hq

theorem mem_symbols_of_find? {s : Scope} {x : String} {symbol : Symbol}
    (h : s.find? x = some symbol) : (x, symbol) ∈ s.symbols := by
  rcases List.lookup_eq_some_iff.mp h with ⟨before, after, heq, _⟩
  rw [heq]
  exact List.mem_append_right _ List.mem_cons_self

/-- What a scope declares under a name it declares under the new name. -/
theorem Scope.find?_respell_some (hG : Apart d names G) {i : Nat} {s : Scope}
    (hs : ∀ q ∈ s.symbols, G ⟨i, q.1⟩) {x : String} {symbol : Symbol}
    (h : s.find? x = some symbol) :
    (s.respell fun y => names ⟨i, y⟩).find? (names ⟨i, x⟩) = some symbol := by
  have hx : G ⟨i, x⟩ := hs _ (mem_symbols_of_find? h)
  rcases List.lookup_eq_some_iff.mp h with ⟨before, after, heq, hbefore⟩
  refine List.lookup_eq_some_iff.mpr ⟨before.map fun q => (names ⟨i, q.1⟩, q.2),
    after.map fun q => (names ⟨i, q.1⟩, q.2), ?_, ?_⟩
  · simp only [Scope.respell, heq, List.map_append, List.map_cons]
  · intro q hq
    rcases List.mem_map.mp hq with ⟨q₀, hq₀, rfl⟩
    have hne := hbefore q₀ hq₀
    rw [bne_iff_ne] at hne ⊢
    intro hc
    have hq₁ : q₀ ∈ s.symbols := by
      rw [heq]
      exact List.mem_append_left _ hq₀
    exact hne (hG.apart _ _ hx (hs q₀ hq₁) hc)

/-- A scope that does not declare the old name of a declaration does not declare the
    new one either. -/
theorem Scope.find?_respell_none (hG : Apart d names G) {i : Nat} {s : Scope}
    (hs : ∀ q ∈ s.symbols, G ⟨i, q.1⟩) {decl : Declaration} (hdecl : G decl)
    (h : s.find? decl.name = none) :
    (s.respell fun y => names ⟨i, y⟩).find? (names decl) = none := by
  refine List.lookup_eq_none_iff.mpr fun q hq => ?_
  rcases List.mem_map.mp hq with ⟨q₀, hq₀, rfl⟩
  have hne := List.lookup_eq_none_iff.mp h q₀ hq₀
  rw [bne_iff_ne] at hne ⊢
  exact fun hc => hne (hG.apart _ _ hdecl (hs q₀ hq₀) hc)

/-- A name that is found is covered, and its declaration has the name. -/
theorem Scopes.Covered.lookup (h : ss.Covered G) {id : Nat} {x : String} {decl : Declaration}
    {symbol : Symbol} (hl : ss.lookup id x = some (decl, symbol)) :
    G decl ∧ decl.name = x := by
  rcases Scopes.lookup_found hl with ⟨rfl, s, hs, hfind⟩
  exact ⟨Scopes.covered_chain h id _ hs _ (mem_symbols_of_find? hfind), rfl⟩

/-- A name is found where it was, under its new name. -/
theorem Scopes.lookup_respell (hG : Apart d names G) (hcov : ss.Covered G) {id : Nat} {x : String}
    {decl : Declaration} {symbol : Symbol} (hl : ss.lookup id x = some (decl, symbol)) :
    (ss.respell names).lookup id (names decl) = some (⟨decl.scope, names decl⟩, symbol) := by
  rcases hcov.lookup hl with ⟨hdecl, rfl⟩
  -- By induction on the chain. Names are apart, so a scope has the new name only if it had the old
  -- one.
  have hin : ∀ (chain : List (Nat × Scope)) (crossed : Bool),
      (∀ p ∈ chain, ∀ q ∈ p.2.symbols, G ⟨p.1, q.1⟩) →
      lookupIn decl.name crossed chain = some (decl, symbol) →
      lookupIn (names decl) crossed
          (chain.map fun p => (p.1, p.2.respell fun y => names ⟨p.1, y⟩))
        = some (⟨decl.scope, names decl⟩, symbol) := by
    intro chain
    induction chain with
    | nil => intro _ _ h; exact absurd h (by rintro ⟨⟩)
    | cons e outer ih =>
        intro crossed hcov h
        rcases e with ⟨i, s⟩
        have hs := hcov _ List.mem_cons_self
        simp only [lookupIn] at h
        simp only [List.map_cons, lookupIn]
        rcases hf : s.find? decl.name with _ | symbol'
        · simp only [hf] at h
          rw [Scope.find?_respell_none hG hs hdecl hf]
          exact ih _ (fun p hp => hcov p (List.mem_cons_of_mem _ hp)) h
        · simp only [hf] at h
          -- A variable outside of the function is not found, on either side.
          by_cases hc : (crossed && symbol'.isVariable) = true
          · rw [if_pos hc] at h
            exact absurd h (by rintro ⟨⟩)
          · rw [if_neg hc, Option.some.injEq, Prod.mk.injEq] at h
            rcases h with ⟨hd, rfl⟩
            have hfind := Scope.find?_respell_some hG hs hf
            rw [hd] at hfind
            simp only [hfind, if_neg hc, Option.some.injEq, Prod.mk.injEq, and_true]
            rw [← hd]
  rw [Scopes.lookup, Scopes.chain_respell]
  exact hin _ _ (Scopes.covered_chain hcov id) hl

/-- A name that was not taken is not taken in its new spelling. -/
theorem Scopes.taken_respell (hG : Apart d names G) (hcov : ss.Covered G) {id : Nat}
    {decl : Declaration} (hdecl : G decl) (h : ss.taken id decl.name = false) :
    (ss.respell names).taken id (names decl) = false := by
  rw [Scopes.taken, List.any_eq_false] at h
  rw [Scopes.taken, Scopes.chain_respell, List.any_eq_false]
  intro p hp
  rcases List.mem_map.mp hp with ⟨⟨i, s⟩, hq, rfl⟩
  have hnone : s.find? decl.name = none := by
    simpa only [Option.not_isSome_iff_eq_none] using h _ hq
  simp only [Scope.find?_respell_none hG (Scopes.covered_chain hcov id _ hq) hdecl hnone]
  exact Bool.false_ne_true

/-- Covered scopes with one name more are covered. -/
theorem Scopes.Covered.register (hcov : ss.Covered G) {ss' : Scopes} {id : Nat} {x : String}
    {symbol : Symbol} (hx : G ⟨id, x⟩) (h : ss.register? id x symbol = some ss') :
    ss'.Covered G := by
  rcases hs : ss.get? id with _ | s
  · simp only [Scopes.register?, hs, reduceCtorEq] at h
  · intro i t ht p hp
    rw [Scopes.get?_register hs h] at ht
    by_cases hi : i = id
    · subst hi
      rw [if_pos rfl, Option.some.injEq] at ht
      subst ht
      rcases List.mem_cons.mp hp with rfl | hp
      · exact hx
      · exact hcov i s hs p hp
    · rw [if_neg hi] at ht
      exact hcov i t ht p hp

/-- A new scope is covered. -/
theorem Scopes.Covered.push (hcov : ss.Covered G) (parent : Option Nat) (isFunction : Bool) :
    (ss.push parent isFunction).2.Covered G := by
  intro i s hs p hp
  have hlt := Scopes.lt_of_get? hs
  rw [Scopes.size_push] at hlt
  by_cases hi : i < ss.toArray.size
  · rw [Scopes.get?_push_old hi] at hs
    exact hcov i s hs p hp
  · obtain rfl : i = ss.toArray.size := by omega
    rw [Scopes.get?_push_new, Option.some.injEq] at hs
    subst hs
    exact absurd hp List.not_mem_nil

/-- A declaration is entered where it was, under its new name. -/
theorem Scopes.register?_respell (hG : Apart d names G) (hcov : ss.Covered G) {ss' : Scopes}
    {id : Nat} {x : String} {symbol : Symbol} (hx : G ⟨id, x⟩)
    (h : ss.register? id x symbol = some ss') :
    (ss.respell names).register? id (names ⟨id, x⟩) symbol = some (ss'.respell names) := by
  rcases hs : ss.get? id with _ | s
  · simp only [Scopes.register?, hs, reduceCtorEq] at h
  · simp only [Scopes.register?, hs] at h
    -- The name was free, and so is its spelling.
    have hnone : s.find? x = none := by
      by_contra hc
      rw [if_pos (Option.isSome_iff_ne_none.mpr hc)] at h
      exact absurd h (by rintro ⟨⟩)
    rw [hnone, Option.isSome_none, if_neg Bool.false_ne_true, Option.some.injEq] at h
    subst h
    have hfind := Scope.find?_respell_none hG (hcov id s hs) hx hnone
    simp only [Scopes.register?, Scopes.get?_respell, hs, Option.map_some, hfind,
      Option.isSome_none, Bool.false_eq_true, if_false, Option.some.injEq]
    rw [Scopes.respell, Scopes.respell, Scopes.mk.injEq]
    -- Both ways change one scope only.
    refine Array.ext_getElem? fun i => ?_
    simp only [Array.getElem?_modify, Array.getElem?_mapIdx]
    by_cases hi : id = i
    · subst hi
      simp only [if_true, Option.map_map]
      rfl
    · simp only [hi, if_false]

end Lookup

section Expressions

variable {d : Dialect} {names : Declaration → String} {G : Declaration → Prop} {ss final : Scopes}
  {scope : Nat}

/-- A name that is found is spelled as the declaration that it means. -/
theorem Scopes.Covered.spelling (hG : Apart d names G) (hcov : ss.Covered G)
    (hgrows : Scopes.Grows ss final) {x : String} {decl : Declaration} {symbol : Symbol}
    (hl : ss.lookup scope x = some (decl, symbol)) :
    final.spelling d names scope x = names decl ∧
      (ss.respell names).lookup scope (names decl) = some (⟨decl.scope, names decl⟩, symbol) ∧
      d.builtin? (names decl) = none := by
  rcases hcov.lookup hl with ⟨hdecl, hname⟩
  have hreserved := hG.reserved decl hdecl
  refine ⟨?_, Scopes.lookup_respell hG hcov hl, Dialect.builtin?_eq_none hreserved.2⟩
  refine Scopes.spelling_declared (Dialect.builtin?_eq_none ?_) (hgrows _ _ _ hl)
  rw [← hname]
  exact hreserved.1

/-- Literals have no names. -/
theorem Expr.checkLiterals_respell (g : String → String) : ∀ {args : List Expr},
    Expr.checkLiterals args = .ok () → Expr.checkLiterals (Expr.respellAll g args) = .ok ()
  | [], h => by rwa [Expr.respellAll]
  | .literal l :: rest, h => by
      rw [Expr.checkLiterals] at h
      rw [Expr.respellAll, Expr.respell, Expr.checkLiterals]
      by_cases hk : l.kind = .string
      · rw [if_pos hk] at h ⊢
        exact Expr.checkLiterals_respell g h
      · rw [if_neg hk] at h
        exact absurd h (by rintro ⟨⟩)
  | .ident _ _ :: _, h => absurd h (by rintro ⟨⟩)
  | .instr _ _ _ :: _, h => absurd h (by rintro ⟨⟩)
  | .call _ _ _ :: _, h => absurd h (by rintro ⟨⟩)

mutual

/-- An expression has as many values in other names. -/
theorem Expr.valueCount_respell (hG : Apart d names G) (hcov : ss.Covered G)
    (hgrows : Scopes.Grows ss final) : ∀ {e : Expr} {n : Nat}, e.valueCount d ss scope = .ok n →
      (e.respell (final.spelling d names scope)).valueCount d (ss.respell names) scope = .ok n
  | .literal l, n, h => by
      rw [Expr.valueCount] at h
      rw [Expr.respell, Expr.valueCount]
      exact h
  | .ident line x, n, h => by
      rw [Expr.valueCount] at h
      rcases hl : ss.lookup scope x with _ | ⟨decl, symbol⟩
      · simp only [hl, reduceCtorEq] at h
      -- The use is spelled like its declaration, and found there again.
      · rcases hcov.spelling hG hgrows hl with ⟨hspell, hlookup, _⟩
        rw [Expr.respell, hspell, Expr.valueCount, hlookup]
        cases symbol <;> simp only [hl, reduceCtorEq] at h ⊢ <;> exact h
  | .instr line op args, n, h => by
      rw [Expr.valueCount] at h
      rw [Expr.respell, Expr.valueCount, Expr.length_respellAll]
      by_cases hlength : args.length ≠ op.args
      · rw [if_pos hlength] at h
        exact absurd h (by rintro ⟨⟩)
      · rw [if_neg hlength] at h ⊢
        rcases bind_eq_ok h with ⟨_, hargs, h⟩
        rw [Expr.checkArgs_respell hG hcov hgrows hargs]
        exact h
  | .call line name args, n, h => by
      rw [Expr.valueCount] at h
      rw [Expr.respell]
      rcases hb : d.builtin? name with _ | b
      · simp only [hb] at h
        rcases hl : ss.lookup scope name with _ | ⟨decl, symbol⟩
        · simp only [hl, reduceCtorEq] at h
        · rcases hcov.spelling hG hgrows hl with ⟨hspell, hlookup, hnone⟩
          -- The function has the same parameters and results, so that its call counts the same.
          rw [hspell, Expr.valueCount, hnone, hlookup]
          cases symbol with
          | var type => simp only [hl, reduceCtorEq] at h
          | label => simp only [hl, reduceCtorEq] at h
          | function params returns =>
              simp only [hl] at h
              simp only [Expr.length_respellAll]
              by_cases hlength : args.length ≠ params.length
              · rw [if_pos hlength] at h
                exact absurd h (by rintro ⟨⟩)
              · rw [if_neg hlength] at h ⊢
                rcases bind_eq_ok h with ⟨_, hargs, h⟩
                rw [Expr.checkArgs_respell hG hcov hgrows hargs]
                exact h
      · simp only [hb] at h
        -- Builtins keep their names.
        rw [Scopes.spelling_builtin hb, Expr.valueCount, hb]
        simp only [Expr.length_respellAll]
        by_cases hlit : b.literalArguments = true
        · rw [if_pos hlit] at h ⊢
          by_cases hlength : args.length ≠ b.params
          · rw [if_pos hlength] at h
            exact absurd h (by rintro ⟨⟩)
          · rw [if_neg hlength] at h ⊢
            rcases bind_eq_ok h with ⟨_, hargs, h⟩
            rw [Expr.checkLiterals_respell _ hargs]
            exact h
        · rw [if_neg hlit] at h ⊢
          by_cases hlength : args.length ≠ b.params
          · rw [if_pos hlength] at h
            exact absurd h (by rintro ⟨⟩)
          · rw [if_neg hlength] at h ⊢
            rcases bind_eq_ok h with ⟨_, hargs, h⟩
            rw [Expr.checkArgs_respell hG hcov hgrows hargs]
            exact h

/-- Renamed arguments are checked the same. -/
theorem Expr.checkArgs_respell (hG : Apart d names G) (hcov : ss.Covered G)
    (hgrows : Scopes.Grows ss final) : ∀ {args : List Expr},
    Expr.checkArgs d ss scope args = .ok () →
      Expr.checkArgs d (ss.respell names) scope
        (Expr.respellAll (final.spelling d names scope) args) = .ok ()
  | [], h => by rwa [Expr.respellAll]
  | e :: rest, h => by
      rw [Expr.checkArgs] at h
      rcases bind_eq_ok h with ⟨_, hrest, h⟩
      rcases bind_eq_ok h with ⟨count, hcount, h⟩
      rw [Expr.respellAll, Expr.checkArgs, Expr.checkArgs_respell hG hcov hgrows hrest]
      simp only [Expr.valueCount_respell hG hcov hgrows hcount, Bind.bind, Except.bind,
        Expr.line_respell]
      exact h

end

/-- A renamed expression has as many values. -/
theorem Analysis.expectValues_respell (hG : Apart d names G) (hcov : ss.Covered G)
    (hgrows : Scopes.Grows ss final) {e : Expr} {n : Nat}
    (h : Analysis.expectValues d ss scope e n = .ok ()) :
    Analysis.expectValues d (ss.respell names) scope
      (e.respell (final.spelling d names scope)) n = .ok () := by
  rcases bind_eq_ok h with ⟨count, hcount, h⟩
  simp only [Analysis.expectValues, Expr.valueCount_respell hG hcov hgrows hcount, Bind.bind,
    Except.bind, Expr.line_respell]
  exact h

/-- A renamed target is a variable in sight. -/
theorem Analysis.expectVariable_respell (hG : Apart d names G) (hcov : ss.Covered G)
    (hgrows : Scopes.Grows ss final) {t : Identifier}
    (h : Analysis.expectVariable ss scope t = .ok ()) :
    Analysis.expectVariable (ss.respell names) scope
      (t.respell (final.spelling d names scope)) = .ok () := by
  rw [Analysis.expectVariable] at h
  rcases hl : ss.lookup scope t.name with _ | ⟨decl, symbol⟩
  · simp only [hl, reduceCtorEq] at h
  · rcases hcov.spelling hG hgrows hl with ⟨hspell, hlookup, _⟩
    rw [Analysis.expectVariable, Identifier.respell, hspell, hlookup]
    cases symbol <;> simp only [hl, reduceCtorEq] at h ⊢

theorem Analysis.expectVariables_respell (hG : Apart d names G) (hcov : ss.Covered G)
    (hgrows : Scopes.Grows ss final) : ∀ {targets : List Identifier},
    targets.forM (Analysis.expectVariable ss scope) = .ok () →
      (targets.map (·.respell (final.spelling d names scope))).forM
        (Analysis.expectVariable (ss.respell names) scope) = .ok ()
  | [], h => h
  | t :: rest, h => by
      rcases bind_eq_ok h with ⟨_, hhere, hrest⟩
      have ih := Analysis.expectVariables_respell hG hcov hgrows hrest
      rw [List.map_cons]
      simp only [List.forM, Analysis.expectVariable_respell hG hcov hgrows hhere]
      exact ih

end Expressions

section Declarations

variable {d : Dialect} {names : Declaration → String} {G : Declaration → Prop} {scope : Nat}

/-- A declaration is accepted in other names. -/
theorem Analysis.declare_respell (hG : Apart d names G) {line : Nat} {x : String}
    {symbol : Symbol} {ss ss' : Scopes} (hcov : ss.Covered G)
    (hx : d.reserved x = false → x ≠ "" → G ⟨scope, x⟩)
    (h : Analysis.declare d scope line x symbol ss = .ok ss') :
    Analysis.declare d scope line (names ⟨scope, x⟩) symbol (ss.respell names)
      = .ok (ss'.respell names) ∧ ss'.Covered G := by
  rcases Analysis.declare_ok h with ⟨hres, hne, htaken, hreg⟩
  have hx := hx hres hne
  have hne' : (names ⟨scope, x⟩).isEmpty = false := by
    rw [← Bool.not_eq_true, String.isEmpty_iff]
    exact hG.nonempty _ hx
  have htaken' : (ss.respell names).taken scope (names ⟨scope, x⟩) = false :=
    Scopes.taken_respell hG hcov hx htaken
  refine ⟨?_, hcov.register hx hreg⟩
  rw [Analysis.declare, (hG.reserved _ hx).2, hne', htaken',
    Scopes.register?_respell hG hcov hx hreg]
  rfl

/-- Renamed variables are declared the same, if their spellings are those of the declarations. -/
theorem Analysis.declareVariables_respell (hG : Apart d names G) {g : String → String} :
    ∀ {vars : List TypedName} {ss ss' : Scopes}, ss.Covered G →
      (∀ x ∈ vars, d.reserved x.name = false → x.name ≠ "" → G ⟨scope, x.name⟩) →
      (∀ x ∈ vars, g x.name = names ⟨scope, x.name⟩) →
      Analysis.declareVariables d scope vars ss = .ok ss' →
        Analysis.declareVariables d scope (vars.map (·.respell g)) (ss.respell names)
          = .ok (ss'.respell names) ∧ ss'.Covered G
  | [], ss, ss', hcov, _, _, h => by
      cases h
      exact ⟨rfl, hcov⟩
  | x :: rest, ss, ss', hcov, hvars, hg, h => by
      simp only [Analysis.declareVariables, List.foldlM_cons] at h
      rcases bind_eq_ok h with ⟨ss₁, h₁, hrest⟩
      rcases Analysis.declare_respell hG hcov (hvars x List.mem_cons_self) h₁ with ⟨hnew, hcov₁⟩
      have ih := Analysis.declareVariables_respell hG hcov₁
        (fun y hy => hvars y (List.mem_cons_of_mem _ hy))
        (fun y hy => hg y (List.mem_cons_of_mem _ hy)) hrest
      refine ⟨?_, ih.2⟩
      simp only [Analysis.declareVariables, List.map_cons, List.foldlM_cons, TypedName.respell,
        hg x List.mem_cons_self, hnew]
      exact ih.1

/-- The functions and labels of a block are hoisted in other names. -/
theorem Analysis.hoist_respell (hG : Apart d names G) {f : Spelling} :
    ∀ {stmts : List Stmt} (next : Nat) {ss ss' : Scopes}, ss.Covered G →
      (∀ p ∈ stmts.flatMap Stmt.hoists,
        d.reserved p.1 = false → p.1 ≠ "" → G ⟨scope, p.1⟩) →
      (∀ p ∈ stmts.flatMap Stmt.hoists, f scope p.1 = names ⟨scope, p.1⟩) →
      Analysis.hoist d scope stmts ss = .ok ss' →
        Analysis.hoist d scope (Stmt.respellSeq f scope next stmts) (ss.respell names)
          = .ok (ss'.respell names) ∧ ss'.Covered G
  | [], next, ss, ss', hcov, _, _, h => by
      cases h
      rw [Stmt.respellSeq]
      exact ⟨rfl, hcov⟩
  | s :: rest, next, ss, ss', hcov, hnames, hf, h => by
      rw [List.flatMap_cons, List.forall_mem_append] at hnames hf
      simp only [Analysis.hoist, List.foldlM_cons] at h
      rcases bind_eq_ok h with ⟨ss₁, h₁, hrest⟩
      have hs : Analysis.hoistOne d scope (ss.respell names) (s.respell f scope next)
          = .ok (ss₁.respell names) ∧ ss₁.Covered G := by
        -- A function or a label declares its name; the others declare nothing.
        cases s with
        | func line name params returns body =>
            have htypes : ∀ vars : List TypedName,
                (vars.map (·.respell (f next))).map (·.type) = vars.map (·.type) := by
              intro vars
              rw [List.map_map]
              rfl
            rw [Stmt.hoists, List.forall_mem_singleton] at hnames hf
            rw [Stmt.respell, Analysis.hoistOne, htypes, htypes, hf.1]
            exact Analysis.declare_respell hG hcov hnames.1 h₁
        | label line name =>
            rw [Stmt.hoists, List.forall_mem_singleton] at hnames hf
            rw [Stmt.respell, Analysis.hoistOne, hf.1]
            exact Analysis.declare_respell hG hcov hnames.1 h₁
        | loop line pre test post body =>
            rcases pre with ⟨preLine, pre⟩
            cases h₁
            rw [Stmt.respell]
            exact ⟨rfl, hcov⟩
        | _ =>
            cases h₁
            rw [Stmt.respell]
            exact ⟨rfl, hcov⟩
      have ih := Analysis.hoist_respell hG (next + s.scopeCount) hs.2 hnames.2 hf.2 hrest
      refine ⟨?_, ih.2⟩
      rw [Stmt.respellSeq]
      simp only [Analysis.hoist, List.foldlM_cons, hs.1]
      exact ih.1

end Declarations

section Statements

variable {d : Dialect} {names : Declaration → String} {G : Declaration → Prop} {final : Scopes}

/-- What is declared in a scope is spelled as its declaration. -/
theorem Scopes.spelling_own {ss : Scopes} {scope : Nat} {x : String} {symbol : Symbol}
    (hgrows : Scopes.Grows ss final) (hres : d.reserved x = false)
    (hl : ss.lookup scope x = some (⟨scope, x⟩, symbol)) :
    final.spelling d names scope x = names ⟨scope, x⟩ :=
  Scopes.spelling_declared (Dialect.builtin?_eq_none hres) (hgrows _ _ _ hl)

theorem Analysis.declareVariables_spelled (hG : Apart d names G) {vars : List TypedName}
    {ss ss' : Scopes} {scope : Nat} (hcov : ss.Covered G) (h : ss.Place scope)
    (hgrows : Scopes.Grows ss' final)
    (hdecl : ∀ x ∈ vars, d.reserved x.name = false → x.name ≠ "" → G ⟨scope, x.name⟩)
    (hok : Analysis.declareVariables d scope vars ss = .ok ss') :
    Analysis.declareVariables d scope (vars.map (·.respell (final.spelling d names scope)))
      (ss.respell names) = .ok (ss'.respell names) ∧ ss'.Covered G := by
  rcases Analysis.declareVariables_passed h hok with ⟨hpassed, hnames⟩
  refine Analysis.declareVariables_respell hG hcov hdecl (fun x hx => ?_) hok
  have hmem : (x.name, Symbol.var x.type) ∈ TypedName.symbols vars := List.mem_map_of_mem hx
  exact Scopes.spelling_own hgrows (hnames x hx).1 (hpassed.lookup h hmem)

/-- What is hoisted is declared in its scope. -/
theorem Stmt.mem_declarationsSeq {p : String × Symbol} {scope : Nat} : ∀ {stmts : List Stmt}
    {next : Nat}, p ∈ stmts.flatMap Stmt.hoists →
      ⟨scope, p.1⟩ ∈ Stmt.declarationsSeq scope next stmts
  | s :: rest, next, hp => by
      rw [Stmt.declarationsSeq, List.mem_append]
      rw [List.flatMap_cons, List.mem_append] at hp
      rcases hp with hp | hp
      · left
        cases s with
        | func line name params returns body =>
            obtain rfl := List.mem_singleton.mp hp
            rw [Stmt.declarations]
            exact List.mem_cons_self
        | label line name =>
            obtain rfl := List.mem_singleton.mp hp
            rw [Stmt.declarations]
            exact List.mem_cons_self
        | _ => exact absurd hp List.not_mem_nil
      · exact .inr (Stmt.mem_declarationsSeq hp)

/-- The functions and labels of a block are hoisted into its scope in other names. -/
theorem Analysis.hoist_spelled (hG : Apart d names G) {stmts : List Stmt} {ss ss' : Scopes}
    {scope next : Nat} (hcov : ss.Covered G) (h : ss.Place scope)
    (hgrows : Scopes.Grows ss' final)
    (hdecl : ∀ decl ∈ Stmt.declarationsSeq scope next stmts,
      d.reserved decl.name = false → decl.name ≠ "" → G decl)
    (hok : Analysis.hoist d scope stmts ss = .ok ss') :
    Analysis.hoist d scope (Stmt.respellSeq (final.spelling d names) scope next stmts)
      (ss.respell names) = .ok (ss'.respell names) ∧ ss'.Covered G := by
  rcases Analysis.hoist_passed h hok with ⟨hpassed, hnames⟩
  refine Analysis.hoist_respell hG next hcov (fun p hp => hdecl _ (Stmt.mem_declarationsSeq hp))
    (fun p hp => ?_) hok
  exact Scopes.spelling_own hgrows (hnames p hp).1 (hpassed.lookup h hp)

/-- If the analysis accepts a block then it accepts the block in other names, and what it enters
    into the scopes is the same in these names. -/
def Block.Respells (d : Dialect) (names : Declaration → String) (G : Declaration → Prop)
    (final : Scopes) (inLoop : Bool) (b : Block) : Prop :=
  ∀ ⦃ss ss' : Scopes⦄ ⦃scope : Nat⦄,
    ss.Place scope →
    b.analyze d (some scope) inLoop ss = .ok ss' → Scopes.Grows ss' final → ss.Covered G →
    (∀ decl ∈ b.declarations ss.toArray.size,
      d.reserved decl.name = false → decl.name ≠ "" → G decl) →
      (b.respell (final.spelling d names) ss.toArray.size).analyze d (some scope) inLoop
        (ss.respell names) = .ok (ss'.respell names) ∧ ss'.Covered G

/-- If the analysis accepts statements then it accepts them in other names. -/
def Stmt.RespellsSeq (d : Dialect) (names : Declaration → String) (G : Declaration → Prop)
    (final : Scopes) (inLoop : Bool) (stmts : List Stmt) : Prop :=
  ∀ ⦃ss ss' : Scopes⦄ ⦃scope : Nat⦄,
    ss.Place scope →
    Stmt.analyzeSeq d scope inLoop stmts ss = .ok ss' → Scopes.Grows ss' final →
    ss.Covered G → (∀ decl ∈ Stmt.declarationsSeq scope ss.toArray.size stmts,
      d.reserved decl.name = false → decl.name ≠ "" → G decl) →
      Stmt.analyzeSeq d scope inLoop
        (Stmt.respellSeq (final.spelling d names) scope ss.toArray.size stmts)
        (ss.respell names) = .ok (ss'.respell names) ∧ ss'.Covered G

/-- If the analysis accepts a statement then it accepts the statement in other names. -/
def Stmt.Respells (d : Dialect) (names : Declaration → String) (G : Declaration → Prop)
    (final : Scopes) (inLoop : Bool) (s : Stmt) : Prop :=
  ∀ ⦃ss ss' : Scopes⦄ ⦃scope : Nat⦄,
    ss.Place scope →
    s.analyze d scope inLoop ss = .ok ss' → Scopes.Grows ss' final → ss.Covered G →
    (∀ decl ∈ s.declarations scope ss.toArray.size,
      d.reserved decl.name = false → decl.name ≠ "" → G decl) →
      (s.respell (final.spelling d names) scope ss.toArray.size).analyze d scope inLoop
        (ss.respell names) = .ok (ss'.respell names) ∧ ss'.Covered G

/-- If the analysis accepts the cases of a switch then it accepts them in other names. -/
def Case.RespellsSeq (d : Dialect) (names : Declaration → String) (G : Declaration → Prop)
    (final : Scopes) (inLoop : Bool) (cases : List Case) : Prop :=
  ∀ (seen : List Word) ⦃ss ss' : Scopes⦄ ⦃scope : Nat⦄,
    ss.Place scope → Case.analyzeSeq d scope inLoop seen cases ss = .ok ss' →
    Scopes.Grows ss' final → ss.Covered G →
    (∀ decl ∈ Case.declarationsSeq ss.toArray.size cases,
      d.reserved decl.name = false → decl.name ≠ "" → G decl) →
      Case.analyzeSeq d scope inLoop seen
        (Case.respellSeq (final.spelling d names) ss.toArray.size cases)
        (ss.respell names) = .ok (ss'.respell names) ∧ ss'.Covered G

variable {inLoop : Bool}

/-- A renamed block is accepted if its statements are, once renamed. -/
theorem Block.Respells.of_stmts (hG : Apart d names G) {line : Nat} {stmts : List Stmt}
    (hinner : Stmt.RespellsSeq d names G final inLoop stmts) :
    Block.Respells d names G final inLoop ⟨line, stmts⟩ := by
  intro ss ss' scope h hok hgrows hcov hdecl
  rw [Block.declarations] at hdecl
  rw [Block.analyze] at hok
  rcases bind_eq_ok hok with ⟨ss₁, hhoist, hseq⟩
  have h₁ := (Analysis.hoist_passed (h.push false) hhoist).1
  have hplace₁ := h₁.place (h.push false)
  have h₂ := Stmt.analyzeSeq_passed hplace₁ hseq
  -- The scope of the block has the next number on both sides.
  have hsize := h₁.size
  rw [Scopes.size_push, Nat.add_zero] at hsize
  rcases Analysis.hoist_spelled hG (hcov.push _ _) (h.push false)
    (h₂.grows.trans hgrows) hdecl hhoist with ⟨hhoist', hcov₁⟩
  rw [← hsize] at hdecl hhoist'
  have hseq' := hinner hplace₁ hseq hgrows hcov₁ hdecl
  rw [hsize] at hseq' hhoist'
  refine ⟨?_, hseq'.2⟩
  rw [Block.respell, Block.analyze]
  simp only [Scopes.push_respell]
  have hid : ((ss.respell names).push (some scope) false).1 = ss.toArray.size :=
    Scopes.size_respell
  simp only [hid, hhoist']
  exact hseq'.1

namespace Stmt.RespellsSeq

theorem nil : Stmt.RespellsSeq d names G final inLoop [] := by
  intro ss ss' scope _ hok _ hcov _
  rw [Stmt.analyzeSeq] at hok
  cases hok
  rw [Stmt.respellSeq, Stmt.analyzeSeq]
  exact ⟨rfl, hcov⟩

/-- Renamed statements are accepted one by one. -/
theorem cons {s : Stmt} {rest : List Stmt} (hone : s.Respells d names G final inLoop)
    (hmore : Stmt.RespellsSeq d names G final inLoop rest) :
    Stmt.RespellsSeq d names G final inLoop (s :: rest) := by
  intro ss ss' scope h hok hgrows hcov hdecl
  rw [Stmt.declarationsSeq] at hdecl
  rw [Stmt.analyzeSeq] at hok
  rcases bind_eq_ok hok with ⟨ss₁, hs, hrest⟩
  have h₁ := Stmt.analyze_passed h hs
  have h₂ := Stmt.analyzeSeq_passed (h₁.place h) hrest
  rcases hone h hs (h₂.grows.trans hgrows) hcov
    (fun decl hmem => hdecl decl (List.mem_append_left _ hmem)) with ⟨hs', hcov₁⟩
  have hrest' := hmore (h₁.place h) hrest hgrows
    hcov₁ (fun decl hmem => hdecl decl (List.mem_append_right _ (h₁.size ▸ hmem)))
  rw [h₁.size] at hrest'
  refine ⟨?_, hrest'.2⟩
  rw [Stmt.respellSeq, Stmt.analyzeSeq, hs']
  exact hrest'.1

end Stmt.RespellsSeq

namespace Stmt.Respells

theorem expr (hG : Apart d names G) {line : Nat} {e : Expr} :
    (Stmt.expr line e).Respells d names G final inLoop := by
  intro ss ss' scope _ hok hgrows hcov _
  rcases Stmt.analyze_expr_ok hok with ⟨rfl, n, hn, hz⟩
  refine ⟨?_, hcov⟩
  rw [Stmt.respell, Stmt.analyze]
  have hz' : ¬(n ≠ 0 ∧ d.flavour ≠ .loose) := fun hc => hz.elim hc.1 hc.2
  simp only [Expr.valueCount_respell hG hcov hgrows hn, Bind.bind, Except.bind, if_neg hz']
  rfl

theorem assign (hG : Apart d names G) {line : Nat} {targets : List Identifier} {value : Expr} :
    (Stmt.assign line targets value).Respells d names G final inLoop := by
  intro ss ss' scope _ hok hgrows hcov _
  rw [Stmt.analyze] at hok
  rcases bind_eq_ok hok with ⟨_, hvalue, hok⟩
  rcases bind_eq_ok hok with ⟨_, htargets, hok⟩
  cases hok
  refine ⟨?_, hcov⟩
  rw [Stmt.respell, Stmt.analyze, List.length_map]
  simp only [Analysis.expectValues_respell hG hcov hgrows hvalue,
    Analysis.expectVariables_respell hG hcov hgrows htargets, Bind.bind, Except.bind]
  rfl

theorem decl_none (hG : Apart d names G) {line : Nat} {vars : List TypedName} :
    (Stmt.decl line vars none).Respells d names G final inLoop := by
  intro ss ss' scope h hok hgrows hcov hdecl
  rw [Stmt.analyze] at hok
  rw [Stmt.declarations] at hdecl
  rw [Stmt.respell, Option.map_none, Stmt.analyze]
  exact Analysis.declareVariables_spelled hG hcov h hgrows
    (fun x hx => hdecl _ (List.mem_map_of_mem hx)) hok

theorem decl_some (hG : Apart d names G) {line : Nat} {vars : List TypedName} {value : Expr} :
    (Stmt.decl line vars (some value)).Respells d names G final inLoop := by
  intro ss ss' scope h hok hgrows hcov hdecl
  rw [Stmt.analyze] at hok
  rcases bind_eq_ok hok with ⟨_, hvalue, hok⟩
  rw [Stmt.declarations] at hdecl
  rw [Stmt.respell, Option.map_some, Stmt.analyze, List.length_map]
  have hgrows₁ := (Analysis.declareVariables_passed h hok).1.grows
  simp only [Analysis.expectValues_respell hG hcov (hgrows₁.trans hgrows) hvalue]
  exact Analysis.declareVariables_spelled hG hcov h hgrows
    (fun x hx => hdecl _ (List.mem_map_of_mem hx)) hok

/-- The parameters are declared in the new scope in other names, and the body is analysed there. -/
theorem func (hG : Apart d names G) {line : Nat} {name : String} {params returns : List TypedName}
    {body : Block} (hinner : body.Respells d names G final false) :
    (Stmt.func line name params returns body).Respells d names G final inLoop := by
  intro ss ss' scope h hok hgrows hcov hdecl
  rw [Stmt.declarations] at hdecl
  rw [Stmt.analyze] at hok
  -- The variables first, in the scope of the function, and then its body.
  rcases bind_eq_ok hok with ⟨ss₁, hvars, hbody⟩
  have h₁ := (Analysis.declareVariables_passed (h.push true) hvars).1
  have hplace₁ := h₁.place (h.push true)
  have h₂ := Block.analyze_passed hplace₁ hbody
  have hsize := h₁.size
  rw [Scopes.size_push, Nat.add_zero] at hsize
  rcases Analysis.declareVariables_spelled hG (hcov.push _ _) (h.push true)
    (h₂.grows.trans hgrows) (fun x hx => hdecl _ (List.mem_append_left _
      (List.mem_cons_of_mem _ (List.mem_map_of_mem hx)))) hvars with ⟨hvars', hcov₁⟩
  have hbody' := hinner hplace₁ hbody hgrows hcov₁
    (fun decl hmem => hdecl decl (List.mem_append_right _ (hsize ▸ hmem)))
  rw [hsize] at hbody'
  refine ⟨?_, hbody'.2⟩
  rw [Stmt.respell, Stmt.analyze]
  have hid : ((ss.respell names).push (some scope) true).1 = ss.toArray.size :=
    Scopes.size_respell
  simp only [Scopes.push_respell, hid]
  -- The parameters and results are renamed in one list.
  rw [← List.map_append]
  simp only [hvars']
  exact hbody'.1

theorem cond (hG : Apart d names G) {line : Nat} {test : Expr} {body : Block}
    (hinner : body.Respells d names G final inLoop) :
    (Stmt.cond line test body).Respells d names G final inLoop := by
  intro ss ss' scope h hok hgrows hcov hdecl
  rw [Stmt.declarations] at hdecl
  rw [Stmt.analyze] at hok
  rcases bind_eq_ok hok with ⟨_, htest, hok⟩
  have h₁ := Block.analyze_passed h hok
  rw [Stmt.respell, Stmt.analyze]
  simp only [Analysis.expectValues_respell hG hcov (h₁.grows.trans hgrows) htest]
  exact hinner h hok hgrows hcov hdecl

theorem switch (hG : Apart d names G) {line : Nat} {subject : Expr} {cases : List Case}
    (hinner : Case.RespellsSeq d names G final inLoop cases) :
    (Stmt.switch line subject cases).Respells d names G final inLoop := by
  intro ss ss' scope h hok hgrows hcov hdecl
  rw [Stmt.declarations] at hdecl
  rw [Stmt.analyze] at hok
  rcases bind_eq_ok hok with ⟨_, hsubject, hok⟩
  have h₁ := Case.analyzeSeq_passed h hok
  rw [Stmt.respell, Stmt.analyze]
  simp only [Analysis.expectValues_respell hG hcov (h₁.grows.trans hgrows) hsubject]
  exact hinner [] h hok hgrows hcov hdecl

/-- What is declared in the initialisation is seen in all of the loop, so the scopes grow from one
    part to the next, and the names of each part are those that the scopes have in the end. -/
theorem loop (hG : Apart d names G) {line preLine : Nat} {pre : List Stmt} {test : Expr}
    {post body : Block} (hinit : Stmt.RespellsSeq d names G final inLoop pre)
    (hround : body.Respells d names G final true) (hthen : post.Respells d names G final false) :
    (Stmt.loop line ⟨preLine, pre⟩ test post body).Respells d names G final inLoop := by
  intro ss ss' scope h hok hgrows hcov hdecl
  rw [Stmt.declarations] at hdecl
  rw [Stmt.analyze] at hok
  -- Init part, test, body and post part, with the scopes that each has left.
  rcases bind_eq_ok hok with ⟨ss₁, hhoist, hok⟩
  rcases bind_eq_ok hok with ⟨ss₂, hpre, hok⟩
  rcases bind_eq_ok hok with ⟨_, htest, hok⟩
  rcases bind_eq_ok hok with ⟨ss₃, hbody, hpost⟩
  have h₁ := (Analysis.hoist_passed (h.push false) hhoist).1
  have hplace₁ := h₁.place (h.push false)
  have h₂ := Stmt.analyzeSeq_passed hplace₁ hpre
  have hplace₂ := h₂.place hplace₁
  have h₃ := Block.analyze_passed hplace₂ hbody
  have hplace₃ := h₃.place hplace₂
  have h₄ := Block.analyze_passed hplace₃ hpost
  have hsize₁ := h₁.size
  rw [Scopes.size_push, Nat.add_zero] at hsize₁
  have hsize₂ := h₂.size
  have hsize₃ := h₃.size
  rw [hsize₁] at hsize₂
  rw [hsize₂] at hsize₃
  have hgrows₃ := h₄.grows.trans hgrows
  have hgrows₂ := h₃.grows.trans hgrows₃
  have hgrows₁ := h₂.grows.trans hgrows₂
  -- Each part is accepted by what is assumed of it, where its own declarations are covered.
  rcases Analysis.hoist_spelled hG (hcov.push _ _) (h.push false) hgrows₁
    (fun decl hmem => hdecl decl (List.mem_append_left _ (List.mem_append_left _ hmem)))
    hhoist with ⟨hhoist', hcov₁⟩
  rcases hinit hplace₁ hpre hgrows₂ hcov₁
    (fun decl hmem => hdecl decl (List.mem_append_left _ (List.mem_append_left _
      (hsize₁ ▸ hmem)))) with ⟨hpre', hcov₂⟩
  rcases hround hplace₂ hbody hgrows₃ hcov₂
    (fun decl hmem => hdecl decl (List.mem_append_left _ (List.mem_append_right _
      (hsize₂ ▸ hmem)))) with ⟨hbody', hcov₃⟩
  rcases hthen hplace₃ hpost hgrows hcov₃
    (fun decl hmem => hdecl decl (List.mem_append_right _ (hsize₃ ▸ hmem))) with
    ⟨hpost', hcov₄⟩
  -- The numbers of the scopes are those of the code as it was.
  rw [hsize₁] at hpre'
  rw [hsize₂] at hbody'
  rw [hsize₃] at hpost'
  refine ⟨?_, hcov₄⟩
  rw [Stmt.respell, Stmt.analyze]
  have hid : ((ss.respell names).push (some scope) false).1 = ss.toArray.size :=
    Scopes.size_respell
  simp only [Scopes.push_respell, hid, hhoist', Bind.bind, Except.bind, hpre',
    Analysis.expectValues_respell hG hcov₂ hgrows₂ htest, hbody', hpost']

theorem brk {line : Nat} : (Stmt.brk line).Respells d names G final inLoop := by
  intro ss ss' scope _ hok _ hcov _
  rw [Stmt.analyze] at hok
  rw [Stmt.respell, Stmt.analyze]
  cases inLoop with
  | false => exact absurd hok (by rintro ⟨⟩)
  | true =>
      cases hok
      exact ⟨rfl, hcov⟩

theorem cont {line : Nat} : (Stmt.cont line).Respells d names G final inLoop := by
  intro ss ss' scope _ hok _ hcov _
  rw [Stmt.analyze] at hok
  rw [Stmt.respell, Stmt.analyze]
  cases inLoop with
  | false => exact absurd hok (by rintro ⟨⟩)
  | true =>
      cases hok
      exact ⟨rfl, hcov⟩

theorem block {b : Block} (hinner : b.Respells d names G final inLoop) :
    (Stmt.block b).Respells d names G final inLoop := by
  intro ss ss' scope h hok hgrows hcov hdecl
  rw [Stmt.declarations] at hdecl
  rw [Stmt.analyze] at hok
  rw [Stmt.respell, Stmt.analyze]
  exact hinner h hok hgrows hcov hdecl

theorem label {line : Nat} {name : String} :
    (Stmt.label line name).Respells d names G final inLoop := by
  intro ss ss' scope _ hok _ hcov _
  rw [Stmt.analyze] at hok
  cases hok
  rw [Stmt.respell, Stmt.analyze]
  exact ⟨rfl, hcov⟩

theorem stackAssign (hG : Apart d names G) {line : Nat} {target : Identifier} :
    (Stmt.stackAssign line target).Respells d names G final inLoop := by
  intro ss ss' scope _ hok hgrows hcov _
  rw [Stmt.analyze] at hok
  rcases bind_eq_ok hok with ⟨_, htarget, hok⟩
  cases hok
  refine ⟨?_, hcov⟩
  rw [Stmt.respell, Stmt.analyze]
  simp only [Analysis.expectVariable_respell hG hcov hgrows htarget, Bind.bind, Except.bind]
  rfl

end Stmt.Respells

namespace Case.RespellsSeq

theorem nil : Case.RespellsSeq d names G final inLoop [] := by
  intro seen ss ss' scope _ hok _ hcov _
  rw [Case.analyzeSeq] at hok
  cases hok
  rw [Case.respellSeq, Case.analyzeSeq]
  exact ⟨rfl, hcov⟩

/-- A renamed default case is accepted like its body. -/
theorem default {line : Nat} {body : Block} {rest : List Case}
    (hinner : body.Respells d names G final inLoop)
    (hmore : Case.RespellsSeq d names G final inLoop rest) :
    Case.RespellsSeq d names G final inLoop (⟨line, none, body⟩ :: rest) := by
  intro seen ss ss' scope h hok hgrows hcov hdecl
  rw [Case.declarationsSeq] at hdecl
  rw [Case.analyzeSeq] at hok
  rcases bind_eq_ok hok with ⟨ss₁, hbody, hrest⟩
  have h₁ := Block.analyze_passed h hbody
  have h₂ := Case.analyzeSeq_passed (h₁.place h) hrest
  rcases hinner h hbody (h₂.grows.trans hgrows) hcov
    (fun decl hmem => hdecl decl (List.mem_append_left _ hmem)) with ⟨hbody', hcov₁⟩
  have hrest' := hmore seen (h₁.place h) hrest
    hgrows hcov₁ (fun decl hmem => hdecl decl (List.mem_append_right _ (h₁.size ▸ hmem)))
  rw [h₁.size] at hrest'
  refine ⟨?_, hrest'.2⟩
  simp only [Case.respellSeq, Case.analyzeSeq, hbody', Bind.bind, Except.bind]
  exact hrest'.1

/-- A renamed case with a value is accepted like its body, and its value has not changed. -/
theorem value {line : Nat} {l : Literal} {body : Block} {rest : List Case}
    (hinner : body.Respells d names G final inLoop)
    (hmore : Case.RespellsSeq d names G final inLoop rest) :
    Case.RespellsSeq d names G final inLoop (⟨line, some l, body⟩ :: rest) := by
  intro seen ss ss' scope h hok hgrows hcov hdecl
  rw [Case.declarationsSeq] at hdecl
  rw [Case.analyzeSeq] at hok
  rcases bind_eq_ok hok with ⟨w, hw, hok⟩
  rcases bind_eq_ok hok with ⟨ss₁, hbody, hrest⟩
  have h₁ := Block.analyze_passed h hbody
  have h₂ := Case.analyzeSeq_passed (h₁.place h) hrest
  rcases hinner h hbody (h₂.grows.trans hgrows) hcov
    (fun decl hmem => hdecl decl (List.mem_append_left _ hmem)) with ⟨hbody', hcov₁⟩
  have hrest' := hmore (seen ++ [w]) (h₁.place h) hrest
    hgrows hcov₁ (fun decl hmem => hdecl decl (List.mem_append_right _ (h₁.size ▸ hmem)))
  rw [h₁.size] at hrest'
  refine ⟨?_, hrest'.2⟩
  simp only [Case.respellSeq, Case.analyzeSeq, hw, hbody', Bind.bind, Except.bind]
  exact hrest'.1

end Case.RespellsSeq

mutual

/-- A block is accepted in other names. -/
theorem Block.analyze_respell (hG : Apart d names G) (inLoop : Bool) : ∀ b : Block,
    b.Respells d names G final inLoop
  | ⟨_, stmts⟩ => .of_stmts hG (Stmt.analyzeSeq_respell hG inLoop stmts)

theorem Stmt.analyzeSeq_respell (hG : Apart d names G) (inLoop : Bool) : ∀ stmts : List Stmt,
    Stmt.RespellsSeq d names G final inLoop stmts
  | [] => .nil
  | s :: rest => .cons (Stmt.analyze_respell hG inLoop s) (Stmt.analyzeSeq_respell hG inLoop rest)

/-- A statement is accepted in other names. -/
theorem Stmt.analyze_respell (hG : Apart d names G) (inLoop : Bool) : ∀ s : Stmt,
    s.Respells d names G final inLoop
  | .expr _ _ => .expr hG
  | .assign _ _ _ => .assign hG
  | .decl _ _ none => .decl_none hG
  | .decl _ _ (some _) => .decl_some hG
  | .func _ _ _ _ body => .func hG (Block.analyze_respell hG false body)
  | .cond _ _ body => .cond hG (Block.analyze_respell hG inLoop body)
  | .switch _ _ cases => .switch hG (Case.analyzeSeq_respell hG inLoop cases)
  | .loop _ ⟨_, pre⟩ _ post body => .loop hG (Stmt.analyzeSeq_respell hG inLoop pre)
      (Block.analyze_respell hG true body) (Block.analyze_respell hG false post)
  | .brk _ => .brk
  | .cont _ => .cont
  | .block b => .block (Block.analyze_respell hG inLoop b)
  | .label _ _ => .label
  | .stackAssign _ _ => .stackAssign hG

theorem Case.analyzeSeq_respell (hG : Apart d names G) (inLoop : Bool) : ∀ cases : List Case,
    Case.RespellsSeq d names G final inLoop cases
  | [] => .nil
  | ⟨_, none, body⟩ :: rest => .default (Block.analyze_respell hG inLoop body)
      (Case.analyzeSeq_respell hG inLoop rest)
  | ⟨_, some _, body⟩ :: rest => .value (Block.analyze_respell hG inLoop body)
      (Case.analyzeSeq_respell hG inLoop rest)

end

end Statements

/-- A program is accepted in other names, with the same scopes but for the names. -/
theorem analyze_respell {d : Dialect} {names : Declaration → String}
    {G : Declaration → Prop} (hG : Apart d names G) {code : Block}
    {ss : Scopes} (h : analyze d code = .ok ss)
    (hdecl : ∀ decl ∈ code.declarations 0,
      d.reserved decl.name = false → decl.name ≠ "" → G decl) :
    analyze d (code.respell (ss.spelling d names) 0) = .ok (ss.respell names) ∧
      ss.Covered G := by
  rcases code with ⟨line, stmts⟩
  rw [Block.declarations] at hdecl
  rw [analyze, Block.analyze] at h
  rcases bind_eq_ok h with ⟨ss₁, hhoist, hseq⟩
  have h₁ := (Analysis.hoist_passed Scopes.place_root hhoist).1
  have hplace₁ := h₁.place Scopes.place_root
  have h₂ := Stmt.analyzeSeq_passed hplace₁ hseq
  -- The scopes that the analysis starts from have no names.
  have hempty : Scopes.empty.Covered G := fun i s hs =>
    absurd (Scopes.lt_of_get? hs) (Nat.not_lt_zero i)
  have hdecl' : ∀ decl ∈ Stmt.declarationsSeq 0 (0 + 1) stmts,
      d.reserved decl.name = false → decl.name ≠ "" → G decl := hdecl
  rcases Analysis.hoist_spelled hG (hempty.push none false) Scopes.place_root
    h₂.grows hdecl' hhoist with ⟨hhoist', hcov₁⟩
  have hsize := h₁.size
  rw [Scopes.size_push, Nat.add_zero] at hsize
  have hsize' : ss₁.toArray.size = 0 + 1 := hsize
  have hseq' := Stmt.analyzeSeq_respell hG false stmts hplace₁ hseq (.refl ss) hcov₁
    (by rw [hsize']; exact hdecl)
  rw [hsize'] at hseq'
  refine ⟨?_, hseq'.2⟩
  -- The outermost scope has none either.
  have hroot : (Scopes.empty.push none false).2
      = (Scopes.empty.push none false).2.respell names := rfl
  rw [analyze, Block.respell, Block.analyze]
  rw [← hroot] at hhoist'
  show (Analysis.hoist d 0 _ (Scopes.empty.push none false).2 >>= _) = _
  rw [hhoist']
  exact hseq'.1

end YulToolchain
