import YulToolchain.Proofs.Static.Standing

/-!
# What the Analysis Accepts

The analysis accepts what can stand at its place, provided that all declarations have
different names.

The two directions differ in what they ask for. Accepted code can stand at its place whatever
its names are, if it can be written down and no value that may be copied reads a label of
an inner block. Code that can stand at its place is accepted if no name is declared twice,
since the analysis asks of each declaration whether its name is taken, and the judgement
does not.

Scopes and outlooks are brought together by `Scopes.Views`: the names that are found from a
scope are those in the outlook. What the analysis does to the scopes is known
(`Scopes.Passed`), so this is kept up without looking into it again.

## Main definitions

* `Scopes.Views`: The names found from a scope are those in an outlook.
* `Scopes.Free`: Names that can be declared in a scope.
* `Block.labelsStay`: No value that may be copied reads a label of an inner block.

## Theorems

* `Scopes.Views.passed`, `Scopes.Free.passed`: What is found, and what can be declared, behind
  some code.
* `analyze_stands`: Accepted code can stand at its place.
* `analyze_of_stands`: Code that can stand at its place is accepted.
-/

namespace YulToolchain

/-- The labels that a statement itself declares. -/
def Stmt.labelsHere : Stmt → List String
  | .label _ name => [name]
  | _ => []

/-- The values that a statement itself gives to variables. -/
def Stmt.valuesHere : Stmt → List Expr
  | .assign _ _ value => [value]
  | .decl _ _ (some value) => [value]
  | _ => []

/-- The labels of the blocks inside a block. -/
def Block.innerLabels (b : Block) : List String :=
  (b.stmts.flatMap Stmt.allInner).flatMap Stmt.labelsHere

/-- No value that is given to a variable reads a label of an inner block. -/
def Block.labelsStay (b : Block) : Bool :=
  b.allStmts.all fun s => s.valuesHere.all fun e => e.reads.all fun x => !b.innerLabels.contains x

namespace Scopes

variable {scope n : Nat} {added : List (String × Symbol)} {a b : Scopes} {o : Outlook}

/-- The names that are found from a scope are those in an outlook. -/
structure Views (ss : Scopes) (scope : Nat) (o : Outlook) : Prop where
  place : ss.Place scope
  sees : ∀ x symbol, (x, symbol) ∈ o ↔ ∃ decl, ss.lookup scope x = some (decl, symbol)

theorem views_root : (Scopes.empty.push none false).2.Views 0 [] := by
  refine ⟨place_root, fun x symbol => ⟨fun h => absurd h List.not_mem_nil, ?_⟩⟩
  rintro ⟨decl, h⟩
  exact absurd h (by rintro ⟨⟩)

theorem Place.lookup_push (h : a.Place scope) (isFunction : Bool) (x : String) :
    (a.push (some scope) isFunction).2.lookup a.toArray.size x
      = lookupIn x isFunction (a.chain scope) := by
  have hordered := (h.push isFunction).ordered
  rw [lookup_eq hordered get?_push_new]
  show lookupIn x isFunction ((a.push (some scope) isFunction).2.chain scope) = _
  rw [chain_congr h.ordered hordered scope h.opened fun i hi =>
    get?_push_old (Nat.lt_of_le_of_lt hi h.opened)]

theorem Views.block (h : a.Views scope o) :
    (a.push (some scope) false).2.Views a.toArray.size o := by
  refine ⟨h.place.push false, fun x symbol => ?_⟩
  rw [h.place.lookup_push, h.sees x symbol]
  rfl

theorem Views.function (h : a.Views scope o) :
    (a.push (some scope) true).2.Views a.toArray.size o.behind := by
  refine ⟨h.place.push true, fun x symbol => ?_⟩
  simp only [h.place.lookup_push, lookupIn_true, Outlook.behind, List.mem_filter,
    h.sees x symbol, Bool.not_eq_true']
  exact exists_and_right.symm

/-- A name is looked up and taken in the scope itself and in the scopes around it. Of these only the
    scope itself has changed. -/
theorem Passed.chain_parent (h : Passed scope added n a b) (ha : a.Place scope) {s : Scope}
    (hs : a.get? scope = some s) {p : Nat} (hp : s.parent = some p) : b.chain p = a.chain p := by
  have hlt := ha.ordered scope s p hs hp
  refine chain_congr ha.ordered h.ordered p (Nat.lt_trans hlt ha.opened) fun i hi => ?_
  exact h.same i (Nat.lt_trans (Nat.lt_of_le_of_lt hi hlt) ha.opened) (by omega)

/-- A name that is not among those a scope gained is looked up as before. -/
theorem find?_added {s : Scope} {x : String} (hx : x ∉ added.map (·.1)) :
    Scope.find? { s with symbols := added.reverse ++ s.symbols } x = s.find? x := by
  have hnone : added.reverse.lookup x = none := by
    refine List.lookup_eq_none_iff.mpr fun p hp => ?_
    rw [bne_iff_ne]
    rintro rfl
    exact hx (List.mem_map_of_mem (List.mem_reverse.mp hp))
  rw [Scope.find?, Scope.find?, List.lookup_append, hnone, Option.none_or]

/-- Behind some code a name is found that was found before, or that the code has added. -/
theorem Views.passed (hv : a.Views scope o) (h : Passed scope added n a b) :
    b.Views scope (o ++ added) := by
  have ha := hv.place
  rcases get?_isSome ha.opened with ⟨s, hs⟩
  have hs' := h.here s hs
  refine ⟨h.place ha, fun x symbol => ?_⟩
  rw [List.mem_append, hv.sees x symbol]
  by_cases hx : x ∈ added.map (·.1)
  -- A gained name: the scope's own entry hides whatever its parents have.
  · rcases List.mem_map.mp hx with ⟨⟨_, symbol'⟩, hmem, rfl⟩
    have hl := h.lookup ha hmem
    constructor
    · rintro (⟨decl, hold⟩ | hnew)
      · exact ⟨decl, h.grows _ _ _ hold⟩
      · exact ⟨_, h.lookup ha hnew⟩
    · rintro ⟨decl, hfound⟩
      rw [hl, Option.some.injEq, Prod.mk.injEq] at hfound
      exact .inr (hfound.2 ▸ hmem)
  · have hold : b.lookup scope x = a.lookup scope x := by
      -- Any other name misses the gained entries and goes on to the parent, which has not changed.
      rw [lookup_eq h.ordered hs', lookup_eq ha.ordered hs, find?_added hx]
      rcases s.find? x with _ | symbol'
      · rcases hp : s.parent with _ | p
        · rfl
        · exact congrArg _ (h.chain_parent ha hs hp)
      · rfl
    rw [hold]
    refine or_iff_left fun hnew => hx (List.mem_map_of_mem hnew)

/-- Behind some code a name is taken that was taken before, or that the code has added. -/
theorem Passed.taken (h : Passed scope added n a b) (ha : a.Place scope) (x : String) :
    b.taken scope x = true ↔ a.taken scope x = true ∨ x ∈ added.map (·.1) := by
  rcases get?_isSome ha.opened with ⟨s, hs⟩
  have hs' := h.here s hs
  by_cases hx : x ∈ added.map (·.1)
  · rcases List.mem_map.mp hx with ⟨⟨_, symbol⟩, hmem, rfl⟩
    exact iff_of_true (taken_of_lookup (h.lookup ha hmem)) (.inr hx)
  · have hold : b.taken scope x = a.taken scope x := by
      rw [taken_eq h.ordered hs', taken_eq ha.ordered hs, find?_added hx]
      rcases hp : s.parent with _ | p
      · rfl
      · simp only [Scopes.taken, h.chain_parent ha hs hp]
    rw [hold]
    exact (or_iff_left hx).symm

theorem Place.taken_push (h : a.Place scope) (isFunction : Bool) (x : String) :
    (a.push (some scope) isFunction).2.taken a.toArray.size x = a.taken scope x := by
  have hordered := (h.push isFunction).ordered
  rw [taken_eq hordered get?_push_new]
  show (false || (a.push (some scope) isFunction).2.taken scope x) = _
  rw [Bool.false_or, Scopes.taken, chain_congr h.ordered hordered scope h.opened fun i hi =>
    get?_push_old (Nat.lt_of_le_of_lt hi h.opened)]
  rfl

/-- Names that can be declared in a scope. -/
def Free (ss : Scopes) (scope : Nat) (names : List String) : Prop :=
  names.Nodup ∧ ∀ x ∈ names, ss.taken scope x = false

variable {names more : List String}

theorem Free.left (h : a.Free scope (names ++ more)) : a.Free scope names :=
  ⟨(List.nodup_append.mp h.1).1, fun x hx => h.2 x (List.mem_append_left _ hx)⟩

theorem Free.right (h : a.Free scope (names ++ more)) : a.Free scope more :=
  ⟨(List.nodup_append.mp h.1).2.1, fun x hx => h.2 x (List.mem_append_right _ hx)⟩

theorem Free.perm (h : a.Free scope names) (hperm : names.Perm more) : a.Free scope more :=
  ⟨hperm.nodup_iff.mp h.1, fun x hx => h.2 x (hperm.mem_iff.mpr hx)⟩

theorem Free.push (h : a.Free scope names) (ha : a.Place scope) (isFunction : Bool) :
    (a.push (some scope) isFunction).2.Free a.toArray.size names :=
  ⟨h.1, fun x hx => (ha.taken_push isFunction x).trans (h.2 x hx)⟩

/-- What the code before declares is apart from what is still to be declared. -/
theorem Free.passed (h : a.Free scope (names ++ more)) (ha : a.Place scope)
    (hpassed : Passed scope added n a b) (hadded : added.map (·.1) ⊆ names) :
    b.Free scope more := by
  refine ⟨h.right.1, fun x hx => Bool.eq_false_iff.mpr fun htaken => ?_⟩
  rcases (hpassed.taken ha x).mp htaken with hold | hnew
  · exact absurd hold (Bool.eq_false_iff.mp (h.right.2 x hx))
  · exact (List.nodup_append.mp h.1).2.2 x (hadded hnew) x hx rfl

end Scopes

section Expressions

variable {S : Setting} {ss : Scopes} {scope : Nat} {o : Outlook}

/-- The literal check passes when every argument is a string literal. -/
theorem Expr.checkLiterals_iff : ∀ {args : List Expr}, Expr.checkLiterals args = .ok () ↔
    ∀ e ∈ args, ∃ l, e = .literal l ∧ l.kind = .string
  | [] => by
      rw [Expr.checkLiterals]
      exact iff_of_true rfl fun _ he => absurd he List.not_mem_nil
  | .literal l :: rest => by
      rw [Expr.checkLiterals, List.forall_mem_cons]
      by_cases hk : l.kind = .string
      · rw [if_pos hk, Expr.checkLiterals_iff]
        exact (and_iff_right ⟨l, rfl, hk⟩).symm
      · rw [if_neg hk]
        refine iff_of_false (by rintro ⟨⟩) ?_
        rintro ⟨⟨l', hl, hk'⟩, _⟩
        cases hl
        exact hk hk'
  | .ident _ _ :: _ => iff_of_false (by rintro ⟨⟩) fun h => by
      rcases h _ List.mem_cons_self with ⟨_, h, _⟩
      exact absurd h (by rintro ⟨⟩)
  | .instr _ _ _ :: _ => iff_of_false (by rintro ⟨⟩) fun h => by
      rcases h _ List.mem_cons_self with ⟨_, h, _⟩
      exact absurd h (by rintro ⟨⟩)
  | .call _ _ _ :: _ => iff_of_false (by rintro ⟨⟩) fun h => by
      rcases h _ List.mem_cons_self with ⟨_, h, _⟩
      exact absurd h (by rintro ⟨⟩)

theorem Expr.WrittenAll.mem {d : Dialect} {depth : Nat} : ∀ {es : List Expr},
    Expr.WrittenAll d depth es → ∀ e ∈ es, e.Written d depth
  | [], _ => fun _ he => absurd he List.not_mem_nil
  | e :: rest, h => by
      rw [Expr.WrittenAll] at h
      exact List.forall_mem_cons.mpr ⟨h.1, Expr.WrittenAll.mem h.2⟩

mutual

/-- An expression that the analysis accepts is in order. -/
theorem Expr.valueCount_counts (hops : ∀ op, S.dialect.Offers op → S.ops op)
    (hv : ss.Views scope o) : ∀ {e : Expr} {n depth : Nat}, e.Written S.dialect depth →
      e.valueCount S.dialect ss scope = .ok n → e.Counts S.dialect (o.ground S) n
  | .literal l, n, depth, hwritten, h => by
      rw [Expr.Written] at hwritten
      rw [Expr.valueCount] at h
      rw [Expr.Counts]
      -- The text of a number or string has a value exactly where the analysis finds one.
      rcases hw : l.value with why | w
      · simp only [hw, reduceCtorEq] at h
      · simp only [hw, Except.ok.injEq] at h
        exact ⟨hwritten, ⟨w, rfl⟩, h.symm⟩
  | .ident _ x, n, depth, hwritten, h => by
      rw [Expr.Written] at hwritten
      rw [Expr.valueCount] at h
      rw [Expr.Counts]
      rcases hl : ss.lookup scope x with _ | ⟨decl, symbol⟩
      · simp only [hl, reduceCtorEq] at h
      · have hmem := (hv.sees x symbol).mpr ⟨decl, hl⟩
        -- Labels count as values as variables do, functions do not.
        cases symbol with
        | var type =>
            simp only [hl, Except.ok.injEq] at h
            exact ⟨hwritten, .inl ⟨type, hmem⟩, h.symm⟩
        | label =>
            simp only [hl, Except.ok.injEq] at h
            exact ⟨hwritten, .inr hmem, h.symm⟩
        | function ps rs => simp only [hl, reduceCtorEq] at h
  | .instr _ op args, n, depth, hwritten, h => by
      rw [Expr.Written] at hwritten
      rw [Expr.valueCount] at h
      rw [Expr.Counts]
      by_cases hlength : args.length ≠ op.args
      · rw [if_pos hlength] at h
        exact absurd h (by rintro ⟨⟩)
      · rw [if_neg hlength] at h
        rcases bind_eq_ok h with ⟨_, hargs, h⟩
        cases h
        exact ⟨hops op ⟨hwritten.1, hwritten.2.1⟩, not_not.mp hlength, rfl,
          Expr.checkArgs_countOnes hops hv hwritten.2.2.2 hargs⟩
  | .call _ name args, n, depth, hwritten, h => by
      rw [Expr.Written] at hwritten
      rw [Expr.valueCount] at h
      rw [Expr.Counts]
      refine ⟨⟨hwritten.1, hwritten.2.1⟩, ?_⟩
      -- A builtin hides every function of its name, so builtins are looked for first.
      rcases hb : S.dialect.builtin? name with _ | b
      · simp only [hb] at h
        rcases hl : ss.lookup scope name with _ | ⟨decl, symbol⟩
        · simp only [hl, reduceCtorEq] at h
        · cases symbol with
          | var type => simp only [hl, reduceCtorEq] at h
          | label => simp only [hl, reduceCtorEq] at h
          | function ps rs =>
              simp only [hl] at h
              -- The count of the arguments against the function's parameters.
              by_cases hlength : args.length ≠ ps.length
              · rw [if_pos hlength] at h
                exact absurd h (by rintro ⟨⟩)
              · rw [if_neg hlength] at h
                rcases bind_eq_ok h with ⟨_, hargs, h⟩
                cases h
                exact ⟨⟨ps, rs, (hv.sees _ _).mpr ⟨decl, hl⟩, (not_not.mp hlength).symm, rfl⟩,
                  Expr.checkArgs_countOnes hops hv hwritten.2.2.2 hargs⟩
      · simp only [hb] at h
        -- Only builtins may want literals in place of expressions.
        by_cases hlit : b.literalArguments = true
        · simp only [hlit, if_true] at h ⊢
          by_cases hlength : args.length ≠ b.params
          · rw [if_pos hlength] at h
            exact absurd h (by rintro ⟨⟩)
          · rw [if_neg hlength] at h
            rcases bind_eq_ok h with ⟨_, hargs, h⟩
            cases h
            refine ⟨not_not.mp hlength, rfl, fun e he => ?_⟩
            rcases Expr.checkLiterals_iff.mp hargs e he with ⟨l, rfl, hkind⟩
            have hl := hwritten.2.2.2.mem _ he
            rw [Expr.Written] at hl
            exact ⟨l, rfl, hkind, hl⟩
        · simp only [hlit] at h ⊢
          by_cases hlength : args.length ≠ b.params
          · rw [if_neg Bool.false_ne_true, if_pos hlength] at h
            exact absurd h (by rintro ⟨⟩)
          · rw [if_neg Bool.false_ne_true, if_neg hlength] at h
            rcases bind_eq_ok h with ⟨_, hargs, h⟩
            cases h
            exact ⟨not_not.mp hlength, rfl,
              Expr.checkArgs_countOnes hops hv hwritten.2.2.2 hargs⟩
termination_by structural e => e

/-- The arguments of an accepted call count one value each. -/
theorem Expr.checkArgs_countOnes (hops : ∀ op, S.dialect.Offers op → S.ops op)
    (hv : ss.Views scope o) : ∀ {es : List Expr} {depth : Nat},
      Expr.WrittenAll S.dialect depth es → Expr.checkArgs S.dialect ss scope es = .ok () →
        Expr.CountOnes S.dialect (o.ground S) es
  | [], _, _, _ => by
      rw [Expr.CountOnes]
      trivial
  | e :: rest, depth, hwritten, h => by
      rw [Expr.WrittenAll] at hwritten
      rw [Expr.checkArgs] at h
      -- Arguments are checked from the last to the first.
      rcases bind_eq_ok h with ⟨_, hrest, h⟩
      rcases bind_eq_ok h with ⟨count, hcount, h⟩
      rw [Expr.CountOnes]
      refine ⟨?_, Expr.checkArgs_countOnes hops hv hwritten.2 hrest⟩
      by_cases hone : count ≠ 1
      · rw [if_pos hone] at h
        exact absurd h (by rintro ⟨⟩)
      · rw [not_not.mp hone] at hcount
        exact Expr.valueCount_counts hops hv hwritten.1 hcount
termination_by structural es => es

end

mutual

/-- The analysis accepts an expression that is in order. -/
theorem Expr.Counts.valueCount (hv : ss.Views scope o) : ∀ {e : Expr} {n : Nat},
    e.Counts S.dialect (o.ground S) n → e.valueCount S.dialect ss scope = .ok n
  | .literal l, n, h => by
      rw [Expr.Counts] at h
      rcases h with ⟨_, ⟨w, hw⟩, rfl⟩
      simp only [Expr.valueCount, hw]
  | .ident _ x, n, h => by
      rw [Expr.Counts] at h
      rcases h with ⟨_, ⟨type, hx⟩ | hx, rfl⟩
      -- What the outlook shows is what the scopes find, whatever the declaration is.
      · rcases (hv.sees _ _).mp hx with ⟨decl, hl⟩
        simp only [Expr.valueCount, hl]
      · rcases (hv.sees _ _).mp hx with ⟨decl, hl⟩
        simp only [Expr.valueCount, hl]
  | .instr _ op args, n, h => by
      rw [Expr.Counts] at h
      rcases h with ⟨_, hlength, rfl, hargs⟩
      rw [Expr.valueCount, if_neg (not_not.mpr hlength), Expr.CountOnes.checkArgs hv hargs]
      rfl
  | .call _ name args, n, h => by
      rw [Expr.Counts] at h
      rw [Expr.valueCount]
      rcases hb : S.dialect.builtin? name with _ | b
      · simp only [hb] at h
        rcases h with ⟨_, ⟨ps, rs, hx, hparams, rfl⟩, hargs⟩
        rcases (hv.sees _ _).mp hx with ⟨decl, hl⟩
        simp only [hl]
        rw [if_neg (not_not.mpr hparams.symm), Expr.CountOnes.checkArgs hv hargs]
        rfl
      · simp only [hb] at h
        rcases h with ⟨_, hlength, rfl, hargs⟩
        by_cases hlit : b.literalArguments = true
        · rw [if_pos hlit] at hargs
          -- The strings that the builtin wants are read off the condition on the arguments.
          have hstrings : Expr.checkLiterals args = .ok () := by
            refine Expr.checkLiterals_iff.mpr fun e he => ?_
            rcases hargs e he with ⟨l, rfl, hkind, _⟩
            exact ⟨l, rfl, hkind⟩
          simp only [if_pos hlit, if_neg (not_not.mpr hlength), hstrings]
          rfl
        · rw [if_neg hlit] at hargs
          simp only [if_neg hlit, if_neg (not_not.mpr hlength),
            Expr.CountOnes.checkArgs hv hargs]
          rfl
termination_by structural e => e

theorem Expr.CountOnes.checkArgs (hv : ss.Views scope o) : ∀ {es : List Expr},
    Expr.CountOnes S.dialect (o.ground S) es → Expr.checkArgs S.dialect ss scope es = .ok ()
  | [], _ => by rw [Expr.checkArgs]
  | e :: rest, h => by
      rw [Expr.CountOnes] at h
      rw [Expr.checkArgs, Expr.CountOnes.checkArgs hv h.2]
      simp only [Expr.Counts.valueCount hv h.1, Bind.bind, Except.bind, ne_eq,
        not_true_eq_false, if_false]
      rfl
termination_by structural es => es

end

end Expressions

theorem Analysis.expectValues_ok {d : Dialect} {ss : Scopes} {scope n : Nat} {e : Expr} :
    Analysis.expectValues d ss scope e n = .ok () ↔ e.valueCount d ss scope = .ok n := by
  rw [Analysis.expectValues]
  rcases e.valueCount d ss scope with why | count
  · exact iff_of_false (by rintro ⟨⟩) (by rintro ⟨⟩)
  · by_cases hn : count = n
    · subst hn
      simp only [Bind.bind, Except.bind, ne_eq, not_true_eq_false, if_false]
      exact iff_of_true rfl trivial
    · simp only [Bind.bind, Except.bind, ne_eq, hn, not_false_eq_true, if_true]
      exact iff_of_false (by rintro ⟨⟩) fun h => hn (Except.ok.inj h)

/-- A name can be assigned exactly if the outlook shows it as a variable. -/
theorem Analysis.expectVariable_ok {ss : Scopes} {scope : Nat} {o : Outlook}
    (hv : ss.Views scope o) {id : Identifier} :
    Analysis.expectVariable ss scope id = .ok () ↔ o.HasVar id.name := by
  rw [Analysis.expectVariable]
  rcases hl : ss.lookup scope id.name with _ | ⟨decl, symbol⟩
  · refine iff_of_false (by rintro ⟨⟩) ?_
    rintro ⟨type, hx⟩
    rcases (hv.sees _ _).mp hx with ⟨_, hl'⟩
    exact absurd (hl.symm.trans hl') (by rintro ⟨⟩)
  · have hx := (hv.sees _ _).mpr ⟨decl, hl⟩
    -- The lookup has one answer, so no other symbol of this name is in the outlook.
    have hsame : ∀ type, (id.name, Symbol.var type) ∈ o → symbol = .var type := by
      intro type hx'
      rcases (hv.sees _ _).mp hx' with ⟨_, hl'⟩
      exact congrArg Prod.snd (Option.some.inj (hl.symm.trans hl'))
    cases symbol with
    | var type => exact iff_of_true rfl ⟨type, hx⟩
    | label => exact iff_of_false (by rintro ⟨⟩) fun h => by cases hsame _ h.choose_spec
    | function ps rs => exact iff_of_false (by rintro ⟨⟩) fun h => by cases hsame _ h.choose_spec

theorem Analysis.expectVariables_ok {ss : Scopes} {scope : Nat} {o : Outlook}
    (hv : ss.Views scope o) : ∀ {ids : List Identifier},
      ids.forM (Analysis.expectVariable ss scope) = .ok () ↔ ∀ id ∈ ids, o.HasVar id.name
  | [] => iff_of_true rfl fun _ h => absurd h List.not_mem_nil
  | id :: rest => by
      rw [List.forall_mem_cons, ← Analysis.expectVariable_ok hv, ← Analysis.expectVariables_ok hv]
      simp only [List.forM_eq_forM, List.forM_cons]
      rcases Analysis.expectVariable ss scope id with why | _
      · exact iff_of_false (by rintro ⟨⟩) fun h => absurd h.1 (by rintro ⟨⟩)
      · exact (and_iff_right rfl).symm

theorem Analysis.caseValue_ok {line : Nat} {seen : List Word} {l : Literal} {w : Word} :
    Analysis.caseValue line seen l = .ok w ↔ l.value = .ok w ∧ w ∉ seen := by
  rw [Analysis.caseValue]
  rcases l.value with why | w'
  · exact iff_of_false (by rintro ⟨⟩) fun h => absurd h.1 (by rintro ⟨⟩)
  · simp only [List.contains_iff_mem, Except.ok.injEq]
    by_cases hw : w' ∈ seen
    · rw [if_pos hw]
      exact iff_of_false (by rintro ⟨⟩) fun h => h.2 (h.1 ▸ hw)
    · rw [if_neg hw, Except.ok.injEq]
      exact ⟨fun h => ⟨h, h ▸ hw⟩, And.left⟩

section Labels

variable {S : Setting} {d : Dialect} {nested : List String} {o : Outlook}

/-- The values that a statement gives to variables read none of some labels. -/
def Stmt.Stays (nested : List String) (s : Stmt) : Prop :=
  ∀ e ∈ s.valuesHere, ∀ x ∈ e.reads, x ∉ nested

/-- The same for all statements of inner blocks, whose labels are among these. -/
def Stmt.AllStay (d : Dialect) (nested : List String) (stmts : List Stmt) : Prop :=
  ∀ s ∈ stmts, s.Stays nested ∧ (d.flavour = .loose → s.labelsHere ⊆ nested)

theorem Stmt.AllStay.append {stmts rest : List Stmt} : Stmt.AllStay d nested (stmts ++ rest) ↔
    Stmt.AllStay d nested stmts ∧ Stmt.AllStay d nested rest := List.forall_mem_append

theorem Stmt.AllStay.mem {stmts : List Stmt} (h : Stmt.AllStay d nested (Stmt.allStmtsSeq stmts))
    {s : Stmt} (hs : s ∈ stmts) :
    (s.Stays nested ∧ Stmt.AllStay d nested s.allInner) ∧
      (d.flavour = .loose → s.labelsHere ⊆ nested) := by
  have here := h s (Stmt.mem_allStmtsSeq.mpr ⟨s, hs, .inl rfl⟩)
  exact ⟨⟨here.1, fun t ht => h t (Stmt.mem_allStmtsSeq.mpr ⟨s, hs, .inr ht⟩)⟩, here.2⟩

theorem Stmt.WrittenSeq.loose {depth : Nat} : ∀ {stmts : List Stmt},
    Stmt.WrittenSeq d depth stmts → ∀ s ∈ stmts, ∀ x ∈ s.labelsHere, d.flavour = .loose
  | [], _, s, hs, x, hx => absurd hs List.not_mem_nil
  | s :: rest, h, t, ht, x, hx => by
      rw [Stmt.WrittenSeq] at h
      rcases List.mem_cons.mp ht with rfl | ht
      · cases t with
        | label line name =>
            rw [Stmt.Written] at h
            exact h.1.1
        | _ => exact absurd hx List.not_mem_nil
      · exact Stmt.WrittenSeq.loose h.2 t ht x hx

/-- Where there are no labels, nothing is asked of them. -/
theorem Stmt.WrittenSeq.labels {stmts : List Stmt} {depth : Nat}
    (hwritten : Stmt.WrittenSeq d depth stmts)
    (hstay : Stmt.AllStay d nested (Stmt.allStmtsSeq stmts)) :
    ∀ s ∈ stmts, s.labelsHere ⊆ nested :=
  fun s hs x hx => (hstay.mem hs).2 (hwritten.loose s hs x hx) hx

/-- The labels that can be seen are those of the outermost block and those of inner
    blocks. -/
def Outlook.LabelsIn (S : Setting) (nested : List String) (o : Outlook) : Prop :=
  ∀ x, (x, Symbol.label) ∈ o → x ∈ S.labels ∨ x ∈ nested

theorem TypedName.label_notMem_symbols {vars : List TypedName} {x : String} :
    (x, Symbol.label) ∉ TypedName.symbols vars := by
  intro h
  rcases List.mem_map.mp h with ⟨v, _, hv⟩
  exact absurd (congrArg Prod.snd hv) (by rintro ⟨⟩)

theorem Outlook.LabelsIn.vars (h : o.LabelsIn S nested) (vars : List TypedName) :
    Outlook.LabelsIn S nested (o ++ TypedName.symbols vars) := by
  intro x hx
  exact h x ((List.mem_append.mp hx).resolve_right TypedName.label_notMem_symbols)

theorem Outlook.LabelsIn.behind (h : o.LabelsIn S nested) : o.behind.LabelsIn S nested :=
  fun x hx => h x (List.mem_filter.mp hx).1

theorem Outlook.LabelsIn.adds (h : o.LabelsIn S nested) (s : Stmt) :
    Outlook.LabelsIn S nested (o ++ s.adds) := by
  cases s with
  | decl line vars value => exact h.vars vars
  | _ => exact fun x hx => h x ((List.mem_append.mp hx).resolve_right List.not_mem_nil)

theorem Outlook.LabelsIn.addsSeq : ∀ {stmts : List Stmt} {o : Outlook}, o.LabelsIn S nested →
    Outlook.LabelsIn S nested (o ++ stmts.flatMap Stmt.adds)
  | [], o, h => by
      rw [List.flatMap_nil, List.append_nil]
      exact h
  | s :: rest, o, h => by
      rw [List.flatMap_cons, ← List.append_assoc]
      exact Outlook.LabelsIn.addsSeq (h.adds s)

theorem Stmt.label_mem_hoists {s : Stmt} {x : String} :
    (x, Symbol.label) ∈ s.hoists ↔ x ∈ s.labelsHere := by
  cases s with
  | func line name params returns body =>
      refine iff_of_false (fun h => ?_) List.not_mem_nil
      exact absurd (congrArg Prod.snd (List.mem_singleton.mp h)) (by rintro ⟨⟩)
  | label line name =>
      simp only [Stmt.hoists, Stmt.labelsHere, List.mem_singleton, Prod.mk.injEq, and_true]
  | _ => exact iff_of_false List.not_mem_nil List.not_mem_nil

/-- Hoisting adds to the labels in sight only those of the sequence. -/
theorem Outlook.LabelsIn.hoists (h : o.LabelsIn S nested) {stmts : List Stmt}
    (hstmts : ∀ s ∈ stmts, s.labelsHere ⊆ nested) :
    Outlook.LabelsIn S nested (o ++ stmts.flatMap Stmt.hoists) := by
  intro x hx
  rcases List.mem_append.mp hx with hx | hx
  · exact h x hx
  · rcases List.mem_flatMap.mp hx with ⟨s, hs, hx⟩
    exact .inr (hstmts s hs (Stmt.label_mem_hoists.mp hx))

/-- A value that reads no label of an inner block lasts. -/
theorem Expr.Counts.lasting {e : Expr} {n : Nat} (h : e.Counts S.dialect (o.ground S) n)
    (hlabels : o.LabelsIn S nested) (he : ∀ x ∈ e.reads, x ∉ nested) :
    e.Counts S.dialect (o.lasting S) n := by
  have hops : ∀ op, (o.ground S).ops op → (o.lasting S).ops op := fun _ hop => hop
  refine h.congr hops (fun x hx hread => ?_) (.inr fun x p r hx => hx)
  exact hread.imp_right fun hl => (hlabels x hl).resolve_right (he x hx)

end Labels

section Accepted

variable {S : Setting} {nested : List String}

mutual

/-- A block that the analysis accepts can stand at its place. -/
theorem Block.analyze_stands (hops : ∀ op, S.dialect.Offers op → S.ops op) :
    ∀ {b : Block} {ss ss' : Scopes} {scope depth : Nat} {o : Outlook} {inLoop : Bool},
      ss.Views scope o → o.LabelsIn S nested → b.Written S.dialect depth →
      Stmt.AllStay S.dialect nested b.allStmts →
      b.analyze S.dialect (some scope) inLoop ss = .ok ss' →
        b.Stands S o inLoop
  | ⟨_, stmts⟩, ss, ss', scope, depth, o, inLoop, hv, hlabels, hwritten, hstay, hok => by
      rw [Block.Written] at hwritten
      rw [Block.allStmts] at hstay
      rw [Block.analyze] at hok
      rw [Block.Stands]
      rcases bind_eq_ok hok with ⟨ss₁, hhoist, hseq⟩
      rcases Analysis.hoist_passed hv.block.place hhoist with ⟨hpassed, hnames⟩
      exact Stmt.analyzeSeq_stands hops (hv.block.passed hpassed)
        (hlabels.hoists (hwritten.2.labels hstay)) hwritten.2 (fun s hs => (hstay.mem hs).1)
        (fun p hp => (hnames p hp).1) hseq
termination_by structural b => b

/-- A sequence that is read stands, each statement behind what the ones before it add. -/
theorem Stmt.analyzeSeq_stands (hops : ∀ op, S.dialect.Offers op → S.ops op) :
    ∀ {stmts : List Stmt} {ss ss' : Scopes} {scope depth : Nat} {o : Outlook} {inLoop : Bool},
      ss.Views scope o → o.LabelsIn S nested → Stmt.WrittenSeq S.dialect depth stmts →
      (∀ s ∈ stmts, s.Stays nested ∧ Stmt.AllStay S.dialect nested s.allInner) →
      (∀ p ∈ stmts.flatMap Stmt.hoists, S.dialect.reserved p.1 = false) →
      Stmt.analyzeSeq S.dialect scope inLoop stmts ss = .ok ss' → Stmt.StandSeq S o inLoop stmts
  | [], _, _, _, _, _, _, _, _, _, _, _, _ => by
      rw [Stmt.StandSeq]
      trivial
  | s :: rest, ss, ss', scope, depth, o, inLoop, hv, hlabels, hwritten, hstay, hnames, hok => by
      rw [Stmt.WrittenSeq] at hwritten
      rw [List.flatMap_cons, List.forall_mem_append] at hnames
      rw [List.forall_mem_cons] at hstay
      rw [Stmt.analyzeSeq] at hok
      rw [Stmt.StandSeq]
      rcases bind_eq_ok hok with ⟨ss₁, hs, hrest⟩
      -- The rest is read in the scopes that this statement leaves.
      have hpassed := Stmt.analyze_passed hv.place hs
      exact ⟨Stmt.analyze_stands hops hv hlabels hwritten.1 hstay.1 hnames.1 hs,
        Stmt.analyzeSeq_stands hops (hv.passed hpassed) (hlabels.adds s) hwritten.2 hstay.2
          hnames.2 hrest⟩
termination_by structural stmts => stmts

/-- A statement that is read stands where it was read. -/
theorem Stmt.analyze_stands (hops : ∀ op, S.dialect.Offers op → S.ops op) :
    ∀ {s : Stmt} {ss ss' : Scopes} {scope depth : Nat} {o : Outlook} {inLoop : Bool},
      ss.Views scope o → o.LabelsIn S nested → s.Written S.dialect depth →
      s.Stays nested ∧ Stmt.AllStay S.dialect nested s.allInner →
      (∀ p ∈ s.hoists, S.dialect.reserved p.1 = false) →
      s.analyze S.dialect scope inLoop ss = .ok ss' → s.Stands S o inLoop
  | .expr _ e, ss, ss', scope, depth, o, inLoop, hv, _, hwritten, _, _, hok => by
      rw [Stmt.Written] at hwritten
      rw [Stmt.Stands]
      rcases (Stmt.analyze_expr_ok hok).2 with ⟨n, hn, hzero⟩
      exact ⟨n, Expr.valueCount_counts hops hv hwritten hn, hzero⟩
  | .assign _ targets value, ss, ss', scope, depth, o, inLoop, hv, hlabels, hwritten, hstay, _,
      hok => by
      rw [Stmt.Written] at hwritten
      rw [Stmt.analyze] at hok
      rw [Stmt.Stands]
      rcases bind_eq_ok hok with ⟨_, hvalue, hok⟩
      rcases bind_eq_ok hok with ⟨_, htargets, _⟩
      -- Value and targets are looked up in the scopes as they are before the assignment.
      have hvars := (Analysis.expectVariables_ok hv).mp htargets
      have hcounts := Expr.valueCount_counts hops hv hwritten.2.2
        (Analysis.expectValues_ok.mp hvalue)
      exact ⟨hwritten.1, fun t ht => ⟨hwritten.2.1 t ht, hvars t ht⟩,
        hcounts.lasting hlabels (hstay.1 value List.mem_cons_self)⟩
  | .decl _ vars none, ss, ss', scope, depth, o, inLoop, hv, _, hwritten, _, _, hok => by
      rw [Stmt.Written] at hwritten
      rw [Stmt.analyze] at hok
      rw [Stmt.Stands]
      have hnames := (Analysis.declareVariables_passed hv.place hok).2
      exact ⟨hwritten.1, fun v hv => ⟨hwritten.2.1 v hv, (hnames v hv).1⟩,
        fun e he => absurd he (by rintro ⟨⟩)⟩
  | .decl _ vars (some value), ss, ss', scope, depth, o, inLoop, hv, hlabels, hwritten, hstay, _,
      hok => by
      rw [Stmt.Written] at hwritten
      rw [Stmt.analyze] at hok
      rw [Stmt.Stands]
      -- The value is counted before the names it is for are declared.
      rcases bind_eq_ok hok with ⟨_, hvalue, hok⟩
      have hnames := (Analysis.declareVariables_passed hv.place hok).2
      have hcounts := Expr.valueCount_counts hops hv (hwritten.2.2 value rfl)
        (Analysis.expectValues_ok.mp hvalue)
      refine ⟨hwritten.1, fun v hv => ⟨hwritten.2.1 v hv, (hnames v hv).1⟩, fun e he => ?_⟩
      obtain rfl := Option.some.inj he
      exact hcounts.lasting hlabels (hstay.1 value List.mem_cons_self)
  | .func line name params returns body, ss, ss', scope, depth, o, inLoop, hv, hlabels, hwritten,
      hstay, hnames, hok => by
      rw [Stmt.Written] at hwritten
      rw [Stmt.allInner] at hstay
      rw [Stmt.analyze] at hok
      rw [Stmt.Stands]
      -- Parameters and return variables open the scope of the body.
      rcases bind_eq_ok hok with ⟨ss₁, hvars, hbody⟩
      rcases Analysis.declareVariables_passed hv.function.place hvars with ⟨hpassed, hallowed⟩
      refine ⟨⟨hwritten.1, hnames _ List.mem_cons_self⟩, fun v hv => ⟨?_, (hallowed v hv).1⟩, ?_⟩
      · exact (List.mem_append.mp hv).elim (hwritten.2.1 v) (hwritten.2.2.1 v)
      · exact Block.analyze_stands hops (hv.function.passed hpassed) (hlabels.behind.vars _)
          hwritten.2.2.2 hstay.2 hbody
  | .cond _ test body, ss, ss', scope, depth, o, inLoop, hv, hlabels, hwritten, hstay, _, hok => by
      rw [Stmt.Written] at hwritten
      rw [Stmt.allInner] at hstay
      rw [Stmt.analyze] at hok
      rw [Stmt.Stands]
      rcases bind_eq_ok hok with ⟨_, htest, hbody⟩
      exact ⟨Expr.valueCount_counts hops hv hwritten.1 (Analysis.expectValues_ok.mp htest),
        Block.analyze_stands hops hv hlabels hwritten.2 hstay.2 hbody⟩
  | .switch _ subject cases, ss, ss', scope, depth, o, inLoop, hv, hlabels, hwritten, hstay, _,
      hok => by
      rw [Stmt.Written] at hwritten
      rw [Stmt.allInner] at hstay
      rw [Stmt.analyze] at hok
      rw [Stmt.Stands]
      rcases bind_eq_ok hok with ⟨_, hsubject, hcases⟩
      exact ⟨Expr.valueCount_counts hops hv hwritten.1 (Analysis.expectValues_ok.mp hsubject),
        hwritten.2.1, Case.analyzeSeq_stands hops hv hlabels hwritten.2.2 hstay.2 hcases⟩
  | .loop _ ⟨_, pre⟩ test post body, ss, ss', scope, depth, o, inLoop, hv, hlabels, hwritten,
      hstay, _, hok => by
      rw [Stmt.Written, Block.Written] at hwritten
      rw [Stmt.allInner, Block.allStmts, Stmt.AllStay.append, Stmt.AllStay.append] at hstay
      rw [Stmt.analyze] at hok
      rw [Stmt.Stands]
      -- The parts in the order they are read: init, condition, body, post.
      rcases hstay.2 with ⟨⟨hinit, hinner⟩, hlast⟩
      rcases bind_eq_ok hok with ⟨ss₁, hhoist, hok⟩
      rcases bind_eq_ok hok with ⟨ss₂, hpre, hok⟩
      rcases bind_eq_ok hok with ⟨_, htest, hok⟩
      rcases bind_eq_ok hok with ⟨ss₃, hbody, hpost⟩
      -- The scope of the init block stays open for the other three parts.
      rcases Analysis.hoist_passed hv.block.place hhoist with ⟨h₁, hnames⟩
      have hv₁ := hv.block.passed h₁
      have hl₁ := hlabels.hoists (hwritten.1.2.labels hinit)
      have hv₂ := hv₁.passed (Stmt.analyzeSeq_passed hv₁.place hpre)
      -- Both the body and the post see what the init block hoists and what it adds.
      have hl₂ : Outlook.LabelsIn S nested
          (o ++ pre.flatMap Stmt.hoists ++ pre.flatMap Stmt.adds) := hl₁.addsSeq
      have hv₃ := hv₂.passed (Block.analyze_passed hv₂.place hbody)
      -- The body closes its own scope, so the post sees what the body sees.
      rw [List.append_nil] at hv₃
      exact ⟨Stmt.analyzeSeq_stands hops hv₁ hl₁ hwritten.1.2 (fun s hs => (hinit.mem hs).1)
          (fun p hp => (hnames p hp).1) hpre,
        Expr.valueCount_counts hops hv₂ hwritten.2.1 (Analysis.expectValues_ok.mp htest),
        Block.analyze_stands hops hv₂ hl₂ hwritten.2.2.2 hinner hbody,
        Block.analyze_stands hops hv₃ hl₂ hwritten.2.2.1 hlast hpost⟩
  | .brk _, ss, ss', scope, depth, o, inLoop, _, _, _, _, _, hok => by
      rw [Stmt.analyze] at hok
      rw [Stmt.Stands]
      -- The analysis keeps whether a loop is around, as standing does.
      cases inLoop with
      | true => rfl
      | false => exact absurd hok (by rintro ⟨⟩)
  | .cont _, ss, ss', scope, depth, o, inLoop, _, _, _, _, _, hok => by
      rw [Stmt.analyze] at hok
      rw [Stmt.Stands]
      cases inLoop with
      | true => rfl
      | false => exact absurd hok (by rintro ⟨⟩)
  | .block b, ss, ss', scope, depth, o, inLoop, hv, hlabels, hwritten, hstay, _, hok => by
      rw [Stmt.Written] at hwritten
      rw [Stmt.allInner] at hstay
      rw [Stmt.analyze] at hok
      rw [Stmt.Stands]
      exact Block.analyze_stands hops hv hlabels hwritten hstay.2 hok
  | .label _ name, ss, ss', scope, depth, o, inLoop, _, _, hwritten, _, hnames, _ => by
      rw [Stmt.Written] at hwritten
      rw [Stmt.Stands]
      exact ⟨hwritten.1, hwritten.2, hnames _ List.mem_cons_self⟩
  | .stackAssign _ target, ss, ss', scope, depth, o, inLoop, hv, _, hwritten, _, _, hok => by
      rw [Stmt.Written] at hwritten
      rw [Stmt.analyze] at hok
      rw [Stmt.Stands]
      rcases bind_eq_ok hok with ⟨_, htarget, _⟩
      exact ⟨hwritten.1, hwritten.2, (Analysis.expectVariable_ok hv).mp htarget⟩
termination_by structural s => s

/-- The cases of a switch stand, each literal differing from those before it. -/
theorem Case.analyzeSeq_stands (hops : ∀ op, S.dialect.Offers op → S.ops op) :
    ∀ {cases : List Case} {ss ss' : Scopes} {scope depth : Nat} {o : Outlook} {inLoop : Bool}
      {seen : List Word}, ss.Views scope o → o.LabelsIn S nested →
      Case.WrittenSeq S.dialect depth cases →
      Stmt.AllStay S.dialect nested (Case.allStmtsSeq cases) →
      Case.analyzeSeq S.dialect scope inLoop seen cases ss = .ok ss' →
        Case.StandSeq S o inLoop seen cases
  | [], _, _, _, _, _, _, _, _, _, _, _, _ => by
      rw [Case.StandSeq]
      trivial
  | ⟨_, none, body⟩ :: rest, ss, ss', scope, depth, o, inLoop, seen, hv, hlabels, hwritten, hstay,
      hok => by
      rw [Case.WrittenSeq] at hwritten
      rw [Case.allStmtsSeq, Stmt.AllStay.append] at hstay
      rw [Case.analyzeSeq] at hok
      rw [Case.StandSeq]
      rcases bind_eq_ok hok with ⟨ss₁, hbody, _⟩
      exact ⟨Block.analyze_stands hops hv hlabels hwritten.1 hstay.1 hbody, hwritten.2⟩
  | ⟨_, some l, body⟩ :: rest, ss, ss', scope, depth, o, inLoop, seen, hv, hlabels, hwritten,
      hstay, hok => by
      rw [Case.WrittenSeq] at hwritten
      rw [Case.allStmtsSeq, Stmt.AllStay.append] at hstay
      rw [Case.analyzeSeq] at hok
      rw [Case.StandSeq]
      rcases bind_eq_ok hok with ⟨w, hw, hok⟩
      rcases bind_eq_ok hok with ⟨ss₁, hbody, hrest⟩
      -- Equal literals are found by their words, not their texts.
      rcases Analysis.caseValue_ok.mp hw with ⟨hvalue, hseen⟩
      -- A case leaves the scope around the switch as it finds it.
      have hv₁ := hv.passed (Block.analyze_passed hv.place hbody)
      rw [List.append_nil] at hv₁
      exact ⟨hwritten.1, w, hvalue, hseen,
        Block.analyze_stands hops hv hlabels hwritten.2.1 hstay.1 hbody,
        Case.analyzeSeq_stands hops hv₁ hlabels hwritten.2.2 hstay.2 hrest⟩
termination_by structural cases => cases

end

/-- Accepted code that can be written down can stand at its place. -/
theorem analyze_stands {d : Dialect} {ops : Instruction → Prop} {code : Block} {ss : Scopes}
    (hops : ∀ op, d.Offers op → ops op) (hwritten : code.Written d 0)
    (hstay : d.flavour = .loose → code.labelsStay = true) (hok : analyze d code = .ok ss) :
    code.Stands ⟨d, ops, code.stmts.flatMap Stmt.labelsHere⟩ [] false := by
  rcases code with ⟨line, stmts⟩
  rw [Block.Written] at hwritten
  -- The root scope shows nothing but what the outermost block hoists.
  rw [analyze, Block.analyze] at hok
  rw [Block.Stands, List.nil_append]
  rcases bind_eq_ok hok with ⟨ss₁, hhoist, hseq⟩
  rcases Analysis.hoist_passed Scopes.place_root hhoist with ⟨hpassed, hnames⟩
  have hv := Scopes.views_root.passed hpassed
  rw [List.nil_append] at hv
  have hlabels : ∀ nested, Outlook.LabelsIn ⟨d, ops, stmts.flatMap Stmt.labelsHere⟩ nested
      (stmts.flatMap Stmt.hoists) := by
    intro nested x hx
    rcases List.mem_flatMap.mp hx with ⟨s, hs, hx⟩
    exact .inl (List.mem_flatMap.mpr ⟨s, hs, Stmt.label_mem_hoists.mp hx⟩)
  have hreserved := fun p hp => (hnames p hp).1
  -- Only the loose dialect has labels for code to refer to.
  by_cases hloose : d.flavour = .loose
  · refine Stmt.analyzeSeq_stands hops hv (hlabels (Block.innerLabels ⟨line, stmts⟩)) hwritten.2
      (fun s hs => ?_) hreserved hseq
    -- The values of the code stay clear of the labels of inner blocks by the condition of the
    -- theorem.
    have hvalues : ∀ t ∈ Stmt.allStmtsSeq stmts, t.Stays (Block.innerLabels ⟨line, stmts⟩) := by
      intro t ht e he x hx hmem
      have := hstay hloose
      simp only [Block.labelsStay, List.all_eq_true, Bool.not_eq_true',
        List.contains_eq_mem, decide_eq_false_iff_not, Block.allStmts] at this
      exact this t ht e he x hx hmem
    refine ⟨hvalues s (Stmt.mem_allStmtsSeq.mpr ⟨s, hs, .inl rfl⟩), fun t ht => ⟨?_, fun _ => ?_⟩⟩
    · exact hvalues t (Stmt.mem_allStmtsSeq.mpr ⟨s, hs, .inr ht⟩)
    · exact fun x hx => List.mem_flatMap.mpr ⟨t, List.mem_flatMap.mpr ⟨s, hs, ht⟩, hx⟩
  · refine Stmt.analyzeSeq_stands hops hv (hlabels []) hwritten.2 (fun s hs => ?_) hreserved hseq
    exact ⟨fun _ _ _ _ => List.not_mem_nil,
      fun t _ => ⟨fun _ _ _ _ => List.not_mem_nil, fun h => absurd h hloose⟩⟩

end Accepted

section Declaring

variable {d : Dialect} {scope : Nat}

/-- A name that is admitted and not taken can be declared. -/
theorem Analysis.declare_free {ss : Scopes} (h : ss.Place scope) (line : Nat) {x : String}
    (symbol : Symbol) (hx : d.Admits x) (hfree : ss.taken scope x = false) :
    ∃ ss', Analysis.declare d scope line x symbol ss = .ok ss' ∧
      Scopes.Passed scope [(x, symbol)] 0 ss ss' := by
  rcases Scopes.get?_isSome h.opened with ⟨s, hs⟩
  have hnone : (s.find? x).isSome = false := by
    rw [Scopes.taken_eq h.ordered hs, Bool.or_eq_false_iff] at hfree
    exact hfree.1
  -- A name of the grammar has a first character.
  have hne : x.isEmpty = false := by
    refine Bool.eq_false_iff.mpr fun hempty => ?_
    rcases hx.1.1 with ⟨c, rest, hchars, _⟩
    rw [String.isEmpty_iff.mp hempty] at hchars
    exact absurd hchars (by rintro ⟨⟩)
  -- The scope has no symbol of this name, so it registers this one.
  have hreg : ∃ ss', ss.register? scope x symbol = some ss' := by
    rw [Scopes.register?, hs]
    simp only [hnone, Bool.false_eq_true, if_false]
    exact ⟨_, rfl⟩
  rcases hreg with ⟨ss', hreg⟩
  refine ⟨ss', ?_, h.register hfree hreg⟩
  rw [Analysis.declare, hx.2, hne, hfree]
  simp only [Bool.false_eq_true, if_false, Bool.or_false, hreg]

theorem Analysis.declareVariables_free : ∀ {vars : List TypedName} {ss : Scopes},
    ss.Place scope → (∀ v ∈ vars, v.Written ∧ d.reserved v.name = false) →
    ss.Free scope (vars.map (·.name)) →
      ∃ ss', Analysis.declareVariables d scope vars ss = .ok ss'
  | [], ss, _, _, _ => ⟨ss, rfl⟩
  | v :: rest, ss, h, hvars, hfree => by
      rw [List.forall_mem_cons] at hvars
      rw [List.map_cons] at hfree
      rcases Analysis.declare_free h v.line (.var v.type) ⟨hvars.1.1.1, hvars.1.2⟩
        (hfree.2 _ List.mem_cons_self) with ⟨ss₁, h₁, hpassed⟩
      rw [← List.singleton_append] at hfree
      have hrest := hfree.passed h hpassed (List.Subset.refl _)
      rcases Analysis.declareVariables_free (hpassed.place h) hvars.2 hrest with ⟨ss', hss'⟩
      refine ⟨ss', ?_⟩
      simp only [Analysis.declareVariables, List.foldlM_cons] at hss' ⊢
      rw [h₁]
      exact hss'

/-- Names that are admitted and free can be hoisted. -/
theorem Analysis.hoist_free : ∀ {stmts : List Stmt} {ss : Scopes}, ss.Place scope →
    (∀ p ∈ stmts.flatMap Stmt.hoists, d.Admits p.1) →
    ss.Free scope ((stmts.flatMap Stmt.hoists).map (·.1)) →
      ∃ ss', Analysis.hoist d scope stmts ss = .ok ss'
  | [], ss, _, _, _ => ⟨ss, rfl⟩
  | s :: rest, ss, h, hnames, hfree => by
      rw [List.flatMap_cons, List.forall_mem_append] at hnames
      rw [List.flatMap_cons, List.map_append] at hfree
      -- Only functions and labels register anything.
      have hs : ∃ ss₁, Analysis.hoistOne d scope ss s = .ok ss₁ ∧
          Scopes.Passed scope s.hoists 0 ss ss₁ := by
        cases s with
        | func line name params returns body =>
            exact Analysis.declare_free h line _ (hnames.1 _ List.mem_cons_self)
              (hfree.2 name List.mem_cons_self)
        | label line name =>
            exact Analysis.declare_free h line _ (hnames.1 _ List.mem_cons_self)
              (hfree.2 name List.mem_cons_self)
        | _ => exact ⟨ss, rfl, .refl h⟩
      rcases hs with ⟨ss₁, h₁, hpassed⟩
      -- What the other statements hoist is still free behind this one.
      have hrest := hfree.passed h hpassed (List.Subset.refl _)
      rcases Analysis.hoist_free (hpassed.place h) hnames.2 hrest with ⟨ss', hss'⟩
      refine ⟨ss', ?_⟩
      simp only [Analysis.hoist, List.foldlM_cons] at hss' ⊢
      rw [h₁]
      exact hss'

/-- The names that a statement declares and that are not declared with its block. -/
def Stmt.declaresLater (s : Stmt) : List String :=
  (match s with
    | .decl _ vars _ => vars.map (·.name)
    | .func _ _ params returns _ => (params ++ returns).map (·.name)
    | _ => []) ++ s.allInner.flatMap Stmt.declaresHere

theorem Stmt.declared_perm {stmts : List Stmt} :
    ((Stmt.allStmtsSeq stmts).flatMap Stmt.declaresHere).Perm
      ((stmts.flatMap Stmt.hoists).map (·.1) ++ stmts.flatMap Stmt.declaresLater) := by
  induction stmts with
  | nil => exact .refl _
  | cons s rest ih =>
      have hs : (s.declaresHere ++ s.allInner.flatMap Stmt.declaresHere)
          = s.hoists.map (·.1) ++ s.declaresLater := by
        cases s <;> rfl
      simp only [Stmt.allStmtsSeq, List.flatMap_cons, List.flatMap_append, List.map_append,
        List.append_assoc]
      rw [← List.append_assoc, hs, List.append_assoc]
      refine List.Perm.append_left _ ?_
      exact (ih.append_left _).trans (List.perm_append_comm_assoc _ _ _)

/-- What a statement adds behind it is among what it declares. -/
theorem Stmt.adds_later {s : Stmt} : s.adds.map (·.1) ⊆ s.declaresLater := by
  cases s with
  | decl line vars value =>
      rw [Stmt.adds, TypedName.symbols, List.map_map]
      exact List.subset_append_left _ _
  | _ => exact List.nil_subset _

theorem Stmt.hoists_adds_declared {stmts : List Stmt} :
    (stmts.flatMap Stmt.hoists ++ stmts.flatMap Stmt.adds).map (·.1)
      ⊆ (Stmt.allStmtsSeq stmts).flatMap Stmt.declaresHere := by
  rw [List.map_append]
  refine List.Subset.trans ?_ (@Stmt.declared_perm stmts).symm.subset
  refine List.append_subset.mpr ⟨List.subset_append_left _ _, fun x hx => ?_⟩
  rw [List.map_flatMap] at hx
  rcases List.mem_flatMap.mp hx with ⟨s, hs, hx⟩
  exact List.mem_append_right _ (List.mem_flatMap.mpr ⟨s, hs, Stmt.adds_later hx⟩)

end Declaring

section Standing

variable {S : Setting}

theorem bind_ok {ε α β : Type} {r : Except ε α} {f : α → Except ε β} {a : α} {b : β}
    (h : r = .ok a) (hf : f a = .ok b) : (r >>= f) = .ok b := by
  rw [h]
  exact hf

theorem Outlook.Tops.append {o : Outlook} (h : o.Tops S) (added : Outlook) :
    Outlook.Tops S (o ++ added) := fun x hx => List.mem_append_left _ (h x hx)

theorem Outlook.Tops.behind {o : Outlook} (h : o.Tops S) : o.behind.Tops S :=
  fun x hx => List.mem_filter.mpr ⟨h x hx, rfl⟩

theorem Stmt.StandSeq.admits : ∀ {stmts : List Stmt} {o : Outlook} {inLoop : Bool},
    Stmt.StandSeq S o inLoop stmts → ∀ p ∈ stmts.flatMap Stmt.hoists, S.dialect.Admits p.1
  | [], _, _, _, p, hp => absurd hp List.not_mem_nil
  | s :: rest, o, inLoop, h, p, hp => by
      rw [Stmt.StandSeq] at h
      rw [List.flatMap_cons, List.mem_append] at hp
      rcases hp with hp | hp
      · cases s with
        | func line name params returns body =>
            rw [Stmt.Stands] at h
            exact List.mem_singleton.mp hp ▸ h.1.1
        | label line name =>
            rw [Stmt.Stands] at h
            exact List.mem_singleton.mp hp ▸ h.1.2
        | _ => exact absurd hp List.not_mem_nil
      · exact Stmt.StandSeq.admits h.2 p hp

/-- Entering a block: its functions and labels are declared first. -/
theorem Stmt.StandSeq.hoist {stmts : List Stmt} {ss : Scopes} {scope : Nat} {o : Outlook}
    {inLoop : Bool} (h : Stmt.StandSeq S (o ++ stmts.flatMap Stmt.hoists) inLoop stmts)
    (hv : ss.Views scope o)
    (hfree : ss.Free scope ((Stmt.allStmtsSeq stmts).flatMap Stmt.declaresHere)) :
    ∃ ss', Analysis.hoist S.dialect scope stmts ss = .ok ss' ∧
      ss'.Views scope (o ++ stmts.flatMap Stmt.hoists) ∧
      ss'.Free scope (stmts.flatMap Stmt.declaresLater) := by
  have hfree := hfree.perm Stmt.declared_perm
  rcases Analysis.hoist_free hv.place h.admits hfree.left with ⟨ss', hok⟩
  have hpassed := (Analysis.hoist_passed hv.place hok).1
  exact ⟨ss', hok, hv.passed hpassed, hfree.passed hv.place hpassed (List.Subset.refl _)⟩

mutual

/-- The analysis accepts a block that can stand at its place, if the names that it declares
    are free. -/
theorem Block.Stands.analyze : ∀ {b : Block} {ss : Scopes} {scope : Nat} {o : Outlook}
    {inLoop : Bool}, b.Stands S o inLoop → ss.Views scope o → o.Tops S →
    ss.Free scope (b.allStmts.flatMap Stmt.declaresHere) →
      ∃ ss', b.analyze S.dialect (some scope) inLoop ss = .ok ss'
  | ⟨_, stmts⟩, ss, scope, o, inLoop, h, hv, htops, hfree => by
      rw [Block.Stands] at h
      rw [Block.allStmts] at hfree
      rcases h.hoist hv.block (hfree.push hv.place false) with ⟨ss₁, h₁, hv₁, hfree₁⟩
      rcases Stmt.StandSeq.analyzeSeq h hv₁ (htops.append _) hfree₁ with ⟨ss', hss'⟩
      refine ⟨ss', ?_⟩
      rw [Block.analyze]
      exact bind_ok h₁ hss'
termination_by structural b => b

/-- A sequence that stands is read, where its names are free. -/
theorem Stmt.StandSeq.analyzeSeq : ∀ {stmts : List Stmt} {ss : Scopes} {scope : Nat}
    {o : Outlook} {inLoop : Bool}, Stmt.StandSeq S o inLoop stmts → ss.Views scope o → o.Tops S →
    ss.Free scope (stmts.flatMap Stmt.declaresLater) →
      ∃ ss', Stmt.analyzeSeq S.dialect scope inLoop stmts ss = .ok ss'
  | [], ss, _, _, _, _, _, _, _ => by
      rw [Stmt.analyzeSeq]
      exact ⟨ss, rfl⟩
  | s :: rest, ss, scope, o, inLoop, h, hv, htops, hfree => by
      rw [Stmt.StandSeq] at h
      rw [List.flatMap_cons] at hfree
      rcases Stmt.Stands.analyze h.1 hv htops hfree.left with ⟨ss₁, h₁⟩
      have hpassed := Stmt.analyze_passed hv.place h₁
      rcases Stmt.StandSeq.analyzeSeq h.2 (hv.passed hpassed) (htops.append _)
        (hfree.passed hv.place hpassed Stmt.adds_later) with ⟨ss', hss'⟩
      refine ⟨ss', ?_⟩
      rw [Stmt.analyzeSeq]
      exact bind_ok h₁ hss'
termination_by structural stmts => stmts

/-- A statement that stands is read, where the names it declares are free. -/
theorem Stmt.Stands.analyze : ∀ {s : Stmt} {ss : Scopes} {scope : Nat} {o : Outlook}
    {inLoop : Bool}, s.Stands S o inLoop → ss.Views scope o → o.Tops S →
    ss.Free scope s.declaresLater →
      ∃ ss', s.analyze S.dialect scope inLoop ss = .ok ss'
  | .expr _ e, ss, scope, o, inLoop, h, hv, htops, _ => by
      rw [Stmt.Stands] at h
      rcases h with ⟨n, hcounts, hzero⟩
      refine ⟨ss, ?_⟩
      rw [Stmt.analyze]
      -- The count is neither missing nor one that a statement may not leave.
      refine bind_ok (hcounts.valueCount hv) ?_
      rw [if_neg fun hn => hzero.elim hn.1 hn.2]
      rfl
  | .assign _ targets value, ss, scope, o, inLoop, h, hv, htops, _ => by
      rw [Stmt.Stands] at h
      refine ⟨ss, ?_⟩
      rw [Stmt.analyze]
      -- The value first, then the targets, as the analysis reads them.
      refine bind_ok (Analysis.expectValues_ok.mpr ((h.2.2.ground htops).valueCount hv)) ?_
      exact bind_ok ((Analysis.expectVariables_ok hv).mpr fun t ht => (h.2.1 t ht).2) rfl
  | .decl _ vars none, ss, scope, o, inLoop, h, hv, htops, hfree => by
      rw [Stmt.Stands] at h
      rw [Stmt.analyze]
      exact Analysis.declareVariables_free hv.place h.2.1 hfree.left
  | .decl _ vars (some value), ss, scope, o, inLoop, h, hv, htops, hfree => by
      rw [Stmt.Stands] at h
      rcases Analysis.declareVariables_free hv.place h.2.1 hfree.left with ⟨ss', hss'⟩
      refine ⟨ss', ?_⟩
      rw [Stmt.analyze]
      refine bind_ok (Analysis.expectValues_ok.mpr ?_) hss'
      exact ((h.2.2 value rfl).ground htops).valueCount hv
  | .func _ _ params returns body, ss, scope, o, inLoop, h, hv, htops, hfree => by
      rw [Stmt.Stands] at h
      -- The names free around the function are free in its own scope.
      have hfree' := hfree.push hv.place true
      rcases Analysis.declareVariables_free hv.function.place h.2.1 hfree'.left with ⟨ss₁, h₁⟩
      have hpassed := (Analysis.declareVariables_passed hv.function.place h₁).1
      -- Once the parameters are declared, the names of the body are left.
      have hrest := hfree'.passed hv.function.place hpassed
        (by rw [TypedName.symbols, List.map_map]; exact List.Subset.refl _)
      rcases Block.Stands.analyze h.2.2 (hv.function.passed hpassed) (htops.behind.append _) hrest
        with ⟨ss', hss'⟩
      refine ⟨ss', ?_⟩
      rw [Stmt.analyze]
      exact bind_ok h₁ hss'
  | .cond _ test body, ss, scope, o, inLoop, h, hv, htops, hfree => by
      rw [Stmt.Stands] at h
      rcases Block.Stands.analyze h.2 hv htops hfree with ⟨ss', hss'⟩
      refine ⟨ss', ?_⟩
      rw [Stmt.analyze]
      exact bind_ok (Analysis.expectValues_ok.mpr (h.1.valueCount hv)) hss'
  | .switch _ subject cases, ss, scope, o, inLoop, h, hv, htops, hfree => by
      rw [Stmt.Stands] at h
      rcases Case.StandSeq.analyzeSeq h.2.2 hv htops hfree with ⟨ss', hss'⟩
      refine ⟨ss', ?_⟩
      rw [Stmt.analyze]
      exact bind_ok (Analysis.expectValues_ok.mpr (h.1.valueCount hv)) hss'
  | .loop _ ⟨_, pre⟩ test post body, ss, scope, o, inLoop, h, hv, htops, hfree => by
      rw [Stmt.Stands] at h
      -- The init block's scope is pushed for the whole loop.
      have hfree' := hfree.push hv.place false
      simp only [Stmt.declaresLater, Stmt.allInner, Block.allStmts, List.nil_append,
        List.flatMap_append, List.append_assoc] at hfree'
      -- What is hoisted is declared first, and what is declared later stays free.
      rcases h.1.hoist hv.block hfree'.left with ⟨ss₁, h₁, hv₁, hfree₁⟩
      rcases Stmt.StandSeq.analyzeSeq h.1 hv₁ (htops.append _) hfree₁ with ⟨ss₂, h₂⟩
      have hpre := (Analysis.hoist_passed hv.block.place h₁).1.trans
        (Stmt.analyzeSeq_passed hv₁.place h₂)
      have hv₂ := hv.block.passed hpre
      rw [← List.append_assoc] at hv₂
      -- The names of the body and of the post are free behind the init block.
      have hfree₂ := hfree'.passed hv.block.place hpre Stmt.hoists_adds_declared
      have htops₂ := (htops.append (pre.flatMap Stmt.hoists)).append (pre.flatMap Stmt.adds)
      rcases Block.Stands.analyze h.2.2.1 hv₂ htops₂ hfree₂.left with ⟨ss₃, h₃⟩
      have hbody := Block.analyze_passed hv₂.place h₃
      have hv₃ := hv₂.passed hbody
      rw [List.append_nil] at hv₃
      -- The body declares nothing in the scope of the init block.
      rcases Block.Stands.analyze h.2.2.2 hv₃ htops₂
        (hfree₂.passed hv₂.place hbody (List.nil_subset _)) with ⟨ss', hss'⟩
      refine ⟨ss', ?_⟩
      rw [Stmt.analyze]
      have htest := Analysis.expectValues_ok.mpr (h.2.1.valueCount hv₂)
      -- The five steps of the analysis, one behind the other.
      exact bind_ok h₁ (bind_ok h₂ (bind_ok htest (bind_ok h₃ hss')))
  | .brk _, ss, scope, o, inLoop, h, _, _, _ => by
      rw [Stmt.Stands] at h
      rw [Stmt.analyze, if_pos h]
      exact ⟨ss, rfl⟩
  | .cont _, ss, scope, o, inLoop, h, _, _, _ => by
      rw [Stmt.Stands] at h
      rw [Stmt.analyze, if_pos h]
      exact ⟨ss, rfl⟩
  | .block b, ss, scope, o, inLoop, h, hv, htops, hfree => by
      rw [Stmt.Stands] at h
      rw [Stmt.analyze]
      exact Block.Stands.analyze h hv htops hfree
  | .label _ _, ss, scope, o, inLoop, _, _, _, _ => by
      rw [Stmt.analyze]
      exact ⟨ss, rfl⟩
  | .stackAssign _ target, ss, scope, o, inLoop, h, hv, htops, _ => by
      rw [Stmt.Stands] at h
      refine ⟨ss, ?_⟩
      rw [Stmt.analyze]
      exact bind_ok ((Analysis.expectVariable_ok hv).mpr h.2.2) rfl
termination_by structural s => s

/-- Cases that stand are read, each behind the others. -/
theorem Case.StandSeq.analyzeSeq : ∀ {cases : List Case} {ss : Scopes} {scope : Nat}
    {o : Outlook} {inLoop : Bool} {seen : List Word}, Case.StandSeq S o inLoop seen cases →
    ss.Views scope o → o.Tops S →
      ss.Free scope ((Case.allStmtsSeq cases).flatMap Stmt.declaresHere) →
      ∃ ss', Case.analyzeSeq S.dialect scope inLoop seen cases ss = .ok ss'
  | [], ss, _, _, _, _, _, _, _, _ => by
      rw [Case.analyzeSeq]
      exact ⟨ss, rfl⟩
  | ⟨_, none, body⟩ :: rest, ss, scope, o, inLoop, seen, h, hv, htops, hfree => by
      rw [Case.StandSeq] at h
      rcases h with ⟨hbody, rfl⟩
      rw [Case.allStmtsSeq, List.flatMap_append] at hfree
      rcases Block.Stands.analyze hbody hv htops hfree.left with ⟨ss', hss'⟩
      refine ⟨ss', ?_⟩
      rw [Case.analyzeSeq]
      refine bind_ok hss' ?_
      rw [Case.analyzeSeq]
  | ⟨line, some l, body⟩ :: rest, ss, scope, o, inLoop, seen, h, hv, htops, hfree => by
      rw [Case.StandSeq] at h
      rcases h with ⟨_, w, hw, hseen, hbody, hrest⟩
      rw [Case.allStmtsSeq, List.flatMap_append] at hfree
      rcases Block.Stands.analyze hbody hv htops hfree.left with ⟨ss₁, h₁⟩
      -- A case passes through its own scope only.
      have hpassed := Block.analyze_passed hv.place h₁
      have hv₁ := hv.passed hpassed
      rw [List.append_nil] at hv₁
      rcases Case.StandSeq.analyzeSeq hrest hv₁ htops
        (hfree.passed hv.place hpassed (List.nil_subset _)) with ⟨ss', hss'⟩
      refine ⟨ss', ?_⟩
      rw [Case.analyzeSeq]
      exact bind_ok (Analysis.caseValue_ok.mpr ⟨hw, hseen⟩) (bind_ok h₁ hss')
termination_by structural cases => cases

end

/-- Code that can stand at its place and declares no name twice is accepted. -/
theorem analyze_of_stands {code : Block} (h : code.Stands S [] false)
    (hlabels : ∀ x ∈ S.labels, (x, Symbol.label) ∈ code.stmts.flatMap Stmt.hoists)
    (hnodup : code.declared.Nodup) : ∃ ss, analyze S.dialect code = .ok ss := by
  rcases code with ⟨line, stmts⟩
  rw [Block.Stands] at h
  have hfree : (Scopes.empty.push none false).2.Free 0
      ((Stmt.allStmtsSeq stmts).flatMap Stmt.declaresHere) := ⟨hnodup, fun _ _ => rfl⟩
  rcases h.hoist Scopes.views_root hfree with ⟨ss₁, h₁, hv₁, hfree₁⟩
  rcases Stmt.StandSeq.analyzeSeq h hv₁ (fun x hx => hlabels x hx) hfree₁ with ⟨ss, hss⟩
  refine ⟨ss, ?_⟩
  rw [analyze, Block.analyze]
  exact bind_ok h₁ hss

end Standing

end YulToolchain
