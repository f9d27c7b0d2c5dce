import YulToolchain.Proofs.Static.Resolved

/-!
# What the Analysis Does to the Scopes

Accepted code leaves the scopes as they were but for what it declares.

This holds in every dialect, and it does not take more than the code that the analysis runs:
a name is declared in a scope, or a scope is opened inside another one and left again. The
statement is exact. Of the scopes that were open before, only the one that the code stands in
has changed, and what was added there is known down to the order (`Scopes.Passed`).

Names are declared in two goes. Functions and labels are declared when a block is entered,
variables when their declaration is passed.

## Main definitions

* `Stmt.hoists`, `Stmt.adds`: What a statement declares in its scope, in the one or the other
  go.
* `Scopes.Place`: A scope that is open.
* `Scopes.Passed`: What passing some code does to the scopes.

## Theorems

* `Analysis.declareVariables_passed`, `Analysis.hoist_passed`: Declarations.
* `Block.analyze_passed`, `Stmt.analyze_passed`: Code that is accepted.
-/

namespace YulToolchain

/-- What a statement declares when the block around it is entered. -/
def Stmt.hoists : Stmt → List (String × Symbol)
  | .func _ name params returns _ =>
    [(name, .function (params.map (·.type)) (returns.map (·.type)))]
  | .label _ name => [(name, .label)]
  | _ => []

/-- The symbols of declared variables. -/
def TypedName.symbols (vars : List TypedName) : List (String × Symbol) :=
  vars.map fun v => (v.name, .var v.type)

/-- What a statement declares in its scope when it is passed. -/
def Stmt.adds : Stmt → List (String × Symbol)
  | .decl _ vars _ => TypedName.symbols vars
  | _ => []

/-- In a scope that has each name once, an entry is what its name is found as. -/
theorem Scope.find?_of_mem {s : Scope} (hnodup : (s.symbols.map (·.1)).Nodup) {x : String}
    {symbol : Symbol} (h : (x, symbol) ∈ s.symbols) : s.find? x = some symbol := by
  rcases List.append_of_mem h with ⟨before, behind, hsymbols⟩
  refine List.lookup_eq_some_iff.mpr ⟨before, behind, hsymbols, fun p hp => ?_⟩
  rw [hsymbols, List.map_append, List.map_cons] at hnodup
  have hne := (List.nodup_append.mp hnodup).2.2 p.1 (List.mem_map_of_mem hp) x
    List.mem_cons_self
  exact bne_iff_ne.mpr hne.symm

/-- A name that is not found has no entry. -/
theorem Scope.mem_of_find? {s : Scope} {x : String} (h : s.find? x = none) :
    x ∉ s.symbols.map (·.1) := by
  intro hx
  rcases List.mem_map.mp hx with ⟨p, hp, rfl⟩
  exact absurd (List.lookup_eq_none_iff.mp h p hp) (by simp only [bne_self_eq_false,
    Bool.false_eq_true, not_false_eq_true])

namespace Scopes

/-- No scope declares a name twice. -/
def Tidy (ss : Scopes) : Prop := ∀ i s, ss.get? i = some s → (s.symbols.map (·.1)).Nodup

/-- A scope that is open. -/
structure Place (ss : Scopes) (scope : Nat) : Prop where
  ordered : ss.Ordered
  opened : scope < ss.toArray.size
  tidy : ss.Tidy

/-- What passing some code does to the scopes: it adds declarations to the scope that it
    stands in, and scopes of its own. -/
structure Passed (scope : Nat) (added : List (String × Symbol)) (count : Nat)
    (ss ss' : Scopes) : Prop where
  ordered : ss'.Ordered
  tidy : ss'.Tidy
  /-- The other scopes are as before. -/
  same : ∀ i < ss.toArray.size, i ≠ scope → ss'.get? i = ss.get? i
  /-- In the scope of the place there are new declarations. -/
  here : ∀ s, ss.get? scope = some s →
    ss'.get? scope = some { s with symbols := added.reverse ++ s.symbols }
  grows : Grows ss ss'
  size : ss'.toArray.size = ss.toArray.size + count

variable {scope n m : Nat} {added more : List (String × Symbol)} {a b c : Scopes}

theorem Passed.place (h : Passed scope added n a b) (ha : a.Place scope) : b.Place scope := by
  have hopened := ha.opened
  have hsize := h.size
  exact ⟨h.ordered, by omega, h.tidy⟩

theorem Passed.refl (h : a.Place scope) : Passed scope [] 0 a a :=
  ⟨h.ordered, h.tidy, fun _ _ _ => rfl, fun _ hs => hs, .refl a, rfl⟩

/-- Passages behind each other add up what they declare and what they open. -/
theorem Passed.trans (hab : Passed scope added n a b) (hbc : Passed scope more m b c) :
    Passed scope (added ++ more) (n + m) a c := by
  have hsize := hab.size
  refine ⟨hbc.ordered, hbc.tidy, fun i hi hne => ?_, fun s hs => ?_, hab.grows.trans hbc.grows, ?_⟩
  · rw [hbc.same i (by omega) hne, hab.same i hi hne]
  · rw [hbc.here _ (hab.here s hs), List.reverse_append, List.append_assoc]
  · rw [hbc.size, hab.size, Nat.add_assoc]

/-- A scope that was just opened is a place. -/
theorem Place.push (h : a.Place scope) (isFunction : Bool) :
    (a.push (some scope) isFunction).2.Place a.toArray.size := by
  refine ⟨ordered_push h.ordered fun p hp => Option.some.inj hp ▸ h.opened, ?_, fun i s hs => ?_⟩
  · rw [size_push]
    exact Nat.lt_succ_self _
  · have hlt := lt_of_get? hs
    rw [size_push] at hlt
    by_cases hi : i < a.toArray.size
    · exact h.tidy i s (by rwa [get?_push_old hi] at hs)
    · obtain rfl : i = a.toArray.size := by omega
      rw [get?_push_new, Option.some.injEq] at hs
      subst hs
      exact List.nodup_nil

/-- The root scope is a place. -/
theorem place_root : (Scopes.empty.push none false).2.Place 0 := by
  have hget : ∀ i s, (Scopes.empty.push none false).2.get? i = some s → s = ⟨none, false, []⟩ := by
    intro i s hs
    obtain rfl : i = 0 := by
      have := lt_of_get? hs
      rw [size_push] at this
      exact Nat.lt_one_iff.mp this
    exact (Option.some.inj hs).symm
  refine ⟨fun i s p hs hp => ?_, by decide, fun i s hs => ?_⟩
  · rw [hget i s hs] at hp
    exact absurd hp (by rintro ⟨⟩)
  · rw [hget i s hs]
    exact List.nodup_nil

/-- Code in a scope of its own adds nothing to the scope around it. -/
theorem Passed.leave {isFunction : Bool} (h : a.Place scope)
    (hin : Passed a.toArray.size added n (a.push (some scope) isFunction).2 b) :
    Passed scope [] (n + 1) a b := by
  have hsame : ∀ i < a.toArray.size, b.get? i = a.get? i := by
    intro i hi
    rw [hin.same i (by rw [size_push]; omega) (by omega), get?_push_old hi]
  refine ⟨hin.ordered, hin.tidy, fun i hi _ => hsame i hi, fun s hs => ?_, ?_, ?_⟩
  · rw [hsame scope h.opened]
    exact hs
  · exact (grows_push h.ordered fun p hp => Option.some.inj hp ▸ h.opened).trans hin.grows
  · rw [hin.size, size_push]
    omega

/-- What was added is found in the scope. -/
theorem Passed.lookup (h : Passed scope added n a b) (ha : a.Place scope) {x : String}
    {symbol : Symbol} (hx : (x, symbol) ∈ added) :
    b.lookup scope x = some (⟨scope, x⟩, symbol) := by
  rcases get?_isSome ha.opened with ⟨s, hs⟩
  have hs' := h.here s hs
  have hnodup := h.tidy scope _ hs'
  have hmem : (x, symbol) ∈ added.reverse ++ s.symbols :=
    List.mem_append_left _ (List.mem_reverse.mpr hx)
  have hfind : Scope.find? { s with symbols := added.reverse ++ s.symbols } x = some symbol :=
    Scope.find?_of_mem hnodup hmem
  rw [lookup_eq h.ordered hs', hfind]

end Scopes

/-- What a declaration that is accepted asks for, and what it does. -/
theorem Analysis.declare_ok {d : Dialect} {scope line : Nat} {x : String} {symbol : Symbol}
    {ss ss' : Scopes} (h : Analysis.declare d scope line x symbol ss = .ok ss') :
    d.reserved x = false ∧ x ≠ "" ∧ ss.taken scope x = false ∧
      ss.register? scope x symbol = some ss' := by
  rw [Analysis.declare] at h
  by_cases hres : d.reserved x = true
  · rw [if_pos hres] at h
    exact absurd h (by rintro ⟨⟩)
  · rw [if_neg hres] at h
    by_cases htaken : (x.isEmpty || ss.taken scope x) = true
    · rw [if_pos htaken] at h
      exact absurd h (by rintro ⟨⟩)
    -- The name is neither empty nor taken, so registering it was all that was left.
    · rw [if_neg htaken] at h
      simp only [Bool.or_eq_true, not_or, Bool.not_eq_true] at htaken hres
      refine ⟨hres, fun hx => ?_, htaken.2, ?_⟩
      · rw [hx] at htaken
        exact absurd htaken.1 (by decide)
      · rcases hreg : ss.register? scope x symbol with _ | ss₁
        · simp only [hreg, reduceCtorEq] at h
        · simp only [hreg, Except.ok.injEq] at h
          rw [h]

section Declarations

variable {d : Dialect} {scope : Nat}

/-- Registering a name that is not taken is a passage that gains this one entry. -/
theorem Scopes.Place.register {ss ss' : Scopes} (h : ss.Place scope) {x : String} {symbol : Symbol}
    (htaken : ss.taken scope x = false) (hreg : ss.register? scope x symbol = some ss') :
    Passed scope [(x, symbol)] 0 ss ss' := by
  rcases get?_isSome h.opened with ⟨s, hs⟩
  have hget := get?_register hs hreg
  -- A name that is not taken is not in the scope itself either.
  have hfree : s.find? x = none := by
    rw [taken_eq h.ordered hs, Bool.or_eq_false_iff] at htaken
    exact Option.not_isSome_iff_eq_none.mp (Bool.eq_false_iff.mp htaken.1)
  refine ⟨ordered_register h.ordered hs hreg, fun i t ht => ?_, fun i _ hne => ?_, fun t ht => ?_,
    grows_register h.ordered hs hreg htaken, size_register hreg⟩
  -- One more entry, of a name that the scope did not have.
  · rw [hget] at ht
    split at ht
    · rw [Option.some.injEq] at ht
      subst ht
      exact List.nodup_cons.mpr ⟨Scope.mem_of_find? hfree, h.tidy scope s hs⟩
    · exact h.tidy i t ht
  · rw [hget, if_neg hne]
  · obtain rfl := Option.some.inj (hs.symm.trans ht)
    rw [hget, if_pos rfl]
    rfl

/-- Declared variables are added, and their names can be declared. -/
theorem Analysis.declareVariables_passed : ∀ {vars : List TypedName} {ss ss' : Scopes},
    ss.Place scope → Analysis.declareVariables d scope vars ss = .ok ss' →
      Scopes.Passed scope (TypedName.symbols vars) 0 ss ss' ∧
        ∀ x ∈ vars, d.reserved x.name = false ∧ x.name ≠ ""
  | [], ss, ss', h, hok => by
      cases hok
      exact ⟨.refl h, fun x hx => absurd hx List.not_mem_nil⟩
  | x :: rest, ss, ss', h, hok => by
      simp only [Analysis.declareVariables, List.foldlM_cons] at hok
      rcases bind_eq_ok hok with ⟨ss₁, h₁, hrest⟩
      rcases Analysis.declare_ok h₁ with ⟨hres, hne, htaken, hreg⟩
      have hx := h.register htaken hreg
      rcases Analysis.declareVariables_passed (hx.place h) hrest with ⟨ih, hrest⟩
      exact ⟨hx.trans ih, List.forall_mem_cons.mpr ⟨⟨hres, hne⟩, hrest⟩⟩

/-- The functions and labels of a block are added, and their names can be declared. -/
theorem Analysis.hoist_passed : ∀ {stmts : List Stmt} {ss ss' : Scopes}, ss.Place scope →
    Analysis.hoist d scope stmts ss = .ok ss' →
      Scopes.Passed scope (stmts.flatMap Stmt.hoists) 0 ss ss' ∧
        ∀ p ∈ stmts.flatMap Stmt.hoists, d.reserved p.1 = false ∧ p.1 ≠ ""
  | [], ss, ss', h, hok => by
      cases hok
      exact ⟨.refl h, fun p hp => absurd hp List.not_mem_nil⟩
  | s :: rest, ss, ss', h, hok => by
      simp only [Analysis.hoist, List.foldlM_cons] at hok
      rcases bind_eq_ok hok with ⟨ss₁, h₁, hrest⟩
      have hs : Scopes.Passed scope s.hoists 0 ss ss₁ ∧
          ∀ p ∈ s.hoists, d.reserved p.1 = false ∧ p.1 ≠ "" := by
        -- Functions and labels are declared one by one, other statements are passed over.
        cases s with
        | func line name params returns body =>
            rcases Analysis.declare_ok h₁ with ⟨hres, hne, htaken, hreg⟩
            exact ⟨h.register htaken hreg, List.forall_mem_singleton.mpr ⟨hres, hne⟩⟩
        | label line name =>
            rcases Analysis.declare_ok h₁ with ⟨hres, hne, htaken, hreg⟩
            exact ⟨h.register htaken hreg, List.forall_mem_singleton.mpr ⟨hres, hne⟩⟩
        | _ =>
            cases h₁
            exact ⟨.refl h, fun p hp => absurd hp List.not_mem_nil⟩
      rcases Analysis.hoist_passed (hs.1.place h) hrest with ⟨ih, hrest⟩
      rw [List.flatMap_cons]
      exact ⟨hs.1.trans ih, List.forall_mem_append.mpr ⟨hs.2, hrest⟩⟩

end Declarations

section Statements

variable {d : Dialect}

/-- An expression stands alone if it leaves nothing, or anything in the loose dialect. -/
theorem Stmt.analyze_expr_ok {ss ss' : Scopes} {scope line : Nat} {inLoop : Bool} {e : Expr}
    (hok : (Stmt.expr line e).analyze d scope inLoop ss = .ok ss') :
    ss' = ss ∧ ∃ n, e.valueCount d ss scope = .ok n ∧ (n = 0 ∨ d.flavour = .loose) := by
  rw [Stmt.analyze] at hok
  rcases bind_eq_ok hok with ⟨n, hn, hok⟩
  by_cases hz : n ≠ 0 ∧ d.flavour ≠ .loose
  · rw [if_pos hz] at hok
    exact absurd hok (by rintro ⟨⟩)
  · rw [if_neg hz] at hok
    cases hok
    refine ⟨rfl, n, hn, ?_⟩
    by_cases h0 : n = 0
    · exact .inl h0
    · exact .inr (Decidable.not_not.mp fun hl => hz ⟨h0, hl⟩)

/-- Cases that are accepted: the first one, and then the others. -/
theorem Case.analyzeSeq_cons_ok {line : Nat} {value : Option Literal} {body : Block}
    {rest : List Case} {ss ss' : Scopes} {scope : Nat} {inLoop : Bool} {seen : List Word}
    (hok : Case.analyzeSeq d scope inLoop seen (⟨line, value, body⟩ :: rest) ss = .ok ss') :
    ∃ ss₁ seen', body.analyze d (some scope) inLoop ss = .ok ss₁ ∧
      Case.analyzeSeq d scope inLoop seen' rest ss₁ = .ok ss' := by
  cases value with
  | none =>
      rw [Case.analyzeSeq] at hok
      rcases bind_eq_ok hok with ⟨ss₁, hbody, hrest⟩
      exact ⟨ss₁, seen, hbody, hrest⟩
  | some l =>
      rw [Case.analyzeSeq] at hok
      rcases bind_eq_ok hok with ⟨w, _, hok⟩
      rcases bind_eq_ok hok with ⟨ss₁, hbody, hrest⟩
      exact ⟨ss₁, _, hbody, hrest⟩

mutual

/-- A block that is accepted adds nothing to the scope around it. -/
theorem Block.analyze_passed : ∀ {b : Block} {ss ss' : Scopes} {scope : Nat} {inLoop : Bool},
    ss.Place scope → b.analyze d (some scope) inLoop ss = .ok ss' →
      Scopes.Passed scope [] b.scopeCount ss ss'
  | ⟨_, stmts⟩, ss, ss', scope, inLoop, h, hok => by
      rw [Block.analyze] at hok
      rcases bind_eq_ok hok with ⟨ss₁, hhoist, hseq⟩
      have h₁ := (Analysis.hoist_passed (h.push false) hhoist).1
      have h₂ := h₁.trans (Stmt.analyzeSeq_passed (h₁.place (h.push false)) hseq)
      rw [Block.scopeCount, Nat.add_comm, ← Nat.zero_add (Stmt.scopeCountSeq stmts)]
      exact h₂.leave h
termination_by structural b => b

/-- The passage of a sequence is those of its statements put together. -/
theorem Stmt.analyzeSeq_passed : ∀ {stmts : List Stmt} {ss ss' : Scopes} {scope : Nat}
    {inLoop : Bool}, ss.Place scope → Stmt.analyzeSeq d scope inLoop stmts ss = .ok ss' →
      Scopes.Passed scope (stmts.flatMap Stmt.adds) (Stmt.scopeCountSeq stmts) ss ss'
  | [], ss, ss', scope, inLoop, h, hok => by
      rw [Stmt.analyzeSeq] at hok
      cases hok
      rw [Stmt.scopeCountSeq]
      exact .refl h
  | s :: rest, ss, ss', scope, inLoop, h, hok => by
      rw [Stmt.analyzeSeq] at hok
      rcases bind_eq_ok hok with ⟨ss₁, hs, hrest⟩
      have h₁ := Stmt.analyze_passed h hs
      rw [Stmt.scopeCountSeq, List.flatMap_cons]
      exact h₁.trans (Stmt.analyzeSeq_passed (h₁.place h) hrest)
termination_by structural stmts => stmts

/-- A statement that is accepted adds its variables to the scope that it stands in. -/
theorem Stmt.analyze_passed : ∀ {s : Stmt} {ss ss' : Scopes} {scope : Nat} {inLoop : Bool},
    ss.Place scope → s.analyze d scope inLoop ss = .ok ss' →
      Scopes.Passed scope s.adds s.scopeCount ss ss'
  | .expr _ _, ss, ss', scope, inLoop, h, hok => by
      obtain rfl := (Stmt.analyze_expr_ok hok).1
      exact .refl h
  | .assign _ _ _, ss, ss', scope, inLoop, h, hok => by
      rw [Stmt.analyze] at hok
      rcases bind_eq_ok hok with ⟨_, _, hok⟩
      rcases bind_eq_ok hok with ⟨_, _, hok⟩
      cases hok
      exact .refl h
  | .decl _ vars none, ss, ss', scope, inLoop, h, hok => by
      rw [Stmt.analyze] at hok
      exact (Analysis.declareVariables_passed h hok).1
  | .decl _ vars (some _), ss, ss', scope, inLoop, h, hok => by
      rw [Stmt.analyze] at hok
      rcases bind_eq_ok hok with ⟨_, _, hok⟩
      exact (Analysis.declareVariables_passed h hok).1
  | .func _ _ params returns body, ss, ss', scope, inLoop, h, hok => by
      rw [Stmt.analyze] at hok
      rcases bind_eq_ok hok with ⟨ss₁, hvars, hbody⟩
      -- The function's scope and the scopes of its body are left behind again.
      have h₁ := (Analysis.declareVariables_passed (h.push true) hvars).1
      have h₂ := h₁.trans (Block.analyze_passed (h₁.place (h.push true)) hbody)
      rw [Stmt.scopeCount, Nat.add_comm, ← Nat.zero_add body.scopeCount]
      exact h₂.leave h
  | .cond _ _ body, ss, ss', scope, inLoop, h, hok => by
      rw [Stmt.analyze] at hok
      rcases bind_eq_ok hok with ⟨_, _, hbody⟩
      exact Block.analyze_passed h hbody
  | .switch _ _ cases, ss, ss', scope, inLoop, h, hok => by
      rw [Stmt.analyze] at hok
      rcases bind_eq_ok hok with ⟨_, _, hcases⟩
      exact Case.analyzeSeq_passed h hcases
  | .loop _ ⟨_, pre⟩ _ post body, ss, ss', scope, inLoop, h, hok => by
      rw [Stmt.analyze] at hok
      rcases bind_eq_ok hok with ⟨ss₁, hhoist, hok⟩
      rcases bind_eq_ok hok with ⟨ss₂, hpre, hok⟩
      rcases bind_eq_ok hok with ⟨_, _, hok⟩
      rcases bind_eq_ok hok with ⟨ss₃, hbody, hpost⟩
      -- The passage of a loop grows part by part before it is left as a whole.
      have h₁ := (Analysis.hoist_passed (h.push false) hhoist).1
      have h₂ := h₁.trans (Stmt.analyzeSeq_passed (h₁.place (h.push false)) hpre)
      have h₃ := h₂.trans (Block.analyze_passed (h₂.place (h.push false)) hbody)
      have h₄ := h₃.trans (Block.analyze_passed (h₃.place (h.push false)) hpost)
      -- The lines and the condition of the loop do not matter to the count.
      have hcount : (Stmt.loop 0 ⟨0, pre⟩ (.ident 0 "") post body).scopeCount
          = 0 + Stmt.scopeCountSeq pre + body.scopeCount + post.scopeCount + 1 := by
        rw [Stmt.scopeCount, Block.scopeCount]
        omega
      exact hcount ▸ h₄.leave h
  | .brk _, ss, ss', scope, inLoop, h, hok => by
      rw [Stmt.analyze] at hok
      split at hok <;> cases hok
      exact .refl h
  | .cont _, ss, ss', scope, inLoop, h, hok => by
      rw [Stmt.analyze] at hok
      split at hok <;> cases hok
      exact .refl h
  | .block b, ss, ss', scope, inLoop, h, hok => by
      rw [Stmt.analyze] at hok
      exact Block.analyze_passed h hok
  | .label _ _, ss, ss', scope, inLoop, h, hok => by
      rw [Stmt.analyze] at hok
      cases hok
      exact .refl h
  | .stackAssign _ _, ss, ss', scope, inLoop, h, hok => by
      rw [Stmt.analyze] at hok
      rcases bind_eq_ok hok with ⟨_, _, hok⟩
      cases hok
      exact .refl h
termination_by structural s => s

/-- Cases gain nothing, as each closes its own scope. -/
theorem Case.analyzeSeq_passed : ∀ {cases : List Case} {ss ss' : Scopes} {scope : Nat}
    {inLoop : Bool} {seen : List Word}, ss.Place scope →
    Case.analyzeSeq d scope inLoop seen cases ss = .ok ss' →
      Scopes.Passed scope [] (Case.scopeCountSeq cases) ss ss'
  | [], ss, ss', scope, inLoop, seen, h, hok => by
      rw [Case.analyzeSeq] at hok
      cases hok
      rw [Case.scopeCountSeq]
      exact .refl h
  | ⟨line, value, body⟩ :: rest, ss, ss', scope, inLoop, seen, h, hok => by
      rcases Case.analyzeSeq_cons_ok hok with ⟨ss₁, seen', hbody, hrest⟩
      have h₁ := Block.analyze_passed h hbody
      rw [Case.scopeCountSeq]
      exact h₁.trans (Case.analyzeSeq_passed (h₁.place h) hrest)
termination_by structural cases => cases

end

end Statements

end YulToolchain
