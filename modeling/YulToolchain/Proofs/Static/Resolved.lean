import YulToolchain.Proofs.Static.Analyzed

/-!
# Resolved Code

What the finished scopes of a program say at each of its places.

Code generation and renaming come after the analysis. They walk over the code
again, number the scopes as the analysis did, and ask the finished scopes about
names. By then every scope holds all its names, also those that are declared
further down, so a look into the scopes alone does not tell what is in sight. The
sight of the place does, and `Resolved` puts both next to each other: code is
well formed where it stands, and its declarations are found in the scopes with the
right numbers.

Nothing is asked of the initialisations of loops here. The later stages treat a
`break` in one of them as any other.

## Main definitions

* `FunctionDef.symbol`: What the name of a function stands for.
* `Scopes.Inherits`: What is in sight around a scope is found the same inside.
* `Scopes.Opened`, `Scopes.Declares`: What a scope holds.
* `Block.Resolved`, `Stmt.Resolved`, `Stmt.ResolvedSeq`, `Case.ResolvedSeq`: Code
  is well formed at a place of some scopes.
* `Scopes.Completes`: Scopes are final as far as a piece of code opened them.
* `Block.Resolves`, `Stmt.Resolves`: Code is resolved if the analysis accepts it.
* `Scopes.Tells`: The scopes find at a place what is in sight.

## Theorems

* `Stmt.Resolves.func`, `Stmt.Resolves.loop` and so on: One for each kind of statement, from what
  is known of its parts.
* `Stmt.analyze_resolved`: What the analysis accepts is resolved.
* `analyze_resolved`: Code that is read and accepted is resolved.
* `Scopes.Tells.enter`, `Scopes.Tells.after`, `Scopes.Tells.enterFunction`: What is
  in sight is found along resolved code.
-/

namespace YulToolchain

/-- What the name of a function stands for. -/
def FunctionDef.symbol (f : FunctionDef) : Symbol :=
  .function (f.params.map (·.type)) (f.returns.map (·.type))

namespace Scopes

/-- What is in sight around a scope is found the same way inside it. -/
structure Inherits (ss : Scopes) (inner outer : Nat) (v : Sight) : Prop where
  vars : ∀ x ∈ v.visible, ss.lookup inner x = ss.lookup outer x
  functions : ∀ x f, v.functions.find? x = some f → ss.lookup inner x = ss.lookup outer x

/-- A scope declares some variables. -/
def Declares (ss : Scopes) (id : Nat) (vars : List TypedName) : Prop :=
  ∀ x ∈ vars, ss.lookup id x.name = some (⟨id, x.name⟩, .var x.type)

/-- A scope is that of a block with some statements. -/
structure Opened (ss : Scopes) (id : Nat) (stmts : List Stmt) : Prop where
  functions : ∀ f ∈ stmts.filterMap Stmt.function?,
    ss.lookup id f.name = some (⟨id, f.name⟩, f.symbol)
  count : ss.variableCount id = (Stmt.declaredSeq stmts).length

end Scopes

mutual

/-- A block is well formed inside a scope, and opens the scope with a number. -/
def Block.Resolved (d : Dialect) (ss : Scopes) (v : Sight) (scope id : Nat) (inLoop : Bool) :
    Block → Prop
  | ⟨_, stmts⟩ =>
    v.Free d ((stmts.filterMap Stmt.function?).map (·.name)) ∧ ss.Inherits id scope v ∧
      ss.Opened id stmts ∧ Stmt.ResolvedSeq d ss (v.enter stmts) id (id + 1) inLoop stmts

/-- Statements are well formed one after the other. -/
def Stmt.ResolvedSeq (d : Dialect) (ss : Scopes) (v : Sight) (scope next : Nat)
    (inLoop : Bool) : List Stmt → Prop
  | [] => True
  | s :: rest => s.Resolved d ss v scope next inLoop ∧
      Stmt.ResolvedSeq d ss (v.after s) scope (next + s.scopeCount) inLoop rest

/-- A statement is well formed in a scope, and opens scopes from a number on. -/
def Stmt.Resolved (d : Dialect) (ss : Scopes) (v : Sight) (scope next : Nat)
    (inLoop : Bool) : Stmt → Prop
  | .expr _ e => e.Yields d v 0
  | .assign _ targets value =>
    value.Yields d v targets.length ∧ ∀ t ∈ targets, t.name ∈ v.visible
  | .decl _ vars value =>
    (∀ e, value = some e → e.Yields d v vars.length) ∧ v.Free d (vars.map (·.name)) ∧
      ss.Declares scope vars
  | .func line name params returns body =>
    v.Free d ((params ++ returns).map (·.name)) ∧
      ss.lookup scope name
        = some (⟨scope, name⟩, (⟨line, name, params, returns, body⟩ : FunctionDef).symbol) ∧
      (∀ x f, v.functions.find? x = some f → ss.lookup next x = ss.lookup scope x) ∧
      ss.Declares next (params ++ returns) ∧
      body.Resolved d ss (v.enterFunction ((params ++ returns).map (·.name))) next (next + 1)
        false
  | .cond _ test body => test.Yields d v 1 ∧ body.Resolved d ss v scope next inLoop
  | .switch _ subject cases =>
    subject.Yields d v 1 ∧ Case.ResolvedSeq d ss v scope next inLoop [] cases
  | .loop _ ⟨_, pre⟩ test post body =>
    v.Free d ((pre.filterMap Stmt.function?).map (·.name)) ∧ ss.Inherits next scope v ∧
      ss.Opened next pre ∧ Stmt.ResolvedSeq d ss (v.enter pre) next (next + 1) inLoop pre ∧
      test.Yields d ((v.enter pre).afterSeq pre) 1 ∧
      body.Resolved d ss ((v.enter pre).afterSeq pre) next
        (next + 1 + Stmt.scopeCountSeq pre) true ∧
      post.Resolved d ss ((v.enter pre).afterSeq pre) next
        (next + 1 + Stmt.scopeCountSeq pre + body.scopeCount) false
  | .brk _ => inLoop = true
  | .cont _ => inLoop = true
  | .block b => b.Resolved d ss v scope next inLoop
  | .label _ _ => False
  | .stackAssign _ _ => False

/-- The cases of a switch are well formed, given the values of those before. The
    default comes last. -/
def Case.ResolvedSeq (d : Dialect) (ss : Scopes) (v : Sight) (scope next : Nat)
    (inLoop : Bool) (seen : List Word) : List Case → Prop
  | [] => True
  | ⟨_, none, body⟩ :: rest => body.Resolved d ss v scope next inLoop ∧ rest = []
  | ⟨_, some l, body⟩ :: rest =>
    ∃ w, l.value = .ok w ∧ w ∉ seen ∧ body.Resolved d ss v scope next inLoop ∧
      Case.ResolvedSeq d ss v scope (next + body.scopeCount) inLoop (seen ++ [w]) rest

end

/-- A check that passed tells its condition and its result. -/
theorem Checks.of_ok {α : Type} {r : Except AnalysisError α} {c : Prop} {P : α → Prop} {a : α}
    (h : Checks r c P) (hr : r = .ok a) : c ∧ P a := by
  subst hr
  exact h

/-- A sequence that succeeds is a first part that succeeds and a second part that
    does. -/
theorem bind_eq_ok {ε α β : Type} {r : Except ε α} {f : α → Except ε β} {b : β}
    (h : r >>= f = .ok b) : ∃ a, r = .ok a ∧ f a = .ok b := by
  rcases r with e | a
  · exact absurd h (by rintro ⟨⟩)
  · exact ⟨a, rfl, h⟩

namespace Scopes

/-- The scopes opened between two stages of the analysis are final, and so is what
    was found at the later one. -/
structure Completes (ss ss' final : Scopes) : Prop where
  grows : Grows ss' final
  opened : ∀ i, ss.toArray.size ≤ i → i < ss'.toArray.size → final.get? i = ss'.get? i

/-- A scope that has been opened and closed has its final number of variables. -/
theorem Completes.variableCount {ss ss' final : Scopes} (h : Completes ss ss' final) {i : Nat}
    (hi : ss.toArray.size ≤ i) (hi' : i < ss'.toArray.size) :
    final.variableCount i = ss'.variableCount i := by
  simp only [Scopes.variableCount, h.opened i hi hi']

/-- The later part of what was opened. -/
theorem Completes.later {a b c final : Scopes} (h : Completes a c final)
    (hab : a.toArray.size ≤ b.toArray.size) : Completes b c final :=
  ⟨h.grows, fun i hi hi' => h.opened i (Nat.le_trans hab hi) hi'⟩

/-- The earlier part of what was opened. The scope that code stands in may have
    changed since, but it was open before. -/
theorem Completes.earlier {a b c final : Scopes} {scope n : Nat} {v : Sight}
    (h : Completes a c final) (hscope : scope < a.toArray.size)
    (hbc : Analyzed scope v n b c) : Completes a b final := by
  refine ⟨hbc.grows.trans h.grows, fun i hi hi' => ?_⟩
  have hsize := hbc.size
  rw [h.opened i hi (by omega), hbc.kept.same i hi' (by omega)]

section Registered

variable {ss ss' : Scopes} {scope : Nat} {name : String} {symbol : Symbol}

/-- A name that was registered is found right there. -/
theorem lookup_register {s : Scope} (ho : ss.Ordered) (hs : ss.get? scope = some s)
    (h : ss.register? scope name symbol = some ss') :
    ss'.lookup scope name = some (⟨scope, name⟩, symbol) := by
  have hs' : ss'.get? scope = some { s with symbols := (name, symbol) :: s.symbols } := by
    rw [get?_register hs h, if_pos rfl]
  rw [lookup_eq (ordered_register ho hs h) hs']
  simp only [Scope.find?, List.lookup_cons, beq_self_eq_true]

theorem variableCount_register {s : Scope} (hs : ss.get? scope = some s)
    (h : ss.register? scope name symbol = some ss') :
    ss'.variableCount scope = ss.variableCount scope + if symbol.isVariable then 1 else 0 := by
  simp only [variableCount, get?_register hs h, hs, if_true, List.countP_cons]

end Registered

theorem variableCount_push {ss : Scopes} {parent : Option Nat} {isFunction : Bool} :
    (ss.push parent isFunction).2.variableCount ss.toArray.size = 0 := by
  simp only [variableCount, get?_push_new, List.countP_nil]

end Scopes

section Declarations

variable {d : Dialect} {scope : Nat}

/-- Declared variables are found in the scope that declares them. -/
theorem Analysis.declareVariables_resolved : ∀ (vars : List TypedName) {ss ss' : Scopes}
    {v : Sight}, Shows ss scope v → Analysis.declareVariables d scope vars ss = .ok ss' →
      ss'.Declares scope vars ∧
        ss'.variableCount scope = ss.variableCount scope + vars.length
  | [], ss, ss', v, _, h => by
      simp only [Analysis.declareVariables, List.foldlM_nil] at h
      cases h
      exact ⟨fun x hx => absurd hx (List.not_mem_nil), rfl⟩
  | x :: rest, ss, ss', v, hs, h => by
      simp only [Analysis.declareVariables, List.foldlM_cons] at h
      rcases bind_eq_ok h with ⟨ss₁, h₁, hrest⟩
      rcases (Analysis.declare_checks hs).of_ok h₁ with ⟨hfree, hreg⟩
      have hs₁ := hs.register_var (hfree.2 _ List.mem_cons_self).2.2 hreg
      rcases Scopes.get?_isSome hs.opened with ⟨s, hget⟩
      have ih := Analysis.declareVariables_resolved rest hs₁ hrest
      have hgrows := ((Analysis.declareVariables_checks rest hs₁).of_ok hrest).2.grows
      -- The first one is found still, as the others do not hide it.
      refine ⟨?_, ?_⟩
      · intro y hy
        rcases List.mem_cons.mp hy with rfl | hy
        · exact hgrows _ _ _ (Scopes.lookup_register hs.ordered hget hreg)
        · exact ih.1 y hy
      · rw [ih.2, Scopes.variableCount_register hget hreg]
        simp only [Symbol.isVariable, if_true, List.length_cons]
        omega

/-- The functions of a block are found in its scope. -/
theorem Analysis.hoist_resolved : ∀ (stmts : List Stmt) {ss ss' : Scopes} {v : Sight}
    {fs : List FunctionDef} {outer : FunctionScopes}, Stmt.ReadableSeq stmts →
    Shows ss scope v → v.functions = fs :: outer →
      Analysis.hoist d scope stmts ss = .ok ss' →
      (∀ f ∈ stmts.filterMap Stmt.function?,
        ss'.lookup scope f.name = some (⟨scope, f.name⟩, f.symbol)) ∧
      ss'.variableCount scope = ss.variableCount scope
  | [], ss, ss', v, fs, outer, _, _, _, h => by
      simp only [Analysis.hoist, List.foldlM_nil] at h
      cases h
      exact ⟨fun f hf => absurd hf (List.not_mem_nil), rfl⟩
  | s :: rest, ss, ss', v, fs, outer, hr, hs, hfs, h => by
      rw [Stmt.ReadableSeq] at hr
      cases s with
      | func line name params returns body =>
          simp only [Analysis.hoist, List.foldlM_cons, Analysis.hoistOne] at h
          rcases bind_eq_ok h with ⟨ss₁, h₁, hrest⟩
          rcases (Analysis.declare_checks hs).of_ok h₁ with ⟨hfree, hreg⟩
          have hs₁ := hs.register_function (f := ⟨line, name, params, returns, body⟩) hfs
            (hfree.2 _ List.mem_cons_self).2.2 hreg
          rcases Scopes.get?_isSome hs.opened with ⟨s, hget⟩
          have ih := Analysis.hoist_resolved rest hr.2 hs₁ rfl hrest
          have hgrows := ((Analysis.hoist_checks rest hr.2 hs₁ rfl).of_ok hrest).2.grows
          simp only [List.filterMap_cons, Stmt.function?]
          refine ⟨?_, ?_⟩
          · intro f hf
            -- The others are declared behind it and hide nothing.
            rcases List.mem_cons.mp hf with rfl | hf
            · exact hgrows _ _ _ (Scopes.lookup_register hs.ordered hget hreg)
            · exact ih.1 f hf
          · rw [ih.2, Scopes.variableCount_register hget hreg]
            rfl
      | label line name => exact False.elim (by simpa only [Stmt.Readable] using hr.1)
      | _ => exact Analysis.hoist_resolved rest hr.2 hs hfs h

end Declarations

section Inside

variable {ss ss' final : Scopes} {scope : Nat} {v : Sight}

/-- A name found around a new block is found inside it. -/
theorem Shows.inherits (h : Shows ss scope v)
    (hin : Scopes.Grows (ss.push (some scope) false).2 ss') (hfinal : Scopes.Grows ss' final) :
    final.Inherits ss.toArray.size scope v := by
  have hgrows := ((Scopes.grows_push h.ordered fun p hp =>
    Option.some.inj hp ▸ h.opened).trans hin).trans hfinal
  have hboth : ∀ x r, ss.lookup scope x = some r →
      final.lookup ss.toArray.size x = final.lookup scope x := by
    intro x r hr
    rw [hgrows _ _ _ hr]
    exact hfinal _ _ _ (hin _ _ _ ((h.lookup_push x).trans hr))
  refine ⟨fun x hx => ?_, fun x f hf => ?_⟩
  · rcases h.seen x hx with ⟨decl, type, hl⟩
    exact hboth x _ hl
  · rcases h.called x f hf with ⟨decl, hl⟩
    exact hboth x _ hl

/-- A function found around the head of a function is found inside it. -/
theorem Shows.inherits_functions (h : Shows ss scope v)
    (hin : Scopes.Grows (ss.push (some scope) true).2 ss') (hfinal : Scopes.Grows ss' final)
    (x : String) (f : FunctionDef) (hf : v.functions.find? x = some f) :
    final.lookup ss.toArray.size x = final.lookup scope x := by
  have hgrows := ((Scopes.grows_push h.ordered fun p hp =>
    Option.some.inj hp ▸ h.opened).trans hin).trans hfinal
  rcases h.called x f hf with ⟨decl, hl⟩
  rw [hgrows _ _ _ hl]
  refine hfinal _ _ _ (hin _ _ _ ((h.lookup_push x).trans ?_))
  exact Scopes.lookupIn_true.mpr ⟨hl, rfl⟩

/-- Code inside a new scope does not touch the variables around it. -/
theorem Analyzed.variableCount_outer {isFunction : Bool} {v' : Sight} {n : Nat}
    (h : Shows ss scope v)
    (hin : Analyzed ss.toArray.size v' n (ss.push (some scope) isFunction).2 ss') :
    ss'.variableCount scope = ss.variableCount scope := by
  have hopened := h.opened
  have hsame : ss'.get? scope = ss.get? scope := by
    rw [hin.kept.same scope (by rw [Scopes.size_push]; omega) (by omega),
      Scopes.get?_push_old hopened]
  simp only [Scopes.variableCount, hsame]

end Inside

section Statements

variable {d : Dialect} {inLoop : Bool}

/-- The scopes of a block: its functions are hoisted into a new scope, then its statements are
    checked one by one. -/
theorem Shows.block_resolved {stmts : List Stmt} {ss ss₁ ss' final : Scopes} {scope n : Nat}
    {v v' : Sight} (h : Shows ss scope v) (hr : Stmt.ReadableSeq stmts)
    (hhoist : Analysis.hoist d ss.toArray.size stmts (ss.push (some scope) false).2 = .ok ss₁)
    (hrest : Analyzed ss.toArray.size v' n ss₁ ss')
    (hcount : ss'.variableCount ss.toArray.size
      = ss₁.variableCount ss.toArray.size + (Stmt.declaredSeq stmts).length)
    (hfinal : Scopes.Completes ss ss' final) :
    v.Free d ((stmts.filterMap Stmt.function?).map (·.name)) ∧
      final.Inherits ss.toArray.size scope v ∧ final.Opened ss.toArray.size stmts := by
  rcases (Analysis.hoist_checks stmts hr h.push_block rfl).of_ok hhoist with ⟨hfree, h₁⟩
  have hopened := Analysis.hoist_resolved stmts hr h.push_block rfl hhoist
  have hsize := h₁.size
  have hsize' := hrest.size
  rw [Scopes.size_push] at hsize
  -- What was found while the block was read is found in the final scopes.
  refine ⟨hfree, h.inherits (h₁.grows.trans hrest.grows) hfinal.grows, ?_, ?_⟩
  · exact fun f hf => hfinal.grows _ _ _ (hrest.grows _ _ _ (hopened.1 f hf))
  · rw [hfinal.variableCount (Nat.le_refl _) (by omega), hcount, hopened.2,
      Scopes.variableCount_push, Nat.zero_add]

-- The cases below open what it is to be resolved by its equations.
attribute [local simp] Block.Resolved Stmt.ResolvedSeq Stmt.Resolved Case.ResolvedSeq

/-- If the analysis accepts a block then it opens the scopes of the block, leaves the scope around
    it with as many variables, and the block is resolved in whatever becomes of the scopes. -/
def Block.Resolves (d : Dialect) (inLoop : Bool) (b : Block) : Prop :=
  ∀ ⦃ss ss' : Scopes⦄ ⦃scope : Nat⦄ ⦃v : Sight⦄,
    b.Readable → Shows ss scope v →
    b.analyze d (some scope) inLoop ss = .ok ss' →
    Analyzed scope v b.scopeCount ss ss' ∧
    ss'.variableCount scope = ss.variableCount scope ∧
    ∀ final, Scopes.Completes ss ss' final →
      b.Resolved d final v scope ss.toArray.size inLoop

/-- If the analysis accepts statements then they are resolved, and their variables are declared. -/
def Stmt.ResolvesSeq (d : Dialect) (inLoop : Bool) (stmts : List Stmt) : Prop :=
  ∀ ⦃ss ss' : Scopes⦄ ⦃scope : Nat⦄ ⦃v : Sight⦄,
    Stmt.ReadableSeq stmts →
    Shows ss scope v → (∀ f ∈ stmts.filterMap Stmt.function?,
      ss.lookup scope f.name = some (⟨scope, f.name⟩, f.symbol)) →
    Stmt.analyzeSeq d scope inLoop stmts ss = .ok ss' →
    Analyzed scope (v.afterSeq stmts) (Stmt.scopeCountSeq stmts) ss ss' ∧
    ss'.variableCount scope = ss.variableCount scope + (Stmt.declaredSeq stmts).length ∧
    ∀ final, Scopes.Completes ss ss' final →
      Stmt.ResolvedSeq d final v scope ss.toArray.size inLoop stmts

/-- If the analysis accepts a statement then it is resolved, and its variables are declared. -/
def Stmt.Resolves (d : Dialect) (inLoop : Bool) (s : Stmt) : Prop :=
  ∀ ⦃ss ss' : Scopes⦄ ⦃scope : Nat⦄ ⦃v : Sight⦄,
    s.Readable → Shows ss scope v →
    (∀ f, s.function? = some f →
      ss.lookup scope f.name = some (⟨scope, f.name⟩, f.symbol)) →
    s.analyze d scope inLoop ss = .ok ss' →
    Analyzed scope (v.after s) s.scopeCount ss ss' ∧
    ss'.variableCount scope = ss.variableCount scope + s.declaresVars.length ∧
    ∀ final, Scopes.Completes ss ss' final →
      s.Resolved d final v scope ss.toArray.size inLoop

/-- If the analysis accepts the cases of a switch then they are resolved. -/
def Case.ResolvesSeq (d : Dialect) (inLoop : Bool) (cases : List Case) : Prop :=
  ∀ (seen : List Word) ⦃ss ss' : Scopes⦄ ⦃scope : Nat⦄ ⦃v : Sight⦄,
    Case.ReadableSeq cases → Shows ss scope v →
    Case.analyzeSeq d scope inLoop seen cases ss = .ok ss' →
    Analyzed scope v (Case.scopeCountSeq cases) ss ss' ∧
    ss'.variableCount scope = ss.variableCount scope ∧
    ∀ final, Scopes.Completes ss ss' final →
      Case.ResolvedSeq d final v scope ss.toArray.size inLoop seen cases

/-- A block resolves as its statements do, in a scope of its own. -/
theorem Block.Resolves.of_stmts {line : Nat} {stmts : List Stmt}
    (hinner : Stmt.ResolvesSeq d inLoop stmts) : Block.Resolves d inLoop ⟨line, stmts⟩ := by
  intro ss ss' scope v hr h hok
  rw [Block.Readable] at hr
  rw [Block.analyze] at hok
  rcases bind_eq_ok hok with ⟨ss₁, hhoist, hseq⟩
  have h₁ := ((Analysis.hoist_checks stmts hr h.push_block rfl).of_ok hhoist).2
  have hfun := (Analysis.hoist_resolved stmts hr h.push_block rfl hhoist).1
  -- The hoisted functions are there before the first statement.
  rcases hinner hr h₁.shows hfun hseq with ⟨h₂, hcount, hres⟩
  have hin := h₁.trans h₂
  refine ⟨?_, Analyzed.variableCount_outer h hin, fun final hfinal => ?_⟩
  · have := Analyzed.leave h hin
    rwa [Nat.zero_add, Nat.add_comm, ← Block.scopeCount] at this
  -- The final scopes still show the block's scope as it was left.
  · rcases h.block_resolved hr hhoist h₂ hcount hfinal with ⟨hfree, hinherits, hopened⟩
    have hsize := h₁.size
    rw [Scopes.size_push, Nat.add_zero] at hsize
    have := hres final (hfinal.later (by omega))
    rw [hsize] at this
    rw [Block.Resolved]
    exact ⟨hfree, hinherits, hopened, this⟩

namespace Stmt.ResolvesSeq

/-- Nothing is left to resolve. -/
theorem nil : Stmt.ResolvesSeq d inLoop [] := by
  intro ss ss' scope v _ h _ hok
  rw [Stmt.analyzeSeq] at hok
  cases hok
  exact ⟨.refl h, rfl, fun _ _ => by simp⟩

/-- A sequence resolves statement by statement. -/
theorem cons {s : Stmt} {rest : List Stmt} (hone : s.Resolves d inLoop)
    (hmore : Stmt.ResolvesSeq d inLoop rest) : Stmt.ResolvesSeq d inLoop (s :: rest) := by
  intro ss ss' scope v hr h hfun hok
  rw [Stmt.ReadableSeq] at hr
  rw [Stmt.analyzeSeq] at hok
  rcases bind_eq_ok hok with ⟨ss₁, hs, hrest⟩
  -- The hoisted functions of the sequence are those of this statement and of the rest.
  have hhere : ∀ f, s.function? = some f →
      ss.lookup scope f.name = some (⟨scope, f.name⟩, f.symbol) :=
    fun f hf => hfun f (List.mem_filterMap.mpr ⟨s, List.mem_cons_self, hf⟩)
  rcases hone hr.1 h hhere hs with ⟨h₁, hcount₁, hres₁⟩
  have hlater : ∀ f ∈ rest.filterMap Stmt.function?,
      ss₁.lookup scope f.name = some (⟨scope, f.name⟩, f.symbol) := by
    intro f hf
    rcases List.mem_filterMap.mp hf with ⟨s', hs', hsf⟩
    exact h₁.grows _ _ _
      (hfun f (List.mem_filterMap.mpr ⟨s', List.mem_cons_of_mem _ hs', hsf⟩))
  rcases hmore hr.2 h₁.shows hlater hrest with ⟨h₂, hcount₂, hres₂⟩
  -- The variables of the scope add up along the sequence.
  refine ⟨h₁.trans h₂, ?_, fun final hfinal => ?_⟩
  · rw [hcount₂, hcount₁, Stmt.declaredSeq_cons, List.length_append, Nat.add_assoc]
  · have hsize := h₁.size
    have := hres₂ final (hfinal.later (by omega))
    rw [hsize] at this
    rw [Stmt.ResolvedSeq]
    exact ⟨hres₁ final (hfinal.earlier h.opened h₂), this⟩

end Stmt.ResolvesSeq

namespace Stmt.Resolves

/-- An expression resolves to what the analysis found. -/
theorem expr (hd : d.flavour ≠ .loose) {line : Nat} {e : Expr} :
    (Stmt.expr line e).Resolves d inLoop := by
  intro ss ss' scope v hr h _ hok
  rw [Stmt.Readable] at hr
  rw [Stmt.analyze] at hok
  rcases bind_eq_ok hok with ⟨n, hn, hok⟩
  have hyields := ((Expr.valueCount_checks h e hr).of_ok hn).2
  by_cases hz : n = 0
  · subst hz
    rw [if_neg fun hc => hc.1 rfl] at hok
    cases hok
    refine ⟨.refl h, rfl, fun _ _ => ?_⟩
    rw [Stmt.Resolved]
    exact hyields
  · rw [if_pos ⟨hz, hd⟩] at hok
    exact absurd hok (by rintro ⟨⟩)

/-- An assignment resolves to visible variables. -/
theorem assign {line : Nat} {targets : List Identifier} {value : Expr} :
    (Stmt.assign line targets value).Resolves d inLoop := by
  intro ss ss' scope v hr h _ hok
  rw [Stmt.Readable] at hr
  rw [Stmt.analyze] at hok
  rcases bind_eq_ok hok with ⟨_, hvalue, hok⟩
  rcases bind_eq_ok hok with ⟨_, htargets, hok⟩
  cases hok
  refine ⟨.refl h, rfl, fun _ _ => ?_⟩
  rw [Stmt.Resolved]
  exact ⟨((Analysis.expectValues_checks h hr).of_ok hvalue).1,
    ((Analysis.expectVariables_checks h targets).of_ok htargets).1⟩

/-- A declaration without a value resolves to new variables. -/
theorem decl_none {line : Nat} {vars : List TypedName} :
    (Stmt.decl line vars none).Resolves d inLoop := by
  intro ss ss' scope v _ h _ hok
  rw [Stmt.analyze] at hok
  rcases (Analysis.declareVariables_checks vars h).of_ok hok with ⟨hfree, h₁⟩
  rcases Analysis.declareVariables_resolved vars h hok with ⟨hdecl, hcount⟩
  refine ⟨h₁, ?_, fun final hfinal => ?_⟩
  · rw [hcount, Stmt.declaresVars, List.length_map]
  · rw [Stmt.Resolved]
    exact ⟨fun e he => absurd he (by rintro ⟨⟩), hfree,
      fun x hx => hfinal.grows _ _ _ (hdecl x hx)⟩

/-- A declaration with a value resolves to new variables, the value in the sight before them. -/
theorem decl_some {line : Nat} {vars : List TypedName} {value : Expr} :
    (Stmt.decl line vars (some value)).Resolves d inLoop := by
  intro ss ss' scope v hr h _ hok
  rw [Stmt.Readable] at hr
  rw [Stmt.analyze] at hok
  rcases bind_eq_ok hok with ⟨_, hvalue, hok⟩
  have hyields := ((Analysis.expectValues_checks h (hr value rfl)).of_ok hvalue).1
  rcases (Analysis.declareVariables_checks vars h).of_ok hok with ⟨hfree, h₁⟩
  rcases Analysis.declareVariables_resolved vars h hok with ⟨hdecl, hcount⟩
  refine ⟨h₁, ?_, fun final hfinal => ?_⟩
  · rw [hcount, Stmt.declaresVars, List.length_map]
  · rw [Stmt.Resolved]
    exact ⟨fun e he => Option.some.inj he ▸ hyields, hfree,
      fun x hx => hfinal.grows _ _ _ (hdecl x hx)⟩

/-- The parameters are declared in a scope of the function, from which no variables around it are
    seen, and the body is analyzed in it. -/
theorem func {line : Nat} {name : String} {params returns : List TypedName} {body : Block}
    (hinner : body.Resolves d false) :
    (Stmt.func line name params returns body).Resolves d inLoop := by
  intro ss ss' scope v hr h hfun hok
  rw [Stmt.Readable] at hr
  rw [Stmt.analyze] at hok
  rcases bind_eq_ok hok with ⟨ss₁, hdecl, hbody⟩
  -- The parameters and return variables are declared in the function's own scope.
  rcases (Analysis.declareVariables_checks _ h.push_function).of_ok hdecl with ⟨hfree, h₁⟩
  have hdeclares := (Analysis.declareVariables_resolved _ h.push_function hdecl).1
  rcases hinner hr h₁.shows hbody with ⟨h₂, _, hres⟩
  have hin := h₁.trans h₂
  have hsize := h₁.size
  rw [Scopes.size_push, Nat.add_zero] at hsize
  have hleave := Analyzed.leave h hin
  refine ⟨?_, Analyzed.variableCount_outer h hin, fun final hfinal => ?_⟩
  · rwa [Nat.zero_add, Nat.add_comm, ← Stmt.scopeCount] at hleave
  -- Hiding variables does not free their names.
  · have hfree' : v.Free d ((params ++ returns).map (·.name)) := by
      refine (Sight.free_congr fun y => ?_).mp hfree
      simp only [Sight.taken, Sight.functionNames, Sight.visible, List.flatten_cons,
        List.flatten_nil, List.append_nil, List.mem_append]
      tauto
    have hres := hres final (hfinal.later (by omega))
    rw [hsize] at hres
    rw [Stmt.Resolved]
    -- The function itself was hoisted before its body was read.
    refine ⟨hfree', ?_, ?_, ?_, hres⟩
    · exact hfinal.grows _ _ _ (hleave.grows _ _ _ (hfun _ rfl))
    · exact h.inherits_functions hin.grows hfinal.grows
    · exact fun x hx => hfinal.grows _ _ _ (h₂.grows _ _ _ (hdeclares x hx))

/-- A condition resolves with its body. -/
theorem cond {line : Nat} {test : Expr} {body : Block} (hinner : body.Resolves d inLoop) :
    (Stmt.cond line test body).Resolves d inLoop := by
  intro ss ss' scope v hr h _ hok
  rw [Stmt.Readable] at hr
  rw [Stmt.analyze] at hok
  rcases bind_eq_ok hok with ⟨_, htest, hok⟩
  rcases hinner hr.2 h hok with ⟨h₁, hcount, hres⟩
  refine ⟨h₁, hcount, fun final hfinal => ?_⟩
  rw [Stmt.Resolved]
  exact ⟨((Analysis.expectValues_checks h hr.1).of_ok htest).1, hres final hfinal⟩

/-- A switch resolves with its cases. -/
theorem switch {line : Nat} {subject : Expr} {cases : List Case}
    (hinner : Case.ResolvesSeq d inLoop cases) :
    (Stmt.switch line subject cases).Resolves d inLoop := by
  intro ss ss' scope v hr h _ hok
  rw [Stmt.Readable] at hr
  rw [Stmt.analyze] at hok
  rcases bind_eq_ok hok with ⟨_, hsubject, hok⟩
  rcases hinner [] hr.2 h hok with ⟨h₁, hcount, hres⟩
  refine ⟨h₁, hcount, fun final hfinal => ?_⟩
  rw [Stmt.Resolved]
  exact ⟨((Analysis.expectValues_checks h hr.1).of_ok hsubject).1, hres final hfinal⟩

/-- The scope of a loop is opened by its initialisation and closed behind the rest of it. -/
theorem loop {line preLine : Nat} {pre : List Stmt} {test : Expr} {post body : Block}
    (hinit : Stmt.ResolvesSeq d inLoop pre) (hround : body.Resolves d true)
    (hthen : post.Resolves d false) :
    (Stmt.loop line ⟨preLine, pre⟩ test post body).Resolves d inLoop := by
  intro ss ss' scope v hr h _ hok
  rw [Stmt.Readable] at hr
  rw [Stmt.analyze] at hok
  rcases bind_eq_ok hok with ⟨ss₁, hhoist, hok⟩
  rcases bind_eq_ok hok with ⟨ss₂, hpre, hok⟩
  rcases bind_eq_ok hok with ⟨_, htest, hok⟩
  rcases bind_eq_ok hok with ⟨ss₃, hbody, hpost⟩
  have h₁ := ((Analysis.hoist_checks pre hr.1 h.push_block rfl).of_ok hhoist).2
  have hfun := (Analysis.hoist_resolved pre hr.1 h.push_block rfl hhoist).1
  -- Each part resolves from where the one before it ends.
  rcases hinit hr.1 h₁.shows hfun hpre with ⟨h₂, hcount₂, hres₂⟩
  rcases hround hr.2.2.2 h₂.shows hbody with ⟨h₃, hcount₃, hres₃⟩
  rcases hthen hr.2.2.1 h₃.shows hpost with ⟨h₄, hcount₄, hres₄⟩
  have hrest := h₂.trans (h₃.trans h₄)
  have hin := h₁.trans hrest
  have hsize₁ := h₁.size
  rw [Scopes.size_push, Nat.add_zero] at hsize₁
  have hsize₂ := h₂.size
  have hsize₃ := h₃.size
  refine ⟨?_, Analyzed.variableCount_outer h hin, fun final hfinal => ?_⟩
  · have hcount : 0 + (Stmt.scopeCountSeq pre + (body.scopeCount + post.scopeCount)) + 1
        = (Stmt.loop line ⟨preLine, pre⟩ test post body).scopeCount := by
      rw [Stmt.scopeCount, Block.scopeCount]
      omega
    exact hcount ▸ Analyzed.leave h hin
  -- Body and post declare no variables in the loop's scope.
  · have hopen : ss.toArray.size < ss₁.toArray.size := by omega
    have hcount : ss'.variableCount ss.toArray.size
        = ss₁.variableCount ss.toArray.size + (Stmt.declaredSeq pre).length := by
      rw [hcount₄, hcount₃, hcount₂]
    rcases h.block_resolved hr.1 hhoist hrest hcount hfinal with ⟨hfree, hinh, hopened⟩
    have hfinal₁ := hfinal.later (Nat.le_of_lt hopen)
    -- Each part is final once the parts behind it are through.
    have hfinal₂ := hfinal₁.earlier hopen (h₃.trans h₄)
    have hfinal₃ := (hfinal₁.later (b := ss₂) (by omega)).earlier (by omega) h₄
    have r₂ := hres₂ final hfinal₂
    have r₃ := hres₃ final hfinal₃
    have r₄ := hres₄ final (hfinal₁.later (by omega))
    rw [hsize₁] at r₂
    rw [hsize₂, hsize₁] at r₃
    rw [hsize₃, hsize₂, hsize₁] at r₄
    rw [Stmt.Resolved]
    exact ⟨hfree, hinh, hopened, r₂,
      ((Analysis.expectValues_checks h₂.shows hr.2.1).of_ok htest).1, r₃, r₄⟩

/-- A break resolves to nothing. -/
theorem brk {line : Nat} : (Stmt.brk line).Resolves d inLoop := by
  intro ss ss' scope v _ h _ hok
  rw [Stmt.analyze] at hok
  cases inLoop with
  | false => exact absurd hok (by rintro ⟨⟩)
  | true =>
      cases hok
      exact ⟨.refl h, rfl, fun _ _ => by simp⟩

/-- A continue resolves to nothing. -/
theorem cont {line : Nat} : (Stmt.cont line).Resolves d inLoop := by
  intro ss ss' scope v _ h _ hok
  rw [Stmt.analyze] at hok
  cases inLoop with
  | false => exact absurd hok (by rintro ⟨⟩)
  | true =>
      cases hok
      exact ⟨.refl h, rfl, fun _ _ => by simp⟩

/-- A block resolves in a scope of its own. -/
theorem block {b : Block} (hinner : b.Resolves d inLoop) : (Stmt.block b).Resolves d inLoop := by
  intro ss ss' scope v hr h _ hok
  rw [Stmt.Readable] at hr
  rw [Stmt.analyze] at hok
  rcases hinner hr h hok with ⟨h₁, hcount, hres⟩
  refine ⟨h₁, hcount, fun final hfinal => ?_⟩
  rw [Stmt.Resolved]
  exact hres final hfinal

/-- What is in loose assembly only is never read. -/
theorem label {line : Nat} {name : String} : (Stmt.label line name).Resolves d inLoop := by
  intro _ _ _ _ hr _ _ _
  rw [Stmt.Readable] at hr
  exact False.elim hr

/-- Stack assignments are not readable here. -/
theorem stackAssign {line : Nat} {target : Identifier} :
    (Stmt.stackAssign line target).Resolves d inLoop := by
  intro _ _ _ _ hr _ _ _
  rw [Stmt.Readable] at hr
  exact False.elim hr

end Stmt.Resolves

namespace Case.ResolvesSeq

/-- No cases are left to resolve. -/
theorem nil : Case.ResolvesSeq d inLoop [] := by
  intro seen ss ss' scope v _ h hok
  rw [Case.analyzeSeq] at hok
  cases hok
  exact ⟨.refl h, rfl, fun _ _ => by simp⟩

/-- The default case is the last one. -/
theorem default {line : Nat} {body : Block} {rest : List Case} (hinner : body.Resolves d inLoop) :
    Case.ResolvesSeq d inLoop (⟨line, none, body⟩ :: rest) := by
  intro seen ss ss' scope v hr h hok
  rw [Case.ReadableSeq] at hr
  obtain rfl := hr.2
  rw [Case.analyzeSeq] at hok
  rcases bind_eq_ok hok with ⟨ss₁, hbody, hrest⟩
  rw [Case.analyzeSeq] at hrest
  cases hrest
  rcases hinner hr.1 h hbody with ⟨h₁, hcount, hres⟩
  refine ⟨h₁, hcount, fun final hfinal => ?_⟩
  rw [Case.ResolvedSeq]
  exact ⟨hres final hfinal, rfl⟩

/-- A case with a literal, before the others. -/
theorem value {line : Nat} {l : Literal} {body : Block} {rest : List Case}
    (hinner : body.Resolves d inLoop) (hmore : Case.ResolvesSeq d inLoop rest) :
    Case.ResolvesSeq d inLoop (⟨line, some l, body⟩ :: rest) := by
  intro seen ss ss' scope v hr h hok
  rw [Case.ReadableSeq] at hr
  rw [Case.analyzeSeq] at hok
  rcases bind_eq_ok hok with ⟨w, hw, hok⟩
  rcases bind_eq_ok hok with ⟨ss₁, hbody, hrest⟩
  rcases (Analysis.caseValue_checks.of_ok hw).2 with ⟨hvalue, hseen⟩
  rcases hinner hr.1 h hbody with ⟨h₁, hcount₁, hres₁⟩
  rcases hmore (seen ++ [w]) hr.2 h₁.shows hrest with ⟨h₂, hcount₂, hres₂⟩
  refine ⟨h₁.trans h₂, hcount₂.trans hcount₁, fun final hfinal => ?_⟩
  have hsize := h₁.size
  have := hres₂ final (hfinal.later (by omega))
  rw [hsize] at this
  rw [Case.ResolvedSeq]
  exact ⟨w, hvalue, hseen, hres₁ final (hfinal.earlier h.opened h₂), this⟩

end Case.ResolvesSeq

mutual

/-- A block that the analysis accepts is resolved. -/
theorem Block.analyze_resolved (hd : d.flavour ≠ .loose) (inLoop : Bool) : ∀ b : Block,
    b.Resolves d inLoop
  | ⟨_, stmts⟩ => .of_stmts (Stmt.analyzeSeq_resolved hd inLoop stmts)

theorem Stmt.analyzeSeq_resolved (hd : d.flavour ≠ .loose) (inLoop : Bool) : ∀ stmts : List Stmt,
    Stmt.ResolvesSeq d inLoop stmts
  | [] => .nil
  | s :: rest => .cons (Stmt.analyze_resolved hd inLoop s) (Stmt.analyzeSeq_resolved hd inLoop rest)

/-- Every statement resolves. -/
theorem Stmt.analyze_resolved (hd : d.flavour ≠ .loose) (inLoop : Bool) : ∀ s : Stmt,
    s.Resolves d inLoop
  | .expr _ _ => .expr hd
  | .assign _ _ _ => .assign
  | .decl _ _ none => .decl_none
  | .decl _ _ (some _) => .decl_some
  | .func _ _ _ _ body => .func (Block.analyze_resolved hd false body)
  | .cond _ _ body => .cond (Block.analyze_resolved hd inLoop body)
  | .switch _ _ cases => .switch (Case.analyzeSeq_resolved hd inLoop cases)
  | .loop _ ⟨_, pre⟩ _ post body => .loop (Stmt.analyzeSeq_resolved hd inLoop pre)
      (Block.analyze_resolved hd true body) (Block.analyze_resolved hd false post)
  | .brk _ => .brk
  | .cont _ => .cont
  | .block b => .block (Block.analyze_resolved hd inLoop b)
  | .label _ _ => .label
  | .stackAssign _ _ => .stackAssign

/-- All cases resolve. -/
theorem Case.analyzeSeq_resolved (hd : d.flavour ≠ .loose) (inLoop : Bool) : ∀ cases : List Case,
    Case.ResolvesSeq d inLoop cases
  | [] => .nil
  | ⟨_, none, body⟩ :: _ => .default (Block.analyze_resolved hd inLoop body)
  | ⟨_, some _, body⟩ :: rest => .value (Block.analyze_resolved hd inLoop body)
      (Case.analyzeSeq_resolved hd inLoop rest)

end

end Statements

namespace Scopes

/-- The scopes find at a place what is in sight there, in scopes below a number. -/
structure Tells (ss : Scopes) (scope next : Nat) (v : Sight) : Prop where
  seen : ∀ x ∈ v.visible, ∃ n type, ss.lookup scope x = some (⟨n, x⟩, .var type) ∧ n < next
  called : ∀ x f, v.functions.find? x = some f →
    ∃ n, ss.lookup scope x = some (⟨n, x⟩, f.symbol) ∧ n < next

namespace Tells

variable {ss : Scopes} {scope next : Nat} {v : Sight}

/-- Numbers of later scopes may be left out. -/
theorem later {next' : Nat} (h : ss.Tells scope next v) (hle : next ≤ next') :
    ss.Tells scope next' v := by
  refine ⟨fun x hx => ?_, fun x f hf => ?_⟩
  · rcases h.seen x hx with ⟨n, type, hl, hn⟩
    exact ⟨n, type, hl, Nat.lt_of_lt_of_le hn hle⟩
  · rcases h.called x f hf with ⟨n, hl, hn⟩
    exact ⟨n, hl, Nat.lt_of_lt_of_le hn hle⟩

theorem empty (ss : Scopes) (scope next : Nat) : ss.Tells scope next .empty :=
  ⟨fun _ hx => absurd hx (List.not_mem_nil), fun _ _ hf => absurd hf (by rintro ⟨⟩)⟩

/-- Of the functions of a block the last one with a name is found, and all of them are found in the
    scope of the block. -/
theorem enter {stmts : List Stmt} (h : ss.Tells scope next v) (hin : ss.Inherits next scope v)
    (ho : ss.Opened next stmts) : ss.Tells next (next + 1) (v.enter stmts) := by
  refine ⟨fun x hx => ?_, fun x f hf => ?_⟩
  · rcases h.seen x hx with ⟨n, type, hl, hn⟩
    exact ⟨n, type, (hin.vars x hx).trans hl, Nat.lt_succ_of_lt hn⟩
  · rw [Sight.functions_enter, FunctionScopes.find?] at hf
    rcases hhere : findFunction? x (stmts.filterMap Stmt.function?) with _ | g
    · rw [hhere] at hf
      rcases h.called x f hf with ⟨n, hl, hn⟩
      exact ⟨n, (hin.functions x f hf).trans hl, Nat.lt_succ_of_lt hn⟩
    · rw [hhere, Option.some.injEq] at hf
      subst hf
      have hname : g.name = x := by simpa only [beq_iff_eq] using List.find?_some hhere
      have hmem := List.mem_reverse.mp (List.mem_of_find?_eq_some hhere)
      subst hname
      exact ⟨next, ho.functions g hmem, Nat.lt_succ_self _⟩

/-- Declared variables are told by the scope they are in. -/
theorem declare {vars : List TypedName} (h : ss.Tells scope next v)
    (hdecl : ss.Declares scope vars) (hscope : scope < next) :
    ss.Tells scope next (v.declare (vars.map (·.name))) := by
  refine ⟨fun x hx => ?_, fun x f hf => ?_⟩
  · rcases Sight.mem_visible_declare hx with hx | hx
    · exact h.seen x hx
    · rcases List.mem_map.mp hx with ⟨y, hy, rfl⟩
      exact ⟨scope, y.type, hdecl y hy, hscope⟩
  · rw [Sight.functions_declare] at hf
    exact h.called x f hf

/-- Entering a function hides the variables, while the functions stay as they are. -/
theorem enterFunction {vars : List TypedName} (h : ss.Tells scope next v)
    (hin : ∀ x f, v.functions.find? x = some f → ss.lookup next x = ss.lookup scope x)
    (hdecl : ss.Declares next vars) :
    ss.Tells next (next + 1) (v.enterFunction (vars.map (·.name))) := by
  refine ⟨fun x hx => ?_, fun x f hf => ?_⟩
  · simp only [Sight.enterFunction, Sight.visible, List.flatten_cons, List.flatten_nil,
      List.append_nil] at hx
    rcases List.mem_map.mp hx with ⟨y, hy, rfl⟩
    exact ⟨next, y.type, hdecl y hy, Nat.lt_succ_self _⟩
  · rcases h.called x f hf with ⟨n, hl, hn⟩
    exact ⟨n, (hin x f hf).trans hl, Nat.lt_succ_of_lt hn⟩

/-- Behind a statement the sight and the scopes have gained the same variables. -/
theorem after {d : Dialect} {inLoop : Bool} {s : Stmt} (h : ss.Tells scope next v)
    (hs : s.Resolved d ss v scope next inLoop) (hscope : scope < next) :
    ss.Tells scope (next + s.scopeCount) (v.after s) := by
  refine Tells.later ?_ (Nat.le_add_right _ _)
  cases s with
  | decl line vars value =>
      rw [Stmt.Resolved] at hs
      exact h.declare hs.2.2 hscope
  | _ => exact h

/-- Behind a sequence the sight and the scopes have gained the same variables. -/
theorem afterSeq {d : Dialect} {inLoop : Bool} : ∀ {stmts : List Stmt} {next : Nat} {v : Sight},
    ss.Tells scope next v → Stmt.ResolvedSeq d ss v scope next inLoop stmts → scope < next →
      ss.Tells scope (next + Stmt.scopeCountSeq stmts) (v.afterSeq stmts)
  | [], _, _, h, _, _ => h
  | s :: rest, next, v, h, hs, hscope => by
      rw [Stmt.ResolvedSeq] at hs
      rw [Stmt.scopeCountSeq, ← Nat.add_assoc]
      exact afterSeq (h.after hs.1 hscope) hs.2 (by omega)

end Tells

end Scopes

/-- A program that is read and accepted is resolved in the scopes of its
    analysis. -/
theorem analyze_resolved {d : Dialect} (hd : d.flavour ≠ .loose) {code : Block}
    (hr : code.Readable) {ss : Scopes} (h : analyze d code = .ok ss) :
    code.Resolved d ss .empty 0 0 false := by
  rcases code with ⟨line, stmts⟩
  rw [Block.Readable] at hr
  rw [analyze, Block.analyze] at h
  rcases bind_eq_ok h with ⟨ss₁, hhoist, hseq⟩
  rcases (Analysis.hoist_checks stmts hr Shows.push_root rfl).of_ok hhoist with ⟨hfree, h₁⟩
  have hopened := Analysis.hoist_resolved stmts hr Shows.push_root rfl hhoist
  rcases Stmt.analyzeSeq_resolved hd false stmts hr h₁.shows hopened.1 hseq with
    ⟨h₂, hcount, hres⟩
  have hsize := h₁.size
  rw [Scopes.size_push, Nat.add_zero] at hsize
  -- Nothing comes behind the code, so its scopes are final already.
  have hres := hres ss ⟨.refl ss, fun _ _ _ => rfl⟩
  rw [hsize] at hres
  rw [Block.Resolved]
  refine ⟨hfree, ⟨?_, ?_⟩, ⟨?_, ?_⟩, hres⟩
  -- There is nothing in sight around the code.
  · exact fun x hx => absurd hx (List.not_mem_nil)
  · exact fun x f hf => absurd hf (by rintro ⟨⟩)
  · exact fun f hf => h₂.grows _ _ _ (hopened.1 f hf)
  · have hnone : (Scopes.empty.push none false).2.variableCount 0 = 0 := rfl
    rw [hcount, hopened.2, hnone, Nat.zero_add]

end YulToolchain
