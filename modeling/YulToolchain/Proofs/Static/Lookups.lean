import YulToolchain.Proofs.Names.Fresh
import YulToolchain.Proofs.Rename.Occurrence

/-!
# Lookups of the Analysis

What the analysis finds under a name is what the finished scopes say.

Variables are declared while the code is passed, so the scopes that a name is looked up in are
not those that renaming and code generation ask later. In between the scopes around the place may
have got any number of names. To compare the two, the analysis is done once more with notes: a
survey writes down every lookup when it is made, and does nothing else differently
(`survey_eq`).

No lookup that succeeded is spoiled by a later declaration. A name that is declared must not be
taken in any scope around, so it does not come between a place and what was found from there. In
a scope further in the name was either declared before, and then that is what was found, or it is
declared in a scope that is not around the place. This is what `Scopes.Grows` says, for one
declaration, and for all of them by transitivity.

That the notes leave nothing out is told from the text: the places at which names were looked up
are the places of `Block.uses`, each as often as it occurs there. The names of builtins are not
looked up when they are called, and nothing else can have such a name, as it is reserved
(`Scopes.Unreserved`).

## Main definitions

* `Lookup`: A name that was looked up, with what was found.
* `Survey`: Parts of the analysis that note their lookups.
* `Expr.survey`, `Stmt.survey`, `Block.survey`, `survey`: The analysis with notes.
* `Surveys`: Notes are taken about a part of the analysis.
* `Noted`: What the notes about some code are worth.

## Theorems

* `Surveys.bind`: Sequencing.
* `Noted.append`: Notes about one piece of code after the other.
* `Block.survey_surveys`, `Stmt.survey_surveys`: Code that is accepted is noted.
* `survey_eq`: The notes do not change the outcome.
* `name_resolution_is_stable`: The lookups of the analysis, in the finished scopes.
-/

namespace YulToolchain

/-- A name that was looked up, with what was found. -/
structure Lookup where
  /-- The number of the scope that the search began in. -/
  scope : Nat
  /-- The name. -/
  name : String
  /-- What was found. -/
  found : Option (Declaration × Symbol)
deriving DecidableEq, Repr

/-- Where a name was looked up. -/
def Lookup.place (n : Lookup) : Nat × String := (n.scope, n.name)

/-- A part of the analysis that notes its lookups, in the order in which they are made. -/
abbrev Survey := StateT (List Lookup) (Except AnalysisError)

namespace Survey

/-- Does something that no name is looked up for. -/
def quietly {α : Type} (m : Except AnalysisError α) : Survey α := StateT.lift m

/-- Looks a name up. -/
def look (ss : Scopes) (scope : Nat) (name : String) : Survey (Option (Declaration × Symbol)) :=
  fun notes => .ok (ss.lookup scope name, notes ++ [⟨scope, name, ss.lookup scope name⟩])

end Survey

open Survey

mutual

/-- How many values an expression has. -/
def Expr.survey (d : Dialect) (ss : Scopes) (scope : Nat) : Expr → Survey Nat
  | .literal l => match l.value with
    | .ok _ => return 1
    | .error why => throw ⟨l.line, .badLiteral why⟩
  | .ident line name => do
    match ← look ss scope name with
    | some (_, .function _ _) => throw ⟨line, .uncalledFunction name⟩
    | some _ => return 1
    | none => throw ⟨line, .unknownName name⟩
  | .instr line op args => do
    if args.length ≠ op.args then throw ⟨line, .wrongArgumentCount op.args args.length⟩
    Expr.surveyArgs d ss scope args
    return op.returns
  | .call line name args => match d.builtin? name with
    | some b =>
      if b.literalArguments then do
        if args.length ≠ b.params then throw ⟨line, .wrongLiteralCount b.params⟩
        quietly (Expr.checkLiterals args)
        return b.returns
      else do
        if args.length ≠ b.params then throw ⟨line, .wrongArgumentCount b.params args.length⟩
        Expr.surveyArgs d ss scope args
        return b.returns
    | none => do
      match ← look ss scope name with
      | some (_, .function params returns) => do
        if args.length ≠ params.length then
          throw ⟨line, .wrongArgumentCount params.length args.length⟩
        Expr.surveyArgs d ss scope args
        return returns.length
      | some _ => throw ⟨line, .notAFunction name⟩
      | none => throw ⟨line, .unknownFunction name⟩

/-- Checks arguments, from the last to the first. -/
def Expr.surveyArgs (d : Dialect) (ss : Scopes) (scope : Nat) : List Expr → Survey Unit
  | [] => return ()
  | e :: rest => do
    Expr.surveyArgs d ss scope rest
    let count ← Expr.survey d ss scope e
    if count ≠ 1 then throw ⟨e.line, .wrongValueCount 1 count⟩

end

namespace Survey

/-- Checks that an expression has a number of values. -/
def expectValues (d : Dialect) (ss : Scopes) (scope : Nat) (e : Expr) (expected : Nat) :
    Survey Unit := do
  let count ← e.survey d ss scope
  if count ≠ expected then throw ⟨e.line, .wrongValueCount expected count⟩

/-- Checks that a name can be assigned to. -/
def expectVariable (ss : Scopes) (scope : Nat) (id : Identifier) : Survey Unit := do
  match ← look ss scope id.name with
  | some (_, .var _) => return ()
  | some _ => throw ⟨id.line, .notAVariable id.name⟩
  | none => throw ⟨id.line, .unknownVariable id.name⟩

end Survey

mutual

/-- Checks a block inside a scope, opening its own. -/
def Block.survey (d : Dialect) (parent : Option Nat) (inLoop : Bool) :
    Block → Scopes → Survey Scopes
  | ⟨_, stmts⟩, ss => do
    let (id, ss) := ss.push parent false
    let ss ← quietly (Analysis.hoist d id stmts ss)
    Stmt.surveySeq d id inLoop stmts ss

/-- Checks statements one after the other. -/
def Stmt.surveySeq (d : Dialect) (scope : Nat) (inLoop : Bool) :
    List Stmt → Scopes → Survey Scopes
  | [], ss => return ss
  | s :: rest, ss => do
    let ss ← Stmt.survey d scope inLoop s ss
    Stmt.surveySeq d scope inLoop rest ss

/-- Checks a statement. -/
def Stmt.survey (d : Dialect) (scope : Nat) (inLoop : Bool) : Stmt → Scopes → Survey Scopes
  | .expr line e, ss => do
    let count ← e.survey d ss scope
    if count ≠ 0 ∧ d.flavour ≠ .loose then throw ⟨line, .valuesLeft count⟩
    return ss
  | .assign _ targets value, ss => do
    expectValues d ss scope value targets.length
    targets.forM (expectVariable ss scope)
    return ss
  | .decl _ vars none, ss => quietly (Analysis.declareVariables d scope vars ss)
  | .decl _ vars (some value), ss => do
    expectValues d ss scope value vars.length
    quietly (Analysis.declareVariables d scope vars ss)
  | .func _ _ params returns body, ss => do
    let (id, ss) := ss.push (some scope) true
    let ss ← quietly (Analysis.declareVariables d id (params ++ returns) ss)
    Block.survey d (some id) false body ss
  | .cond _ test body, ss => do
    expectValues d ss scope test 1
    Block.survey d (some scope) inLoop body ss
  | .switch _ subject cases, ss => do
    expectValues d ss scope subject 1
    Case.surveySeq d scope inLoop [] cases ss
  | .loop _ ⟨_, pre⟩ test post body, ss => do
    let (id, ss) := ss.push (some scope) false
    let ss ← quietly (Analysis.hoist d id pre ss)
    let ss ← Stmt.surveySeq d id inLoop pre ss
    expectValues d ss id test 1
    let ss ← Block.survey d (some id) true body ss
    Block.survey d (some id) false post ss
  | .brk line, ss => if inLoop then return ss else throw ⟨line, .outsideLoop⟩
  | .cont line, ss => if inLoop then return ss else throw ⟨line, .outsideLoop⟩
  | .block b, ss => Block.survey d (some scope) inLoop b ss
  | .label _ _, ss => return ss
  | .stackAssign _ target, ss => do
    expectVariable ss scope target
    return ss

/-- Checks the cases of a switch, given the values of those before. -/
def Case.surveySeq (d : Dialect) (scope : Nat) (inLoop : Bool) (seen : List Word) :
    List Case → Scopes → Survey Scopes
  | [], ss => return ss
  | ⟨_, none, body⟩ :: rest, ss => do
    let ss ← Block.survey d (some scope) inLoop body ss
    Case.surveySeq d scope inLoop seen rest ss
  | ⟨line, some l, body⟩ :: rest, ss => do
    let w ← quietly (Analysis.caseValue line seen l)
    let ss ← Block.survey d (some scope) inLoop body ss
    Case.surveySeq d scope inLoop (seen ++ [w]) rest ss

end

/-- The scopes of a program, if it is well formed, with the lookups of the analysis. -/
def survey (d : Dialect) (code : Block) : Except AnalysisError (Scopes × List Lookup) :=
  code.survey d none false Scopes.empty []

/-- A survey has the outcome of a part of the analysis, and what it then notes has a
    property. -/
def Surveys {α : Type} (m' : Survey α) (m : Except AnalysisError α)
    (P : α → List Lookup → Prop) : Prop :=
  ∀ notes, (∀ why, m = .error why → m' notes = .error why) ∧
    ∀ a, m = .ok a → ∃ new, m' notes = .ok (a, notes ++ new) ∧ P a new

namespace Surveys

variable {α β : Type} {m' : Survey α} {m : Except AnalysisError α} {P Q : α → List Lookup → Prop}

/-- A step that looks nothing up has nothing to note. -/
theorem quietly (h : ∀ a, m = .ok a → P a []) : Surveys (Survey.quietly m) m P := by
  refine fun notes => ⟨fun why hm => ?_, fun a hm => ⟨[], ?_, h a hm⟩⟩
  · subst hm
    rfl
  · subst hm
    rw [List.append_nil]
    rfl

theorem done {a : α} (h : P a []) : Surveys (pure a) (.ok a) P :=
  quietly fun b hb => by cases hb; exact h

theorem failed (why : AnalysisError) :
    Surveys (throw why : Survey α) (.error why) P :=
  fun _ => ⟨fun _ hm => by cases hm; rfl, fun _ hm => by cases hm⟩

/-- What is known of notes and result may be weakened. -/
theorem mono (h : Surveys m' m P) (hPQ : ∀ a new, m = .ok a → P a new → Q a new) :
    Surveys m' m Q := by
  refine fun notes => ⟨(h notes).1, fun a hm => ?_⟩
  rcases (h notes).2 a hm with ⟨new, hm', hP⟩
  exact ⟨new, hm', hPQ a new hm hP⟩

/-- One part after the other. -/
theorem bind {f' : α → Survey β} {f : α → Except AnalysisError β} {R : β → List Lookup → Prop}
    (h : Surveys m' m P)
    (hf : ∀ a, m = .ok a → ∀ new, P a new →
      Surveys (f' a) (f a) fun b more => R b (new ++ more)) :
    Surveys (m' >>= f') (m >>= f) R := by
  intro notes
  have hrun : (m' >>= f') notes = (m' notes >>= fun p => f' p.1 p.2) := rfl
  rw [hrun]
  -- A failure of the first step is the failure of the whole.
  cases m with
  | error why =>
      rw [(h notes).1 why rfl]
      exact ⟨fun _ hm => by cases hm; rfl, fun _ hm => by cases hm⟩
  | ok a =>
      -- The first step adds its notes, the second one adds to them.
      rcases (h notes).2 a rfl with ⟨new, hm, hP⟩
      rw [hm]
      rcases hf a rfl new hP (notes ++ new) with ⟨herror, hok⟩
      refine ⟨herror, fun b hb => ?_⟩
      rcases hok b hb with ⟨more, hmore, hR⟩
      exact ⟨new ++ more, by rw [← List.append_assoc]; exact hmore, hR⟩

/-- Something that no name is looked up for comes first. -/
theorem after {f' : α → Survey β} {f : α → Except AnalysisError β} {R : β → List Lookup → Prop}
    (hf : ∀ a, m = .ok a → Surveys (f' a) (f a) R) :
    Surveys (Survey.quietly m >>= f') (m >>= f) R := by
  have hquiet : Surveys (Survey.quietly m) m fun _ new => new = [] := quietly fun _ _ => rfl
  exact bind hquiet fun a ha _ hnew => hnew ▸ hf a ha

/-- The outcome is another one in the end. -/
theorem before {g : α → β} {R : β → List Lookup → Prop} (h : Surveys m' m P)
    (hR : ∀ a new, m = .ok a → P a new → R (g a) new) :
    Surveys (do return g (← m')) (do return g (← m)) R :=
  bind h fun a ha new hnew => done (by rw [List.append_nil]; exact hR a new ha hnew)

/-- Something is checked first. -/
theorem guard {test : Prop} [Decidable test] {why : AnalysisError}
    (h : ¬ test → Surveys m' m P) :
    Surveys
      (do
        if test then throw why
        m')
      (do
        if test then throw why
        m) P := by
  by_cases ht : test
  · simp only [if_pos ht]
    exact .failed why
  · simp only [if_neg ht]
    exact h ht

/-- Something is checked last. -/
theorem check {test : Prop} [Decidable test] {why : AnalysisError} {P : Unit → List Lookup → Prop}
    (h : P () []) :
    Surveys (do if test then throw why) (do if test then throw why) P := by
  by_cases ht : test
  · simp only [if_pos ht]
    exact .failed why
  · simp only [if_neg ht]
    exact .done h

/-- A lookup is noted. -/
theorem look {ss : Scopes} {scope : Nat} {name : String}
    {f' : Option (Declaration × Symbol) → Survey β} {m : Except AnalysisError β}
    {R : β → List Lookup → Prop}
    (h : Surveys (f' (ss.lookup scope name)) m fun b more =>
      R b (⟨scope, name, ss.lookup scope name⟩ :: more)) :
    Surveys (Survey.look ss scope name >>= f') m R := by
  refine fun notes => ⟨fun why hm => ?_, fun b hm => ?_⟩
  · exact (h _).1 why hm
  · rcases (h (notes ++ [⟨scope, name, ss.lookup scope name⟩])).2 b hm with ⟨more, hm', hR⟩
    exact ⟨_ :: more, by rw [← List.append_cons] at hm'; exact hm', hR⟩

end Surveys

section Unreserved

/-- No scope declares a reserved name. -/
def Scopes.Unreserved (d : Dialect) (ss : Scopes) : Prop :=
  ∀ i s, ss.get? i = some s → ∀ p ∈ s.symbols, d.reserved p.1 = false

variable {d : Dialect} {ss ss' : Scopes} {scope : Nat}

/-- Each scope on a chain is the one its number stands for. -/
theorem Scopes.get?_of_mem_chainFrom : ∀ {fuel id : Nat} {p : Nat × Scope},
    p ∈ ss.chainFrom fuel id → ss.get? p.1 = some p.2
  | 0, _, _, h => absurd h List.not_mem_nil
  | fuel + 1, id, p, h => by
      rw [Scopes.chainFrom] at h
      cases hs : ss.get? id with
      | none =>
          simp only [hs] at h
          exact absurd h List.not_mem_nil
      -- The scope itself, or one on the chain of its parent.
      | some s =>
          simp only [hs] at h
          rcases List.mem_cons.mp h with rfl | h
          · exact hs
          · cases hp : s.parent with
            | none =>
                simp only [hp] at h
                exact absurd h List.not_mem_nil
            | some outer =>
                simp only [hp] at h
                exact Scopes.get?_of_mem_chainFrom h

/-- What is found does not have the name of a builtin. -/
theorem Scopes.Unreserved.builtin? (h : ss.Unreserved d) {x : String} {r : Declaration × Symbol}
    (hr : ss.lookup scope x = some r) : d.builtin? x = none := by
  have htaken : ss.taken scope x = true := Scopes.taken_of_lookup hr
  rcases List.any_eq_true.mp htaken with ⟨⟨i, s⟩, hmem, hfind⟩
  rcases Option.isSome_iff_exists.mp hfind with ⟨symbol, hsymbol⟩
  rcases List.lookup_eq_some_iff.mp hsymbol with ⟨before, behind, hsymbols, _⟩
  have hp : (x, symbol) ∈ s.symbols := by
    rw [hsymbols]
    exact List.mem_append_right _ List.mem_cons_self
  exact Dialect.builtin?_eq_none (h i s (Scopes.get?_of_mem_chainFrom hmem) _ hp)

/-- A new scope declares nothing, let alone a reserved name. -/
theorem Scopes.unreserved_push (h : ss.Unreserved d) (parent : Option Nat) (isFunction : Bool) :
    (ss.push parent isFunction).2.Unreserved d := by
  intro i s hs p hp
  have hlt := Scopes.lt_of_get? hs
  rw [Scopes.size_push] at hlt
  by_cases hi : i < ss.toArray.size
  · rw [Scopes.get?_push_old hi] at hs
    exact h i s hs p hp
  · obtain rfl : i = ss.toArray.size := by omega
    rw [Scopes.get?_push_new, Option.some.injEq] at hs
    subst hs
    exact absurd hp List.not_mem_nil

/-- Declarations that open no scope add names that can be declared. -/
theorem Scopes.Passed.unreserved {added : List (String × Symbol)}
    (hpassed : Scopes.Passed scope added 0 ss ss') (hplace : ss.Place scope)
    (hadded : ∀ p ∈ added, d.reserved p.1 = false) (h : ss.Unreserved d) : ss'.Unreserved d := by
  intro i s hs p hp
  have hlt := Scopes.lt_of_get? hs
  rw [hpassed.size, Nat.add_zero] at hlt
  by_cases hi : i = scope
  · subst hi
    rcases Scopes.get?_isSome hplace.opened with ⟨t, ht⟩
    rw [hpassed.here t ht, Option.some.injEq] at hs
    subst hs
    rcases List.mem_append.mp hp with hp | hp
    · exact hadded p (List.mem_reverse.mp hp)
    · exact h i t ht p hp
  · rw [hpassed.same i hlt hi] at hs
    exact h i s hs p hp

/-- Variables are declared under names that are not reserved only. -/
theorem Analysis.declareVariables_unreserved {vars : List TypedName} (hplace : ss.Place scope)
    (hok : Analysis.declareVariables d scope vars ss = .ok ss') (h : ss.Unreserved d) :
    ss'.Unreserved d := by
  rcases Analysis.declareVariables_passed hplace hok with ⟨hpassed, hnames⟩
  refine hpassed.unreserved hplace (fun p hp => ?_) h
  rcases List.mem_map.mp hp with ⟨x, hx, rfl⟩
  exact (hnames x hx).1

/-- Functions and labels are hoisted under names that are not reserved only. -/
theorem Analysis.hoist_unreserved {stmts : List Stmt} (hplace : ss.Place scope)
    (hok : Analysis.hoist d scope stmts ss = .ok ss') (h : ss.Unreserved d) :
    ss'.Unreserved d := by
  rcases Analysis.hoist_passed hplace hok with ⟨hpassed, hnames⟩
  exact hpassed.unreserved hplace (fun p hp => (hnames p hp).1) h

end Unreserved

/-- Scopes find what was found. -/
def Lookup.Lasts (ss : Scopes) (n : Lookup) : Prop :=
  ∃ r, n.found = some r ∧ ss.lookup n.scope n.name = some r

/-- The notes about some code, which uses names at some places: every lookup lasts, and there is
    one for each use of a name that is not that of a builtin. -/
structure Noted (d : Dialect) (ss : Scopes) (uses : List (Nat × String)) (new : List Lookup) :
    Prop where
  lasting : ∀ n ∈ new, n.Lasts ss
  places : (new.map Lookup.place).Perm (uses.filter fun u => (d.builtin? u.2).isNone)

namespace Noted

variable {d : Dialect} {ss ss' : Scopes} {uses more : List (Nat × String)} {new later : List Lookup}

theorem nil : Noted d ss [] [] :=
  ⟨fun _ hn => absurd hn List.not_mem_nil, .refl _⟩

theorem grows (h : Noted d ss uses new) (hgrows : Scopes.Grows ss ss') : Noted d ss' uses new := by
  refine ⟨fun n hn => ?_, h.places⟩
  rcases h.lasting n hn with ⟨r, hfound, hr⟩
  exact ⟨r, hfound, hgrows _ _ _ hr⟩

theorem perm (h : Noted d ss uses new) (huses : uses.Perm more) : Noted d ss more new :=
  ⟨h.lasting, h.places.trans (huses.filter _)⟩

/-- Notes about one piece of code after the other. -/
theorem append (h : Noted d ss uses new) (hgrows : Scopes.Grows ss ss')
    (hlater : Noted d ss' more later) : Noted d ss' (uses ++ more) (new ++ later) := by
  refine ⟨List.forall_mem_append.mpr ⟨(h.grows hgrows).lasting, hlater.lasting⟩, ?_⟩
  rw [List.map_append, List.filter_append]
  exact h.places.append hlater.places

/-- The use of a name that is found. -/
theorem found {scope : Nat} {x : String} {r : Declaration × Symbol}
    (hr : ss.lookup scope x = some r) (hunreserved : ss.Unreserved d) :
    Noted d ss [(scope, x)] [⟨scope, x, some r⟩] := by
  refine ⟨List.forall_mem_singleton.mpr ⟨r, rfl, hr⟩, ?_⟩
  rw [List.filter_singleton, hunreserved.builtin? hr]
  exact .refl _

/-- The name of a builtin is not looked up. -/
theorem builtin {scope : Nat} {x : String} {b : Builtin} (hb : d.builtin? x = some b)
    (h : Noted d ss uses new) : Noted d ss ((scope, x) :: uses) new := by
  refine ⟨h.lasting, ?_⟩
  rw [List.filter_cons_of_neg (by rw [hb]; exact Bool.noConfusion)]
  exact h.places

end Noted

section Surveyed

variable {d : Dialect}

mutual

/-- The lookups for an expression. -/
theorem Expr.survey_surveys {ss : Scopes} (scope : Nat) (h : ss.Unreserved d) : ∀ e : Expr,
    Surveys (e.survey d ss scope) (e.valueCount d ss scope) fun _ new =>
      Noted d ss (e.uses.map (scope, ·)) new
  | .literal l => by
      rw [Expr.survey, Expr.valueCount, Expr.uses]
      cases l.value with
      | ok w => exact .done .nil
      | error why => exact .failed _
  | .ident line x => by
      rw [Expr.survey, Expr.valueCount, Expr.uses]
      refine .look ?_
      -- Only a variable or a label leaves a note and a value.
      cases hx : ss.lookup scope x with
      | none => exact .failed _
      | some r =>
          have hnoted := Noted.found hx h
          rcases r with ⟨decl, symbol⟩
          cases symbol with
          | function params returns => exact .failed _
          | var type => exact .done hnoted
          | label => exact .done hnoted
  -- The arguments are counted first and noted first.
  | .instr line op args => by
      rw [Expr.survey, Expr.valueCount, Expr.uses]
      exact .guard fun _ => .before (Expr.surveyArgs_surveys scope h args) fun _ _ _ hnew => hnew
  | .call line x args => by
      rw [Expr.survey, Expr.valueCount, Expr.uses, List.map_cons]
      have hargs := Expr.surveyArgs_surveys scope h args
      cases hb : d.builtin? x with
      -- A builtin is noted without being looked up.
      | some b =>
          by_cases hliteral : b.literalArguments = true
          · simp only [if_pos hliteral]
            refine .guard fun _ => .after fun _ hok => .done ?_
            -- Literal arguments use no names.
            rw [Expr.usesAll_literals hok]
            exact .builtin hb .nil
          · simp only [if_neg hliteral]
            exact .guard fun _ => .before hargs fun _ _ _ hnew => hnew.builtin hb
      | none =>
          -- A function is looked up before its arguments are counted.
          refine .look ?_
          cases hx : ss.lookup scope x with
          | none => exact .failed _
          | some r =>
              have hnoted := Noted.found hx h
              rcases r with ⟨decl, symbol⟩
              cases symbol with
              | var type => exact .failed _
              | label => exact .failed _
              | function params returns =>
                  exact .guard fun _ => .before hargs fun _ _ _ hnew =>
                    hnoted.append (.refl ss) hnew

/-- The lookups for arguments. -/
theorem Expr.surveyArgs_surveys {ss : Scopes} (scope : Nat) (h : ss.Unreserved d) :
    ∀ es : List Expr,
    Surveys (Expr.surveyArgs d ss scope es) (Expr.checkArgs d ss scope es) fun _ new =>
      Noted d ss ((Expr.usesAll es).map (scope, ·)) new
  | [] => by
      rw [Expr.surveyArgs, Expr.checkArgs, Expr.usesAll]
      exact .done .nil
  | e :: rest => by
      rw [Expr.surveyArgs, Expr.checkArgs, Expr.usesAll, List.map_append]
      refine .bind (Expr.surveyArgs_surveys scope h rest) fun _ _ later hlater => ?_
      refine .bind (Expr.survey_surveys scope h e) fun n _ new hnew => ?_
      refine .check ?_
      rw [List.append_nil]
      exact (hlater.append (.refl ss) hnew).perm List.perm_append_comm

end

/-- Expecting values notes what the expression uses. -/
theorem Survey.expectValues_surveys {ss : Scopes} (scope : Nat) (h : ss.Unreserved d) (e : Expr)
    (n : Nat) : Surveys (Survey.expectValues d ss scope e n) (Analysis.expectValues d ss scope e n)
      fun _ new => Noted d ss (e.uses.map (scope, ·)) new := by
  refine .bind (Expr.survey_surveys scope h e) fun _ _ new hnew => .check ?_
  rwa [List.append_nil]

/-- Expecting a variable notes the one name. -/
theorem Survey.expectVariable_surveys {ss : Scopes} (scope : Nat) (h : ss.Unreserved d)
    (t : Identifier) :
    Surveys (Survey.expectVariable ss scope t) (Analysis.expectVariable ss scope t)
      fun _ new => Noted d ss [(scope, t.name)] new := by
  rw [Survey.expectVariable, Analysis.expectVariable]
  refine .look ?_
  cases hx : ss.lookup scope t.name with
  | none => exact .failed _
  | some r =>
      have hnoted := Noted.found hx h
      rcases r with ⟨decl, symbol⟩
      cases symbol with
      | var type => exact .done hnoted
      | label => exact .failed _
      | function params returns => exact .failed _

/-- Expecting variables notes their names in order. -/
theorem Survey.expectVariables_surveys {ss : Scopes} (scope : Nat) (h : ss.Unreserved d) :
    ∀ targets : List Identifier,
      Surveys (targets.forM (Survey.expectVariable ss scope))
        (targets.forM (Analysis.expectVariable ss scope))
        fun _ new => Noted d ss ((targets.map (·.name)).map (scope, ·)) new
  | [] => .done .nil
  | t :: rest =>
      .bind (Survey.expectVariable_surveys scope h t) fun _ _ _ hnew =>
        .mono (Survey.expectVariables_surveys scope h rest) fun _ _ _ hlater =>
          hnew.append (.refl ss) hlater

/-- What a survey of code tells: the scopes declare nothing that is reserved, and there are notes
    about the uses. -/
def Surveyed (d : Dialect) (uses : List (Nat × String)) (ss : Scopes) (new : List Lookup) : Prop :=
  ss.Unreserved d ∧ Noted d ss uses new

mutual

/-- The lookups for a block. -/
theorem Block.survey_surveys : ∀ (b : Block) {ss : Scopes} {scope : Nat} {inLoop : Bool},
    ss.Place scope → ss.Unreserved d →
      Surveys (b.survey d (some scope) inLoop ss) (b.analyze d (some scope) inLoop ss)
        (Surveyed d (b.uses ss.toArray.size))
  | ⟨_, stmts⟩, ss, scope, inLoop, h, hu => by
      rw [Block.survey, Block.analyze, Block.uses]
      refine .after fun ss₁ hhoist => ?_
      have h₁ := (Analysis.hoist_passed (h.push false) hhoist).1
      have hsize := h₁.size
      rw [Scopes.size_push, Nat.add_zero] at hsize
      rw [← hsize]
      exact Stmt.surveySeq_surveys stmts (h₁.place (h.push false))
        (Analysis.hoist_unreserved (h.push false) hhoist (Scopes.unreserved_push hu _ _))
termination_by structural b => b

/-- A sequence is noted as it is analyzed. -/
theorem Stmt.surveySeq_surveys : ∀ (stmts : List Stmt) {ss : Scopes} {scope : Nat}
    {inLoop : Bool}, ss.Place scope → ss.Unreserved d →
      Surveys (Stmt.surveySeq d scope inLoop stmts ss) (Stmt.analyzeSeq d scope inLoop stmts ss)
        (Surveyed d (Stmt.usesSeq scope ss.toArray.size stmts))
  | [], ss, scope, inLoop, h, hu => by
      rw [Stmt.surveySeq, Stmt.analyzeSeq, Stmt.usesSeq]
      exact .done ⟨hu, .nil⟩
  | s :: rest, ss, scope, inLoop, h, hu => by
      rw [Stmt.surveySeq, Stmt.analyzeSeq, Stmt.usesSeq]
      refine .bind (Stmt.survey_surveys s h hu) fun ss₁ hs new hnew => ?_
      have h₁ := Stmt.analyze_passed h hs
      rw [← h₁.size]
      refine (Stmt.surveySeq_surveys rest (h₁.place h) hnew.1).mono fun ss₂ later hrest hlater => ?_
      exact ⟨hlater.1, hnew.2.append (Stmt.analyzeSeq_passed (h₁.place h) hrest).grows hlater.2⟩
termination_by structural stmts => stmts

/-- The lookups for a statement. -/
theorem Stmt.survey_surveys : ∀ (s : Stmt) {ss : Scopes} {scope : Nat} {inLoop : Bool},
    ss.Place scope → ss.Unreserved d →
      Surveys (s.survey d scope inLoop ss) (s.analyze d scope inLoop ss)
        (Surveyed d (s.uses scope ss.toArray.size))
  | .expr _ e, ss, scope, inLoop, h, hu => by
      rw [Stmt.survey, Stmt.analyze, Stmt.uses]
      refine .bind (Expr.survey_surveys scope hu e) fun n _ new hnew => .guard fun _ => .done ?_
      rw [List.append_nil]
      exact ⟨hu, hnew⟩
  | .assign _ targets value, ss, scope, inLoop, h, hu => by
      rw [Stmt.survey, Stmt.analyze, Stmt.uses, List.map_append]
      refine .bind (Survey.expectValues_surveys scope hu value _) fun _ _ new hnew => ?_
      -- The value is noted before the targets, while the uses list the targets first.
      refine .before (Survey.expectVariables_surveys scope hu targets) fun _ later _ hlater => ?_
      exact ⟨hu, (hnew.append (.refl ss) hlater).perm List.perm_append_comm⟩
  | .decl _ vars none, ss, scope, inLoop, h, hu => by
      rw [Stmt.survey, Stmt.analyze, Stmt.uses]
      exact .quietly fun ss' hok => ⟨Analysis.declareVariables_unreserved h hok hu, .nil⟩
  | .decl _ vars (some value), ss, scope, inLoop, h, hu => by
      rw [Stmt.survey, Stmt.analyze, Stmt.uses]
      refine .bind (Survey.expectValues_surveys scope hu value _) fun _ _ new hnew => ?_
      refine .quietly fun ss' hok => ⟨Analysis.declareVariables_unreserved h hok hu, ?_⟩
      rw [List.append_nil]
      -- What was found for the value is found in the scopes with the new names, too.
      exact hnew.grows (Analysis.declareVariables_passed h hok).1.grows
  | .func _ _ params returns body, ss, scope, inLoop, h, hu => by
      rw [Stmt.survey, Stmt.analyze, Stmt.uses]
      -- Parameters and return variables are declared, not used.
      refine .after fun ss₁ hvars => ?_
      have h₁ := (Analysis.declareVariables_passed (h.push true) hvars).1
      have hsize := h₁.size
      rw [Scopes.size_push, Nat.add_zero] at hsize
      -- The scope of the body is the one behind the function's own.
      rw [← hsize]
      exact Block.survey_surveys body (h₁.place (h.push true))
        (Analysis.declareVariables_unreserved (h.push true) hvars (Scopes.unreserved_push hu _ _))
  | .cond _ test body, ss, scope, inLoop, h, hu => by
      rw [Stmt.survey, Stmt.analyze, Stmt.uses]
      refine .bind (Survey.expectValues_surveys scope hu test _) fun _ _ new hnew => ?_
      refine (Block.survey_surveys body h hu).mono fun ss₁ later hbody hlater => ?_
      exact ⟨hlater.1, hnew.append (Block.analyze_passed h hbody).grows hlater.2⟩
  | .switch _ subject cases, ss, scope, inLoop, h, hu => by
      rw [Stmt.survey, Stmt.analyze, Stmt.uses]
      refine .bind (Survey.expectValues_surveys scope hu subject _) fun _ _ new hnew => ?_
      refine (Case.surveySeq_surveys cases h hu).mono fun ss₁ later hcases hlater => ?_
      exact ⟨hlater.1, hnew.append (Case.analyzeSeq_passed h hcases).grows hlater.2⟩
  | .loop _ ⟨_, pre⟩ test post body, ss, scope, inLoop, h, hu => by
      rw [Stmt.survey, Stmt.analyze, Stmt.uses]
      refine .after fun ss₁ hhoist => ?_
      have h₁ := (Analysis.hoist_passed (h.push false) hhoist).1
      have hplace₁ := h₁.place (h.push false)
      have hu₁ := Analysis.hoist_unreserved (h.push false) hhoist (Scopes.unreserved_push hu _ _)
      have hsize₁ := h₁.size
      rw [Scopes.size_push, Nat.add_zero] at hsize₁
      -- The init block is noted from the scope of the loop on.
      refine .bind (Stmt.surveySeq_surveys pre hplace₁ hu₁) fun ss₂ hpre new₁ hnew₁ => ?_
      have h₂ := Stmt.analyzeSeq_passed hplace₁ hpre
      have hplace₂ := h₂.place hplace₁
      refine .bind (Survey.expectValues_surveys _ hnew₁.1 test 1) fun _ _ new₂ hnew₂ => ?_
      refine .bind (Block.survey_surveys body hplace₂ hnew₁.1) fun ss₃ hbody new₃ hnew₃ => ?_
      have h₃ := Block.analyze_passed hplace₂ hbody
      refine (Block.survey_surveys post (h₃.place hplace₂) hnew₃.1).mono
        fun ss₄ new₄ hpost hnew₄ => ⟨hnew₄.1, ?_⟩
      have h₄ := Block.analyze_passed (h₃.place hplace₂) hpost
      -- The notes of each part stay true in the scopes that the later parts leave.
      have hall := ((hnew₁.2.append (.refl ss₂) hnew₂).append h₃.grows hnew₃.2).append h₄.grows
        hnew₄.2
      -- The scopes that each part opened give the number the next one starts with.
      rw [h₃.size, h₂.size, hsize₁] at hall
      simpa only [List.append_assoc] using hall
  | .brk _, ss, scope, inLoop, h, hu => by
      rw [Stmt.survey, Stmt.analyze, Stmt.uses]
      cases inLoop with
      | true => exact .done ⟨hu, .nil⟩
      | false => exact .failed _
  | .cont _, ss, scope, inLoop, h, hu => by
      rw [Stmt.survey, Stmt.analyze, Stmt.uses]
      cases inLoop with
      | true => exact .done ⟨hu, .nil⟩
      | false => exact .failed _
  | .block b, ss, scope, inLoop, h, hu => by
      rw [Stmt.survey, Stmt.analyze, Stmt.uses]
      exact Block.survey_surveys b h hu
  | .label _ _, ss, scope, inLoop, h, hu => by
      rw [Stmt.survey, Stmt.analyze, Stmt.uses]
      exact .done ⟨hu, .nil⟩
  | .stackAssign _ target, ss, scope, inLoop, h, hu => by
      rw [Stmt.survey, Stmt.analyze, Stmt.uses]
      exact .before (Survey.expectVariable_surveys scope hu target) fun _ _ _ hnew => ⟨hu, hnew⟩
termination_by structural s => s

/-- The cases are noted behind each other, whatever their literals. -/
theorem Case.surveySeq_surveys : ∀ (cases : List Case) {ss : Scopes} {scope : Nat} {inLoop : Bool}
    {seen : List Word}, ss.Place scope → ss.Unreserved d →
      Surveys (Case.surveySeq d scope inLoop seen cases ss)
        (Case.analyzeSeq d scope inLoop seen cases ss)
        (Surveyed d (Case.usesSeq ss.toArray.size cases))
  | [], ss, scope, inLoop, seen, h, hu => by
      rw [Case.surveySeq, Case.analyzeSeq, Case.usesSeq]
      exact .done ⟨hu, .nil⟩
  | ⟨_, value, body⟩ :: rest, ss, scope, inLoop, seen, h, hu => by
      -- Both kinds of cases go on alike, with or without a new literal seen.
      have hrest : ∀ seen', Surveys
          (do Case.surveySeq d scope inLoop seen' rest (← body.survey d (some scope) inLoop ss))
          (do Case.analyzeSeq d scope inLoop seen' rest (← body.analyze d (some scope) inLoop ss))
          (Surveyed d (body.uses ss.toArray.size ++
            Case.usesSeq (ss.toArray.size + body.scopeCount) rest)) := by
        refine fun seen' => .bind (Block.survey_surveys body h hu) fun ss₁ hbody new hnew => ?_
        have h₁ := Block.analyze_passed h hbody
        rw [← h₁.size]
        refine (Case.surveySeq_surveys rest (h₁.place h) hnew.1).mono fun _ _ hok hlater => ?_
        exact ⟨hlater.1, hnew.2.append (Case.analyzeSeq_passed (h₁.place h) hok).grows hlater.2⟩
      cases value with
      | none =>
          rw [Case.surveySeq, Case.analyzeSeq, Case.usesSeq]
          exact hrest seen
      | some l =>
          rw [Case.surveySeq, Case.analyzeSeq, Case.usesSeq]
          exact .after fun w _ => hrest _
termination_by structural cases => cases

end

/-- The whole code is noted as it is analyzed. -/
theorem analyze_surveys (d : Dialect) (code : Block) :
    Surveys (code.survey d none false Scopes.empty) (analyze d code)
      (Surveyed d (code.uses 0)) := by
  rcases code with ⟨line, stmts⟩
  rw [analyze, Block.survey, Block.analyze, Block.uses]
  refine .after fun ss₁ hhoist => ?_
  have h₁ := (Analysis.hoist_passed Scopes.place_root hhoist).1
  have hempty : Scopes.Unreserved d Scopes.empty := fun i s hs => absurd hs (by rintro ⟨⟩)
  have hsize : ss₁.toArray.size = 0 + 1 := h₁.size
  rw [← hsize]
  exact Stmt.surveySeq_surveys stmts (h₁.place Scopes.place_root)
    (Analysis.hoist_unreserved Scopes.place_root hhoist (Scopes.unreserved_push hempty _ _))

/-- The notes do not change the outcome. -/
theorem survey_eq (d : Dialect) (code : Block) :
    (survey d code).map Prod.fst = analyze d code := by
  rcases analyze_surveys d code [] with ⟨herror, hok⟩
  rw [survey]
  cases h : analyze d code with
  | error why => rw [herror why h]; rfl
  | ok ss =>
      rcases hok ss h with ⟨new, hnew, _⟩
      rw [hnew]
      rfl

/-- Name resolution is stable. The names of accepted code are looked up once for each of their
    uses, in the scope of the block that the use stands in, and the finished scopes find there
    the declaration and the symbol that were found when the analysis was at the use. -/
theorem name_resolution_is_stable {d : Dialect} {code : Block} {ss : Scopes}
    (h : analyze d code = .ok ss) :
    ∃ notes, survey d code = .ok (ss, notes) ∧
      (notes.map Lookup.place).Perm ((code.uses 0).filter fun u => (d.builtin? u.2).isNone) ∧
      ∀ n ∈ notes, ∃ decl symbol, n.found = some (decl, symbol) ∧
        ss.lookup n.scope n.name = some (decl, symbol) := by
  rcases (analyze_surveys d code []).2 ss h with ⟨notes, hnotes, _, hnoted⟩
  refine ⟨notes, hnotes, hnoted.places, fun n hn => ?_⟩
  rcases hnoted.lasting n hn with ⟨⟨decl, symbol⟩, hfound, hr⟩
  exact ⟨decl, symbol, hfound, hr⟩

/-- Inner blocks that use and declare a name before the block around them declares it, and
    uses of a function, of its parameter, and of a variable of a loop. -/
theorem name_resolution_is_stable_before_redeclaration :
    ∃ code ss, parseBlock .strictAssembly
        ("\x7b \x7b let x := 1 pop(x) \x7d function f(a) -> b \x7b b := a \x7d let x := 2 " ++
          "for \x7b let i := x \x7d i \x7b i := f(i) \x7d \x7b pop(x) \x7d \x7d") = .ok code ∧
      analyze .strictAssembly code = .ok ss ∧
      ∃ notes, survey .strictAssembly code = .ok (ss, notes) ∧
        notes.map (fun n => (n.place, n.found.map (·.1.scope)))
          = [((1, "x"), some 1), ((3, "a"), some 2), ((3, "b"), some 2), ((4, "x"), some 0),
              ((4, "i"), some 4), ((5, "x"), some 0), ((6, "f"), some 0), ((6, "i"), some 4),
              ((6, "i"), some 4)] ∧
        ∀ n ∈ notes, ∃ decl symbol, n.found = some (decl, symbol) ∧
          ss.lookup n.scope n.name = some (decl, symbol) := by
  refine exists_of_accepted? (fun code => match survey .strictAssembly code with
    -- The run is evaluated once, and both sides are read off it.
    | .error _ => false
    | .ok (_, notes) => notes.map (fun n => (n.place, n.found.map (·.1.scope)))
      = [((1, "x"), some 1), ((3, "a"), some 2), ((3, "b"), some 2), ((4, "x"), some 0),
          ((4, "i"), some 4), ((5, "x"), some 0), ((6, "f"), some 0), ((6, "i"), some 4),
          ((6, "i"), some 4)]) (by decide +kernel)
    fun code ss hread haccept htest => ?_
  rcases name_resolution_is_stable haccept with ⟨notes, hnotes, _, hstable⟩
  rw [hnotes] at htest
  exact ⟨notes, hnotes, of_decide_eq_true htest, hstable⟩

end Surveyed

end YulToolchain
