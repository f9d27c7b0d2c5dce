import YulToolchain.Proofs.Flow.Slate
import YulToolchain.Proofs.Pass.Steps

/-!
# Walks without Bounds

The walk along the flow recurses on bounds, because what replaces a statement need not be a
part of it. Here is the same walk without them. What it consists of is told one step deep
(`Task.course`): a walk over statements turns to the pass and then either walks the
replacement and all that follows, or walks the statement and then what follows. Running it
is a relation, so a walk that goes on replacing forever has no end, but it still comes to
states on its way, and those are what can be said something about for any pass at all.

The walk keeps what is known as a `Slate`, with the variables that each value reads. No
change that a walk makes to its state brings the slate out of order, and a pass does not
change it.

A pass is `Light` if what it puts in place of a statement is lighter than that, and if before the
arguments of an expression are walked it does not make the expression larger, unless it puts
the known value of a variable in place of the variable. Then the bounds of the walk are never
used up: the weight of the code that is left shrinks with every statement, whether it was
walked or replaced, and the bound for an expression has room for every known value once,
which is enough since known values form no cycle. With other passes the bounds may cut the
walk.

## Main definitions

* `Companion`: A pass that may do anything in its place.
* `WalkState`, `Change`: What a walk keeps, and what it does to it.
* `Task`, `Course`, `Task.course`: What a walk consists of.
* `Course.Does`, `Course.Comes`: A walk comes to an end, or to a state on its way.
* `Policy.Light`: The bounds are never used up.

## Theorems

* `Course.Comes.inOrder`: What is known is in order at each state of a walk.
* `Course.Does.unique`: A walk that is not cut has at most one end.
* `Flow.visitBlock_tracks`, `Flow.run_tracks`: The walk with bounds is one without, and if the
  pass is light it is not cut.
* `known_values_form_no_cycle`: Known values form no cycle, following them comes to an end,
  and so does the simplification of control flow.
-/

namespace YulToolchain

/-- How a pass takes part in a walk: at an expression and behind its arguments it may put
    anything in its place, and a statement it may replace by some statements or change. It may
    also give up, and the walk with it. -/
structure Companion (σ : Type) where
  /-- Replaces an expression before its arguments are walked. -/
  enter : Known → Expr → σ → Option (Expr × σ)
  /-- Replaces an expression after its arguments were walked. -/
  leave : Known → Expr → σ → Option (Expr × σ)
  /-- Replaces a statement by others, which are walked next, or changes it. -/
  replace : Known → Stmt → σ → Option ((List Stmt ⊕ Stmt) × σ)

/-- A policy does not give up, and it does not change a statement that it does not replace. -/
def Policy.companion {σ : Type} (p : Policy σ) : Companion σ where
  enter k e own := some (p.enter k e own)
  leave k e own := some (p.leave k e own)
  replace k s own :=
    let (stmts, own) := p.replace k s own
    some (stmts.elim (.inr s) .inl, own)

/-- The state of a walk. -/
structure WalkState (σ : Type) where
  /-- What is known. -/
  slate : Slate
  /-- The variables declared in each open scope, the innermost first. -/
  scopes : List (List String)
  /-- The state of the pass. -/
  own : σ

/-- What a walk itself does to its state. -/
inductive Change where
  /-- Opens a scope. -/
  | opens
  /-- Closes the innermost scope and strikes out its variables. -/
  | closes
  /-- Declares variables in the innermost scope. -/
  | declares (names : List String)
  /-- Strikes out some variables. -/
  | clears (names : List String)
  /-- Strikes out all variables. -/
  | clearsAll
  /-- Takes note of an assignment. -/
  | assigns (names : List String) (value : Option Expr)

/-- The state after a change. -/
def Change.apply {σ : Type} (d : Dialect) (st : WalkState σ) : Change → WalkState σ
  | opens => { st with scopes := [] :: st.scopes }
  | closes => match st.scopes with
    | [] => st
    | names :: outer => { st with scopes := outer, slate := st.slate.clear names }
  | declares names => match st.scopes with
    | [] => st
    | innermost :: outer => { st with scopes := (innermost ++ names) :: outer }
  | clears names => { st with slate := st.slate.clear names }
  | clearsAll => { st with slate := .empty }
  | assigns names value => { st with slate := st.slate.assign d names value }

/-- What can be walked. -/
inductive Task : Type → Type where
  | expr (e : Expr) : Task Expr
  | args (es : List Expr) : Task (List Expr)
  | block (b : Block) : Task Block
  | stmts (ss : List Stmt) : Task (List Stmt)
  | stmt (s : Stmt) : Task Stmt
  | cases (cs : List Case) : Task (List Case)

/-- What is walked in a task. -/
def Task.input : {α : Type} → Task α → α
  | _, .expr e => e
  | _, .args es => es
  | _, .block b => b
  | _, .stmts ss => ss
  | _, .stmt s => s
  | _, .cases cs => cs

/-- What a walk consists of. -/
inductive Course (σ : Type) : Type → Type 1 where
  /-- Turns to the pass. -/
  | turn {α : Type} (f : Known → σ → Option (α × σ)) : Course σ α
  /-- Changes the state. -/
  | change (c : Change) : Course σ Unit
  /-- Does something with nothing known and some variables in sight, and goes back to what was
      known. -/
  | apart {α : Type} (names : List String) (m : Course σ α) : Course σ α
  /-- Walks something. -/
  | task {α : Type} (t : Task α) : Course σ α
  /-- Does one thing after another. -/
  | bind {α β : Type} (m : Course σ α) (f : α → Course σ β) : Course σ β

namespace Course

instance (σ : Type) : Monad (Course σ) where
  pure a := .turn fun _ own => some (a, own)
  bind := .bind

variable {σ : Type}

/-- Walks the arguments of an expression. -/
def arguments (d : Dialect) : Expr → Course σ Expr
  | .instr line op es => Expr.instr line op <$> task (.args es)
  | .call line name es =>
    if Flow.takesLiterals d name then pure (.call line name es)
    else Expr.call line name <$> task (.args es)
  | e => pure e

/-- Strikes out all variables if the evaluation of an expression may change memory or storage. -/
def evaluated (d : Dialect) (e : Expr) : Course σ Unit :=
  if e.invalidatesState d then change .clearsAll else pure ()

/-- Walks the expression of a statement. -/
def root (d : Dialect) (e : Expr) : Course σ Expr := do
  let e ← task (.expr e)
  evaluated d e
  return e

end Course

open Course

/-- How something is walked, one step into it. -/
def Task.course {σ : Type} (d : Dialect) (p : Companion σ) : {α : Type} → Task α → Course σ α
  | _, .expr e => do
    let e ← turn (p.enter · e)
    let e ← arguments d e
    turn (p.leave · e)
  | _, .args [] => return []
  | _, .args (e :: rest) => do
    let rest ← task (.args rest)
    let e ← task (.expr e)
    return e :: rest
  | _, .block ⟨line, ss⟩ => do
    change .opens
    let ss ← task (.stmts ss)
    change .closes
    return ⟨line, ss⟩
  | _, .stmts [] => return []
  | _, .stmts (s :: rest) => do
    match ← turn (p.replace · s) with
    | .inl replacement => task (.stmts (replacement ++ rest))
    | .inr s =>
      let s ← task (.stmt s)
      return s :: (← task (.stmts rest))
  | _, .stmt (.expr line e) => return .expr line (← root d e)
  | _, .stmt (.assign line targets value) => do
    let value ← root d value
    change (.assigns (targets.map (·.name)) (some value))
    return .assign line targets value
  | _, .stmt (.decl line vars value) => do
    let value ← value.mapM (root d)
    change (.declares (vars.map (·.name)))
    change (.assigns (vars.map (·.name)) (Flow.declaredValue line vars value))
    return .decl line vars value
  | _, .stmt (.func line name params returns body) => do
    let body ← apart ((params ++ returns).map TypedName.name) (task (.block body))
    return .func line name params returns body
  | _, .stmt (.cond line test body) => do
    let test ← root d test
    let body ← task (.block body)
    change (.clears body.assigned)
    return .cond line test body
  | _, .stmt (.switch line subject cs) => do
    let subject ← root d subject
    return .switch line subject (← task (.cases cs))
  | _, .stmt (.loop line ⟨preLine, pre⟩ test post body) => do
    change .opens
    let pre ← task (.stmts pre)
    let assigned := body.assigned ++ post.assigned
    change (.clears assigned)
    let test ← root d test
    let body ← task (.block body)
    change (.clears assigned)
    let post ← task (.block post)
    change (.clears assigned)
    change .closes
    return .loop line ⟨preLine, pre⟩ test post body
  | _, .stmt (.block b) => return .block (← task (.block b))
  | _, .stmt (.label line name) => do
    change .clearsAll
    return .label line name
  | _, .stmt (.stackAssign line target) => do
    change (.clears [target.name])
    return .stackAssign line target
  | _, .stmt (.brk line) => return .brk line
  | _, .stmt (.cont line) => return .cont line
  | _, .cases [] => return []
  | _, .cases (⟨line, value, body⟩ :: rest) => do
    let body ← task (.block body)
    change (.clears body.assigned)
    return ⟨line, value, body⟩ :: (← task (.cases rest))

/-- The state of a walk that begins. -/
def WalkState.start {σ : Type} (own : σ) : WalkState σ := ⟨.empty, [], own⟩

/-- The state inside a function. -/
def WalkState.inside {σ : Type} (st : WalkState σ) (names : List String) : WalkState σ :=
  ⟨.empty, [names], st.own⟩

/-- From a state, a walk comes to an end with a result in another state. If cuts are allowed
    anything may be left as it is. -/
inductive Course.Does {σ : Type} (d : Dialect) (p : Companion σ) (cuts : Prop) :
    {α : Type} → Course σ α → WalkState σ → α → WalkState σ → Prop where
  | turn {α : Type} {f : Known → σ → Option (α × σ)} {st : WalkState σ} {a : α} {own : σ}
      (h : f st.slate.values st.own = some (a, own)) : Does d p cuts (.turn f) st a { st with own }
  | change (c : Change) (st : WalkState σ) : Does d p cuts (.change c) st () (c.apply d st)
  | apart {α : Type} {names : List String} {m : Course σ α} {st st' : WalkState σ} {a : α}
      (inner : Does d p cuts m (st.inside names) a st') :
      Does d p cuts (.apart names m) st a { st with own := st'.own }
  | task {α : Type} {t : Task α} {st st' : WalkState σ} {a : α}
      (whole : Does d p cuts (t.course d p) st a st') : Does d p cuts (.task t) st a st'
  | cut {α : Type} (h : cuts) (t : Task α) (st : WalkState σ) :
      Does d p cuts (.task t) st t.input st
  | bind {α β : Type} {m : Course σ α} {f : α → Course σ β} {st st₁ st₂ : WalkState σ} {a : α}
      {b : β} (first : Does d p cuts m st a st₁) (next : Does d p cuts (f a) st₁ b st₂) :
      Does d p cuts (.bind m f) st b st₂

/-- From a state, a walk comes to another state on its way, whether it ever ends or not. -/
inductive Course.Comes {σ : Type} (d : Dialect) (p : Companion σ) (cuts : Prop) :
    {α : Type} → Course σ α → WalkState σ → WalkState σ → Prop where
  | here {α : Type} (m : Course σ α) (st : WalkState σ) : Comes d p cuts m st st
  | ends {α : Type} {m : Course σ α} {st st' : WalkState σ} {a : α}
      (whole : Does d p cuts m st a st') : Comes d p cuts m st st'
  | apart {α : Type} {names : List String} {m : Course σ α} {st st' : WalkState σ}
      (inner : Comes d p cuts m (st.inside names) st') : Comes d p cuts (.apart names m) st st'
  | task {α : Type} {t : Task α} {st st' : WalkState σ}
      (part : Comes d p cuts (t.course d p) st st') : Comes d p cuts (.task t) st st'
  | first {α β : Type} {m : Course σ α} {f : α → Course σ β} {st st' : WalkState σ}
      (part : Comes d p cuts m st st') : Comes d p cuts (.bind m f) st st'
  | next {α β : Type} {m : Course σ α} {f : α → Course σ β} {st st₁ st' : WalkState σ} {a : α}
      (first : Does d p cuts m st a st₁) (part : Comes d p cuts (f a) st₁ st') :
      Comes d p cuts (.bind m f) st st'

/-- A state is in order if its slate is that of values that are well kept. -/
def WalkState.InOrder {σ : Type} (st : WalkState σ) : Prop :=
  ∃ k : Known, k.WellKept ∧ st.slate = .ofKnown k

section Order

variable {σ : Type} {d : Dialect} {p : Companion σ} {cuts : Prop} {st st' : WalkState σ}

/-- No change takes the state out of order. -/
theorem Change.inOrder (h : st.InOrder) (c : Change) : (c.apply d st).InOrder := by
  rcases h with ⟨k, hk, hst⟩
  cases c with
  | opens => exact ⟨k, hk, hst⟩
  -- A closing block forgets its names; without an open one nothing changes.
  | closes =>
      rw [Change.apply]
      split
      · exact ⟨k, hk, hst⟩
      · exact ⟨_, hk.forget _, by rw [hst]; exact Slate.clear_ofKnown hk.keys _⟩
  | declares names =>
      rw [Change.apply]
      split <;> exact ⟨k, hk, hst⟩
  -- Only here does it matter that no name has two entries.
  | clears names =>
      rw [Change.apply, hst, Slate.clear_ofKnown hk.keys]
      exact ⟨_, hk.forget names, rfl⟩
  | clearsAll => exact ⟨_, Known.wellKept_nothing, rfl⟩
  | assigns names value =>
      rw [Change.apply, hst, Slate.assign_ofKnown hk.keys]
      exact ⟨_, hk.assigned d names value, rfl⟩

theorem WalkState.inOrder_start (own : σ) : (WalkState.start own).InOrder :=
  ⟨_, Known.wellKept_nothing, rfl⟩

theorem WalkState.inOrder_inside (st : WalkState σ) (names : List String) :
    (st.inside names).InOrder :=
  ⟨_, Known.wellKept_nothing, rfl⟩

/-- A walk that comes to an end leaves the state in order. -/
theorem Course.Does.inOrder {α : Type} {m : Course σ α} {a : α} (h : Does d p cuts m st a st')
    (hst : st.InOrder) : st'.InOrder := by
  induction h with
  | turn h => exact hst
  | change c st => exact Change.inOrder hst c
  | apart inner ih => exact hst
  | task whole ih => exact ih hst
  | cut h t st => exact hst
  | bind first next ihfirst ihnext => exact ihnext (ihfirst hst)

/-- Whatever a walk comes to is in order. -/
theorem Course.Comes.inOrder {α : Type} {m : Course σ α} (h : Comes d p cuts m st st')
    (hst : st.InOrder) : st'.InOrder := by
  induction h with
  | here m st => exact hst
  | ends whole => exact whole.inOrder hst
  | apart inner ih => exact ih (WalkState.inOrder_inside _ _)
  | task part ih => exact ih hst
  | first part ih => exact ih hst
  | next first part ih => exact ih (first.inOrder hst)

/-- A walk without cuts comes to one end. -/
theorem Course.Does.unique {α : Type} {m : Course σ α} {a : α} (h : Does d p False m st a st') :
    ∀ {a' : α} {st'' : WalkState σ}, Does d p False m st a' st'' → a' = a ∧ st'' = st' := by
  induction h with
  -- A hook answers the same question in the same way.
  | turn hturn =>
      intro a' st'' h'
      cases h' with
      | turn hturn' =>
          obtain ⟨rfl, rfl⟩ := Prod.mk.inj (Option.some.inj (hturn'.symm.trans hturn))
          exact ⟨rfl, rfl⟩
  | change c st =>
      -- A change of the state has one outcome.
      intro a' st'' h'
      cases h' with
      | change => exact ⟨rfl, rfl⟩
  | apart inner ih =>
      intro a' st'' h'
      cases h' with
      | apart inner' =>
          rcases ih inner' with ⟨rfl, rfl⟩
          exact ⟨rfl, rfl⟩
  | task whole ih =>
      intro a' st'' h'
      cases h' with
      -- Nothing was cut off, since the proposition for cutting off is false.
      | task whole' => exact ih whole'
      | cut hcut => exact hcut.elim
  | cut hcut => exact hcut.elim
  | bind first next ihfirst ihnext =>
      intro a' st'' h'
      cases h' with
      -- The second part starts in one state, because the first part ends in one.
      | bind first' next' =>
          rcases ihfirst first' with ⟨rfl, rfl⟩
          exact ihnext next'

end Order

/-- The state of a walk with bounds, as that of a walk without. -/
def FlowState.walkState {σ : Type} (st : FlowState σ) : WalkState σ :=
  ⟨.ofKnown st.known, st.scopes, st.own⟩

/-- What takes the place of an expression makes no more work for a walk than was to be expected:
    it is no larger and reads nothing else, or it is the known value of the variable that the
    expression is. -/
def Expr.Eases (k : Known) (e e' : Expr) : Prop :=
  e'.size ≤ e.size ∧ e'.reads ⊆ e.reads ∨ ∃ line x, e = .ident line x ∧ k.value? x = some e'

/-- A policy is light if the walk has no more work after it was asked: what it puts in place of
    an expression eases that, and a statement is replaced by lighter ones. -/
structure Policy.Light {σ : Type} (p : Policy σ) : Prop where
  enter : ∀ (k : Known) (e : Expr) (own : σ), e.Eases k (p.enter k e own).1
  replace : ∀ k s own stmts, (p.replace k s own).1 = some stmts → Stmt.weightSeq stmts < s.weight

/-- An expression that eases into another leaves enough fuel for it. -/
theorem Known.Affords.eased {k : Known} (hk : k.WellKept) {e e' : Expr} {bound : Nat}
    (h : k.Affords e.reads e.size bound) (he : e.Eases k e') :
    k.Affords e'.reads e'.size bound := by
  rcases he with ⟨hsize, hreads⟩ | ⟨line, x, rfl, hx⟩
  · exact h.part hreads (by omega)
  · rw [Expr.reads, Expr.size] at h
    exact h.copied hk hx

namespace Flow

/-- What a walk with bounds does from where something holds of what is known is what a course
    says, and it still holds then. -/
def Tracks {σ α : Type} (d : Dialect) (p : Policy σ) (cuts : Prop) (I : Known → Prop)
    (m : Course σ α) (w : Walk σ α) : Prop :=
  ∀ st : FlowState σ, I st.known →
    Does d p.companion cuts m st.walkState (w st).1 (w st).2.walkState ∧ I (w st).2.known

section Tracking

variable {σ : Type} {d : Dialect} {p : Policy σ} {cuts : Prop} {I : Known → Prop}

/-- A tracked part followed by tracked parts is tracked, where the first keeps the invariant. -/
theorem Tracks.follow {α β : Type} {m : Course σ α} {w : Walk σ α} {f : α → Course σ β}
    {g : α → Walk σ β} (hm : Tracks d p cuts I m w)
    (hf : ∀ st, I st.known → Tracks d p cuts I (f (w st).1) (g (w st).1)) :
    Tracks d p cuts I (m >>= f) (w >>= g) := fun st hst => by
  have hfirst := hm st hst
  have hnext := hf st hst _ hfirst.2
  exact ⟨.bind hfirst.1 hnext.1, hnext.2⟩

theorem Tracks.bind {α β : Type} {m : Course σ α} {w : Walk σ α} {f : α → Course σ β}
    {g : α → Walk σ β} (hm : Tracks d p cuts I m w)
    (hf : ∀ st, Tracks d p cuts I (f (w st).1) (g (w st).1)) :
    Tracks d p cuts I (m >>= f) (w >>= g) := hm.follow fun st _ => hf st

theorem Tracks.pure {α : Type} (a : α) : Tracks d p cuts I (pure a) (pure a) :=
  fun _ hst => ⟨.turn rfl, hst⟩

theorem Tracks.map {α β : Type} {m : Course σ α} {w : Walk σ α} (f : α → β)
    (hm : Tracks d p cuts I m w) : Tracks d p cuts I (f <$> m) (f <$> w) :=
  fun st hst => ⟨.bind (hm st hst).1 (.turn rfl), (hm st hst).2⟩

theorem Tracks.act {α : Type} (f : Known → σ → α × σ) :
    Tracks d p cuts I (.turn fun k own => some (f k own)) (act f) :=
  fun _ hst => ⟨.turn rfl, hst⟩

theorem Tracks.task {α : Type} {t : Task α} {w : Walk σ α}
    (h : Tracks d p cuts I (t.course d p.companion) w) : Tracks d p cuts I (.task t) w :=
  fun st hst => ⟨.task (h st hst).1, (h st hst).2⟩

/-- A walk that does what a course says leaves what is known well kept. -/
theorem Tracks.ofDoes {α : Type} {m : Course σ α} {w : Walk σ α}
    (h : ∀ st : FlowState σ, st.known.WellKept →
      Does d p.companion cuts m st.walkState (w st).1 (w st).2.walkState) :
    Tracks d p cuts Known.WellKept m w := fun st hst => by
  rcases (h st hst).inOrder ⟨_, hst, rfl⟩ with ⟨k, hk, hslate⟩
  obtain rfl : (w st).2.known = k := congrArg Slate.values hslate
  exact ⟨h st hst, hk⟩

/-- A change is tracked by a walk that does the same to well-kept states. -/
theorem Tracks.change {c : Change} {w : Walk σ Unit}
    (h : ∀ st : FlowState σ, st.known.WellKept → c.apply d st.walkState = (w st).2.walkState) :
    Tracks d p cuts Known.WellKept (.change c) w :=
  .ofDoes fun st hst => h st hst ▸ .change c st.walkState

theorem Tracks.opens : Tracks d p cuts Known.WellKept (.change .opens) openScope :=
  .change fun _ _ => rfl

/-- Closing a scope is tracked. -/
theorem Tracks.closes : Tracks d p cuts Known.WellKept (.change .closes) closeScope := by
  refine .change ?_
  rintro ⟨k, _ | ⟨names, outer⟩, own⟩ hk
  · rfl
  · exact congrArg (WalkState.mk · outer own) (Slate.clear_ofKnown hk.keys names)

theorem Tracks.declares (names : List String) :
    Tracks d p cuts Known.WellKept (.change (.declares names)) (declare names) := by
  refine .change ?_
  rintro ⟨k, _ | ⟨innermost, outer⟩, own⟩ _ <;> rfl

theorem Tracks.clears (names : List String) :
    Tracks d p cuts Known.WellKept (.change (.clears names)) (changeKnown (·.forget names)) :=
  .change fun st hst =>
    congrArg (WalkState.mk · st.scopes st.own) (Slate.clear_ofKnown hst.keys names)

theorem Tracks.clearsAll :
    Tracks d p cuts Known.WellKept (.change .clearsAll) (changeKnown fun _ => Known.nothing) :=
  .change fun _ _ => rfl

/-- The effect of an evaluated expression is tracked. -/
theorem Tracks.evaluated (e : Expr) :
    Tracks d p cuts Known.WellKept (Course.evaluated d e) (changeKnown (·.evaluated d e)) := by
  unfold Course.evaluated Known.evaluated
  split
  · exact .clearsAll
  · exact .ofDoes fun _ _ => .turn rfl

/-- An assignment is tracked. -/
theorem Tracks.assigns (names : List String) (value : Option Expr) :
    Tracks d p cuts Known.WellKept (.change (.assigns names value))
      (changeKnown (·.assigned d names value)) :=
  .change fun st hst =>
    congrArg (WalkState.mk · st.scopes st.own) (Slate.assign_ofKnown hst.keys d names value)

/-- Walking inside a function and going back to what was known outside. -/
theorem Tracks.apart {α : Type} {m : Course σ α} {w : Walk σ α} (names : List String)
    (h : Tracks d p cuts Known.WellKept m w) :
    Tracks d p cuts Known.WellKept (.apart names m) fun st =>
      ((w ⟨.nothing, [names], st.own⟩).1,
        { st with own := (w ⟨.nothing, [names], st.own⟩).2.own }) := by
  intro st hst
  have hinner : Does d p.companion cuts m (st.walkState.inside names) _ _ :=
    (h ⟨.nothing, [names], st.own⟩ Known.wellKept_nothing).1
  exact ⟨.apart hinner, hst⟩

/-- A statement is replaced by others, or it is kept. -/
theorem Tracks.replace {α : Type} {s : Stmt} {f : List Stmt ⊕ Stmt → Course σ α}
    {g : Option (List Stmt) → Walk σ α} (hkept : Tracks d p cuts I (f (.inr s)) (g none))
    (hreplaced : ∀ k own stmts, (p.replace k s own).1 = some stmts →
      Tracks d p cuts I (f (.inl stmts)) (g (some stmts))) :
    Tracks d p cuts I (.turn (p.companion.replace · s) >>= f) (Flow.act (p.replace · s) >>= g) := by
  intro st hst
  let st' : FlowState σ := { st with own := (p.replace st.known s st.own).2 }
  have hturn : Does d p.companion cuts (.turn (p.companion.replace · s)) st.walkState
      ((p.replace st.known s st.own).1.elim (.inr s) .inl) st'.walkState := .turn rfl
  -- The walk goes on with what the pass has decided, in the state after it did.
  have hnext : Does d p.companion cuts (f ((p.replace st.known s st.own).1.elim (.inr s) .inl))
      st'.walkState (g (p.replace st.known s st.own).1 st').1
        (g (p.replace st.known s st.own).1 st').2.walkState ∧
      I (g (p.replace st.known s st.own).1 st').2.known := by
    cases h : (p.replace st.known s st.own).1 with
    | none => exact hkept st' hst
    | some stmts => exact hreplaced st.known st.own stmts h st' hst
  exact ⟨.bind hturn hnext.1, hnext.2⟩

/-- Either cuts are allowed, or the pass is light and a bound is enough. -/
def Suffices (p : Policy σ) (cuts enough : Prop) : Prop := cuts ∨ p.Light ∧ enough

theorem Suffices.trans {enough enough' : Prop} (h : Suffices p cuts enough)
    (himp : enough → enough') : Suffices p cuts enough' :=
  h.imp_right fun ⟨hlight, henough⟩ => ⟨hlight, himp henough⟩

theorem Suffices.light {enough : Prop} (h : Suffices p cuts enough) : cuts ∨ p.Light :=
  h.imp_right And.left

/-- Where the bound is used up, the walk is cut. -/
theorem Suffices.cut {α : Type} {t : Task α} {enough : Prop} (h : Suffices p cuts enough)
    (hused : ¬ enough) : Tracks d p cuts I (.task t) (Pure.pure t.input) := by
  rcases h with hcuts | ⟨-, henough⟩
  · exact fun st hst => ⟨.cut hcuts t _, hst⟩
  · exact absurd henough hused

section Expressions

variable {k : Known}

-- Inside of an expression what is known stays the same, and by that it says how often a value
-- may take the place of a variable.
mutual

/-- Visiting an expression with enough fuel is tracked. -/
theorem visitExpr_tracks (hk : k.WellKept) : ∀ (fuel : Nat) (e : Expr),
    Suffices p cuts (k.Affords e.reads e.size (fuel + 1)) →
    Tracks d p cuts (· = k) (.task (.expr e)) (visitExpr d p fuel e)
  | 0, e, h => by
      have := e.size_pos
      rw [visitExpr]
      exact h.cut fun hbound => by have := hbound.bound; omega
  | fuel + 1, e, h => by
      rw [visitExpr]
      refine .task (.follow (.act _) fun st hst => ?_)
      -- What is walked is what the pass has put there.
      have hnext : Suffices p cuts (k.Affords ((act (p.enter · e) : Walk σ Expr) st).1.reads
          ((act (p.enter · e) : Walk σ Expr) st).1.size (fuel + 1 + 1)) :=
        h.imp_right fun ⟨hlight, hbound⟩ =>
          ⟨hlight, hbound.eased hk (hst ▸ hlight.enter st.known e st.own)⟩
      generalize ((act (p.enter · e) : Walk σ Expr) st).1 = e' at hnext ⊢
      cases e' with
      | literal l => exact .bind (.pure _) fun _ => .act _
      | ident line name => exact .bind (.pure _) fun _ => .act _
      | instr line op es =>
          rw [Expr.reads, Expr.size] at hnext
          have hargs : Suffices p cuts (k.Affords (Expr.readsAll es) (Expr.sizeAll es) fuel) :=
            hnext.trans fun hbound => hbound.part (List.Subset.refl _) (by omega)
          exact .bind (.map _ (visitArgs_tracks hk fuel es hargs)) fun _ => .act _
      | call line name es =>
          rw [Expr.reads, Expr.size] at hnext
          have hargs : Suffices p cuts (k.Affords (Expr.readsAll es) (Expr.sizeAll es) fuel) :=
            hnext.trans fun hbound => hbound.part (List.Subset.refl _) (by omega)
          rw [arguments]
          dsimp only
          split
          · exact .bind (.pure _) fun _ => .act _
          · exact .bind (.map _ (visitArgs_tracks hk fuel es hargs)) fun _ => .act _

/-- Visiting arguments with enough fuel is tracked, from the last to the first. -/
theorem visitArgs_tracks (hk : k.WellKept) : ∀ (fuel : Nat) (es : List Expr),
    Suffices p cuts (k.Affords (Expr.readsAll es) (Expr.sizeAll es) fuel) →
    Tracks d p cuts (· = k) (.task (.args es)) (visitArgs d p fuel es)
  | 0, [], h => .task (.pure _)
  | _ + 1, [], h => .task (.pure _)
  | 0, e :: rest, h => by
      have := e.size_pos
      rw [Expr.sizeAll] at h
      rw [visitArgs]
      -- Out of fuel: the demand has failed, so this may be cut off.
      exact h.cut fun hbound => by have := hbound.bound; omega
  | fuel + 1, e :: rest, h => by
      have := e.size_pos
      rw [Expr.readsAll, Expr.sizeAll] at h
      -- The last arguments are visited first, and each part has a share of the fuel.
      have hrest : Suffices p cuts (k.Affords (Expr.readsAll rest) (Expr.sizeAll rest) fuel) :=
        h.trans fun hbound => hbound.part (List.subset_append_right _ _) (by omega)
      have hfirst : Suffices p cuts (k.Affords e.reads e.size (fuel + 1)) :=
        h.trans fun hbound => hbound.part (List.subset_append_left _ _) (by omega)
      exact .task (.bind (visitArgs_tracks hk fuel rest hrest) fun _ =>
        .bind (visitExpr_tracks hk fuel e hfirst) fun _ => .pure _)

end

end Expressions

/-- Visiting the expression of a statement is tracked. -/
theorem visitRoot_tracks (h : cuts ∨ p.Light) (e : Expr) :
    Tracks d p cuts Known.WellKept (root d e) (visitRoot d p e) := .ofDoes fun st hst => by
  have hwalk : Tracks d p cuts (· = st.known) (.task (.expr e))
      (visitExpr d p (2 * (e.size + st.known.size) + 1) e) :=
    visitExpr_tracks hst _ e (h.imp_right fun hlight => ⟨hlight, Known.affords_of_le (by omega)⟩)
  rcases hwalk st rfl with ⟨hexpr, hsame⟩
  have hlast : ∀ e' : Expr, Tracks d p cuts Known.WellKept
      (do evaluated d e'; return e') (do changeKnown (·.evaluated d e'); return e') :=
    fun e' => .bind (.evaluated e') fun _ => .pure e'
  exact .bind hexpr (hlast _ _ (by rw [hsame]; exact hst)).1

mutual

/-- The walk over a block is what a course says. -/
theorem visitBlock_tracks : ∀ (fuel : Nat) (b : Block), Suffices p cuts (b.weight ≤ fuel) →
    Tracks d p cuts Known.WellKept (.task (.block b)) (visitBlock d p fuel b)
  | 0, ⟨line, stmts⟩, h => by
      rw [Block.weight] at h
      rw [visitBlock]
      exact h.cut (by omega)
  | fuel + 1, ⟨line, stmts⟩, h => by
      rw [Block.weight] at h
      rw [visitBlock]
      exact .task (.bind .opens fun _ =>
        .bind (visitStmts_tracks fuel stmts (h.trans (by omega))) fun _ =>
        .bind .closes fun _ => .pure _)

/-- Visiting statements with enough fuel is tracked. -/
theorem visitStmts_tracks : ∀ (fuel : Nat) (stmts : List Stmt),
    Suffices p cuts (Stmt.weightSeq stmts ≤ fuel) →
    Tracks d p cuts Known.WellKept (.task (.stmts stmts)) (visitStmts d p fuel stmts)
  | 0, [], h => .task (.pure _)
  | _ + 1, [], h => .task (.pure _)
  | 0, s :: rest, h => by
      have := weight_pos s
      rw [Stmt.weightSeq] at h
      rw [visitStmts]
      exact h.cut (by omega)
  -- Whether the statement is replaced or kept, less is left than before.
  | fuel + 1, s :: rest, h => by
      have := weight_pos s
      rw [Stmt.weightSeq] at h
      rw [visitStmts]
      refine .task (.replace ?_ fun k own stmts hreplace => visitStmts_tracks fuel _ ?_)
      · exact .bind (visitStmt_tracks fuel s (h.trans (by omega))) fun _ =>
          .bind (visitStmts_tracks fuel rest (h.trans (by omega))) fun _ => .pure _
      · rw [weightSeq_append]
        refine h.imp_right fun ⟨hlight, hle⟩ => ⟨hlight, ?_⟩
        have := hlight.replace k s own stmts hreplace
        omega

/-- The walk over a statement is what a course says. -/
theorem visitStmt_tracks : ∀ (fuel : Nat) (s : Stmt), Suffices p cuts (s.weight ≤ fuel + 1) →
    Tracks d p cuts Known.WellKept (.task (.stmt s)) (visitStmt d p fuel s)
  | 0, s, h => by
      have := weight_pos s
      rw [visitStmt]
      exact h.cut (by omega)
  | fuel + 1, .expr line e, h => by
      rw [visitStmt]
      exact .task (.bind (visitRoot_tracks h.light e) fun _ => .pure _)
  | fuel + 1, .assign line targets value, h => by
      rw [visitStmt]
      exact .task (.bind (visitRoot_tracks h.light value) fun _ =>
        .bind (.assigns _ _) fun _ => .pure _)
  | fuel + 1, .decl line vars value, h => by
      -- A declaration without a value has nothing to visit.
      have hvalue : Tracks d p cuts Known.WellKept (value.mapM (root d))
          (value.mapM (visitRoot d p)) := by
        cases value with
        | none => exact .pure _
        | some value => exact .map _ (visitRoot_tracks h.light value)
      rw [visitStmt]
      exact .task (.bind hvalue fun _ => .bind (.declares _) fun _ =>
        .bind (.assigns _ _) fun _ => .pure _)
  | fuel + 1, .func line name params returns body, h => by
      rw [Stmt.weight] at h
      -- A function body starts from nothing, and what is known outside comes back behind it.
      have hbody := Tracks.apart ((params ++ returns).map TypedName.name)
        (visitBlock_tracks fuel body (h.trans (by omega)))
      rw [visitStmt]
      exact .task (.map (Stmt.func line name params returns) hbody)
  | fuel + 1, .cond line test body, h => by
      rw [Stmt.weight] at h
      rw [visitStmt]
      exact .task (.bind (visitRoot_tracks h.light test) fun _ =>
        .bind (visitBlock_tracks fuel body (h.trans (by omega))) fun _ =>
        .bind (.clears _) fun _ => .pure _)
  | fuel + 1, .switch line subject cases, h => by
      rw [Stmt.weight] at h
      rw [visitStmt]
      exact .task (.bind (visitRoot_tracks h.light subject) fun _ =>
        .bind (visitCases_tracks fuel cases (h.trans (by omega))) fun _ => .pure _)
  | fuel + 1, .loop line ⟨preLine, pre⟩ test post body, h => by
      rw [Stmt.weight, Block.weight] at h
      rw [visitStmt]
      -- Names assigned in the body or behind it are forgotten before the test and after each part.
      exact .task (.bind .opens fun _ =>
        .bind (visitStmts_tracks fuel pre (h.trans (by omega))) fun _ =>
        .bind (.clears _) fun _ =>
        .bind (visitRoot_tracks h.light test) fun _ =>
        .bind (visitBlock_tracks fuel body (h.trans (by omega))) fun _ =>
        .bind (.clears _) fun _ =>
        .bind (visitBlock_tracks fuel post (h.trans (by omega))) fun _ =>
        .bind (.clears _) fun _ => .bind .closes fun _ => .pure _)
  | fuel + 1, .block b, h => by
      rw [Stmt.weight] at h
      rw [visitStmt]
      exact .task (.bind (visitBlock_tracks fuel b (h.trans (by omega))) fun _ => .pure _)
  | fuel + 1, .label line name, h => by
      rw [visitStmt]
      exact .task (.bind .clearsAll fun _ => .pure _)
  | fuel + 1, .stackAssign line target, h => by
      rw [visitStmt]
      exact .task (.bind (.clears _) fun _ => .pure _)
  | fuel + 1, .brk line, h => by
      rw [visitStmt]
      exact .task (.pure _)
  | fuel + 1, .cont line, h => by
      rw [visitStmt]
      exact .task (.pure _)

/-- Visiting the cases of a switch with enough fuel is tracked. -/
theorem visitCases_tracks : ∀ (fuel : Nat) (cases : List Case),
    Suffices p cuts (Case.weightSeq cases ≤ fuel) →
    Tracks d p cuts Known.WellKept (.task (.cases cases)) (visitCases d p fuel cases)
  | 0, [], h => .task (.pure _)
  | _ + 1, [], h => .task (.pure _)
  | 0, ⟨line, value, body⟩ :: rest, h => by
      rw [Case.weightSeq] at h
      rw [visitCases]
      exact h.cut (by omega)
  | fuel + 1, ⟨line, value, body⟩ :: rest, h => by
      rw [Case.weightSeq] at h
      rw [visitCases]
      exact .task (.bind (visitBlock_tracks fuel body (h.trans (by omega))) fun _ =>
        .bind (.clears _) fun _ =>
        .bind (visitCases_tracks fuel rest (h.trans (by omega))) fun _ => .pure _)

end

/-- What the walk does with a program. -/
theorem run_tracks (h : cuts ∨ p.Light) (own : σ) (code : Block) : ∃ st : WalkState σ,
    Does d p.companion cuts (.task (.block code)) (.start own) (run d p own code).1 st ∧
      st.own = (run d p own code).2 := by
  have hbound : Suffices p cuts (code.weight ≤ code.weight + 1) :=
    h.imp_right fun hlight => ⟨hlight, Nat.le_succ _⟩
  exact ⟨_, (visitBlock_tracks _ code hbound ⟨.nothing, [], own⟩ Known.wellKept_nothing).1, rfl⟩

end Tracking

end Flow

theorem Pass.structurePolicy_light (declared : List String) : (structurePolicy declared).Light :=
  ⟨fun _ e _ => .inl ⟨Nat.le_refl _, List.Subset.refl e.reads⟩,
    fun _ _ _ _ h => simplifyStructureStmt_weight h⟩

/-- Known values form no cycle, and the simplification of control flow comes to an end.

    Whatever a pass puts in the place of what it is shown, the slate is sound in every state
    that the walk over a program comes to, whether the walk ends or not, and from every
    expression following known values comes to an end. The walk with bounds is such a walk,
    except that it may be cut. With the pass that simplifies control flow it is not: without
    any bounds the walk comes to an end as well, and with the same result. -/
theorem known_values_form_no_cycle (d : Dialect) (code : Block) :
    (∀ {σ : Type} (p : Companion σ) (cuts : Prop) (own : σ) (st : WalkState σ),
      Comes d p cuts (.task (.block code)) (.start own) st →
        st.slate.Sound ∧ ∀ e, st.slate.values.LeadsTo e (st.slate.values.constant? e)) ∧
    (∀ {σ : Type} (p : Policy σ) (own : σ), ∃ st : WalkState σ,
      Does d p.companion True (.task (.block code)) (.start own) (Flow.run d p own code).1 st ∧
        st.own = (Flow.run d p own code).2) ∧
    ∀ (declared : List String) (result : Block),
      (∃ st, Does d (Pass.structurePolicy declared).companion False (.task (.block code))
        (.start ()) result st) ↔
      result = (Flow.run d (Pass.structurePolicy declared) () code).1 := by
  refine ⟨fun p cuts own st h => ?_, fun p own => Flow.run_tracks (.inl trivial) own code,
    fun declared result => ?_⟩
  -- Every state that a walk reaches is the slate of well-kept knowledge.
  · rcases h.inOrder (WalkState.inOrder_start own) with ⟨k, hk, hst⟩
    rw [hst]
    exact ⟨Slate.sound_ofKnown hk, hk.leadsTo⟩
  -- The unbounded walk has the result of the walk with fuel, and only that one.
  · rcases Flow.run_tracks (d := d) (.inr (Pass.structurePolicy_light declared)) ()
      code with ⟨st, hdoes, -⟩
    constructor
    · rintro ⟨st', h⟩
      exact (hdoes.unique h).1
    · rintro rfl
      exact ⟨st, hdoes⟩

end YulToolchain
