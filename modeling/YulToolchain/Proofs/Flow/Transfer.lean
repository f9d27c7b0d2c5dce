import YulToolchain.Proofs.Flow.Knowledge

/-!
# Knowledge along the Flow

How knowledge changes from the front of a piece of code to its end, and why it
holds there.

`Stmt.flow` is what the walk along the flow does to knowledge if the pass behind it
changes nothing, written as a recursion over the code alone. Behind a piece of
code nothing is known that was not known in front of it, apart from variables that
the code assigns or declares (`Block.flow_sub`). For code that is left in the
middle, or run any number of times, this is the whole argument: what is left after
the assigned variables are forgotten was known before and has not changed. Only
straight-line code teaches something new.

## Main definitions

* `Block.flow`, `Stmt.flowSeq`, `Stmt.flow`, `Case.flowSeq`: What is known behind a
  piece of code.
* `Block.Teaches`, `Stmt.Teaches`: What is known behind a piece of code holds there.

## Theorems

* `Block.flow_sub`, `Stmt.flow_sub`, `Case.flowSeq_sub`: Where knowledge comes from.
* `Stmt.Teaches.assign`, `Stmt.Teaches.loop` and so on: One for each kind of statement.
* `Block.run_flow`, `Stmt.runSeq_flow`, `Stmt.run_flow`: What is known behind a piece
  of code holds there.
-/

namespace YulToolchain

/-- There is a scope behind a statement if there was one before. -/
theorem Sight.vars_after_ne {v : Sight} (h : v.vars ≠ []) (s : Stmt) : (v.after s).vars ≠ [] := by
  rw [Sight.after_eq]
  rcases v with ⟨functions, _ | ⟨scope, outer⟩, hidden⟩
  · exact absurd rfl h
  · exact List.cons_ne_nil _ _

/-- An environment that holds some scopes is not empty. -/
theorem Environment.Holds.ne_nil {vars : List (List String)} {env : Environment}
    (h : Environment.Holds vars env) (hne : vars ≠ []) : env ≠ [] := by
  rintro rfl
  exact hne (List.forall₂_nil_right_iff.mp h)

mutual

/-- What is known behind a block. -/
def Block.flow (d : Dialect) (k : Known) : Block → Known
  | ⟨_, stmts⟩ => (Stmt.flowSeq d k stmts).forget (Stmt.declaredSeq stmts)

/-- What is known behind some statements. -/
def Stmt.flowSeq (d : Dialect) (k : Known) : List Stmt → Known
  | [] => k
  | s :: rest => Stmt.flowSeq d (s.flow d k) rest

/-- What is known behind a statement. -/
def Stmt.flow (d : Dialect) (k : Known) : Stmt → Known
  | .expr _ e => k.evaluated d e
  | .assign _ targets value =>
    (k.evaluated d value).assigned d (targets.map (·.name)) (some value)
  | .decl line vars none =>
    k.assigned d (vars.map (·.name)) (Flow.declaredValue line vars none)
  | .decl line vars (some value) =>
    (k.evaluated d value).assigned d (vars.map (·.name))
      (Flow.declaredValue line vars (some value))
  | .func _ _ _ _ _ => k
  | .cond _ test body => (body.flow d (k.evaluated d test)).forget body.assigned
  | .switch _ subject cases => Case.flowSeq d (k.evaluated d subject) cases
  | .loop _ ⟨_, pre⟩ test post body =>
    let assigned := body.assigned ++ post.assigned
    let head := (Stmt.flowSeq d k pre).forget assigned
    let behindBody := (body.flow d (head.evaluated d test)).forget assigned
    ((post.flow d behindBody).forget assigned).forget (Stmt.declaredSeq pre)
  | .brk _ => k
  | .cont _ => k
  | .block b => b.flow d k
  | .label _ _ => .nothing
  | .stackAssign _ target => k.forget [target.name]

/-- What is known behind the cases of a switch. -/
def Case.flowSeq (d : Dialect) (k : Known) : List Case → Known
  | [] => k
  | ⟨_, _, body⟩ :: rest => Case.flowSeq d ((body.flow d k).forget body.assigned) rest

end

section Origin

open Known

variable {d : Dialect}

/-- An assignment teaches something about the assigned variables alone. -/
theorem Known.assigned_sub {names : List String} {value : Option Expr} {k k' : Known}
    (h : Sub k k') {x : String} {e : Expr} (hx : (x, e) ∈ (k.assigned d names value).entries) :
    (x, e) ∈ k'.entries ∨ x ∈ names := by
  rcases mem_assigned hx with hx | ⟨_, _, _, hnames⟩
  · exact Or.inl (h x e (mem_forget.mp hx).1)
  · exact Or.inr ((hnames x).mpr rfl)

/-- What a block leaves behind when its assigned variables are forgotten was known before. -/
theorem Known.sub_of_origin {k k' : Known} {names names' : List String}
    (h : ∀ x e, (x, e) ∈ k'.entries → (x, e) ∈ k.entries ∨ x ∈ names) (hnames : names ⊆ names') :
    Sub (k'.forget names') k := by
  intro x e hx
  rcases mem_forget.mp hx with ⟨hx, hname, _⟩
  exact (h x e hx).resolve_right fun hx' => hname (hnames hx')

mutual

/-- What is known behind a block was known before it, or is about a variable that
    the block assigns. -/
theorem Block.flow_sub : ∀ {b : Block} {k : Known} {x : String} {e : Expr},
    (x, e) ∈ (b.flow d k).entries → (x, e) ∈ k.entries ∨ x ∈ b.assigned
  | ⟨line, stmts⟩, k, x, e, h => by
      rw [Block.flow] at h
      rcases mem_forget.mp h with ⟨h, hname, _⟩
      rw [Block.assigned_eq]
      rcases Stmt.flowSeq_sub h with h | h | h
      · exact Or.inl h
      · exact Or.inr h
      · exact absurd h hname

/-- An entry behind statements is an old one, or one of a name they assign or declare. -/
theorem Stmt.flowSeq_sub : ∀ {stmts : List Stmt} {k : Known} {x : String} {e : Expr},
    (x, e) ∈ (Stmt.flowSeq d k stmts).entries →
      (x, e) ∈ k.entries ∨ x ∈ Stmt.assignedSeq stmts ∨ x ∈ Stmt.declaredSeq stmts
  | [], k, x, e, h => by
      rw [Stmt.flowSeq] at h
      exact Or.inl h
  | s :: rest, k, x, e, h => by
      rw [Stmt.flowSeq] at h
      rw [Stmt.assignedSeq_cons, Stmt.declaredSeq_cons, List.mem_append, List.mem_append]
      rcases Stmt.flowSeq_sub h with h | h | h
      · rcases Stmt.flow_sub h with h | h | h
        · exact Or.inl h
        · exact Or.inr (Or.inl (Or.inl h))
        · exact Or.inr (Or.inr (Or.inl h))
      · exact Or.inr (Or.inl (Or.inr h))
      · exact Or.inr (Or.inr (Or.inr h))

/-- An entry behind a statement is an old one, or one of a name it assigns or declares. -/
theorem Stmt.flow_sub : ∀ {s : Stmt} {k : Known} {x : String} {e : Expr},
    (x, e) ∈ (s.flow d k).entries →
      (x, e) ∈ k.entries ∨ x ∈ s.assignedIn ∨ x ∈ s.declaresVars
  | .expr _ e', k, x, e, h => by
      rw [Stmt.flow] at h
      exact Or.inl (evaluated_sub d e' k x e h)
  | .assign _ targets value, k, x, e, h => by
      rw [Stmt.flow] at h
      rcases assigned_sub (evaluated_sub d value k) h with h | h
      · exact Or.inl h
      · exact Or.inr (Or.inl (List.mem_append_left _ h))
  | .decl _ vars none, k, x, e, h => by
      rw [Stmt.flow] at h
      exact (assigned_sub (Sub.refl k) h).imp_right Or.inr
  | .decl _ vars (some value), k, x, e, h => by
      rw [Stmt.flow] at h
      exact (assigned_sub (evaluated_sub d value k) h).imp_right Or.inr
  | .func _ _ _ _ _, k, x, e, h => by
      rw [Stmt.flow] at h
      exact Or.inl h
  | .cond _ test body, k, x, e, h => by
      rw [Stmt.flow] at h
      have hsub := sub_of_origin (fun _ _ => Block.flow_sub)
        (List.Subset.refl _) x e h
      exact Or.inl (evaluated_sub d test k x e hsub)
  | .switch _ subject cases, k, x, e, h => by
      rw [Stmt.flow] at h
      exact Or.inl (evaluated_sub d subject k x e (Case.flowSeq_sub h))
  | .loop _ ⟨_, pre⟩ test post body, k, x, e, h => by
      -- Read backwards: through the post part and the body to the init part.
      rw [Stmt.flow] at h
      rcases mem_forget.mp h with ⟨h, hname, _⟩
      have hpost := sub_of_origin (fun _ _ => Block.flow_sub)
        (List.subset_append_right _ _) x e h
      have hbody := sub_of_origin (fun _ _ => Block.flow_sub)
        (List.subset_append_left _ _) x e hpost
      have hpre := (mem_forget.mp (evaluated_sub d test _ x e hbody)).1
      rcases Stmt.flowSeq_sub hpre with h | h | h
      · exact Or.inl h
      -- An entry learned in the init part is of a name assigned or declared there.
      · right
        left
        simp only [Stmt.assignedIn, Stmt.assignsHere, Stmt.allInner, Block.allStmts,
          List.nil_append, List.flatMap_append, List.mem_append]
        exact Or.inl (Or.inl h)
      · exact absurd h hname
  | .brk _, k, x, e, h => by
      rw [Stmt.flow] at h
      exact Or.inl h
  | .cont _, k, x, e, h => by
      rw [Stmt.flow] at h
      exact Or.inl h
  | .block b, k, x, e, h => by
      rw [Stmt.flow] at h
      exact (Block.flow_sub h).imp_right Or.inl
  | .label _ _, k, x, e, h => by
      rw [Stmt.flow] at h
      exact absurd h not_mem_nothing
  | .stackAssign _ target, k, x, e, h => by
      rw [Stmt.flow] at h
      exact Or.inl (mem_forget.mp h).1

/-- What is known behind a switch was known before it. -/
theorem Case.flowSeq_sub : ∀ {cases : List Case} {k : Known} {x : String} {e : Expr},
    (x, e) ∈ (Case.flowSeq d k cases).entries → (x, e) ∈ k.entries
  | [], k, x, e, h => by
      rw [Case.flowSeq] at h
      exact h
  | ⟨_, _, body⟩ :: rest, k, x, e, h => by
      rw [Case.flowSeq] at h
      exact sub_of_origin (fun _ _ => Block.flow_sub)
        (List.Subset.refl _) x e (Case.flowSeq_sub h)

end

/-- A block whose assigned names are forgotten adds nothing. -/
theorem Block.flow_forget_sub {b : Block} {k : Known} {names : List String}
    (h : b.assigned ⊆ names) : Sub ((b.flow d k).forget names) (k.forget names) := by
  intro x e hx
  have hk := sub_of_origin (fun _ _ => Block.flow_sub) h x e hx
  exact mem_forget.mpr ⟨hk, (mem_forget.mp hx).2⟩

/-- Cases whose assigned names are forgotten add nothing. -/
theorem Case.flowSeq_forget_sub : ∀ {cases : List Case} {k : Known},
    Sub (Case.flowSeq d k cases) (k.forget (Case.assignedSeq cases))
  | [], k, x, e, h => by
      rw [Case.flowSeq] at h
      exact mem_forget.mpr ⟨h, List.not_mem_nil, fun _ _ => List.not_mem_nil⟩
  | ⟨_, _, body⟩ :: rest, k, x, e, h => by
      rw [Case.flowSeq] at h
      rcases mem_forget.mp (Case.flowSeq_forget_sub x e h) with ⟨h, hname, hreads⟩
      rcases mem_forget.mp (Block.flow_forget_sub (List.Subset.refl _) x e h) with
        ⟨h, hname', hreads'⟩
      rw [Case.assignedSeq_cons]
      simp only [mem_forget, List.mem_append, not_or]
      exact ⟨h, ⟨hname', hname⟩, fun y hy => ⟨hreads' y hy, hreads y hy⟩⟩

/-- The three places of a loop where knowledge is forgotten know less and less. -/
theorem Stmt.flow_loop_sub {line preLine : Nat} {pre : List Stmt} {test : Expr}
    {post body : Block} {k : Known} :
    Sub ((Stmt.loop line ⟨preLine, pre⟩ test post body).flow d k)
      (((Stmt.flowSeq d k pre).forget (body.assigned ++ post.assigned)).forget
        (Stmt.declaredSeq pre)) := by
  rw [Stmt.flow]
  refine Sub.forget ?_ (List.Subset.refl _)
  exact (Block.flow_forget_sub (List.subset_append_right _ _)).trans
    ((forget_sub _ _).trans ((Block.flow_forget_sub (List.subset_append_left _ _)).trans
      ((forget_sub _ _).trans (evaluated_sub d test _))))

end Origin

section Soundness

open Known

variable {c : RunContext} {call : Caller}

/-- What is known of the value that an assignment takes: if it is movable, it is a single one, and
    evaluating it has left the state as it was. -/
theorem Expr.run_single_movable {v : Sight} {e : Expr} {n : Nat} {values : List Word}
    {fs : FunctionScopes} {s t : RunState} (hmovable : e.movable c.dialect = true)
    (hyields : e.Yields c.dialect v n) (henv : Environment.Holds v.vars s.env)
    (hrun : e.run c call fs s = .ok values t) : values.length = n ∧ n ≤ 1 ∧ t = s := by
  rcases Expr.movable_means hmovable hyields henv with ⟨ws, hlength, hone, hmeans⟩
  rw [hmeans call fs s rfl fun _ _ => rfl] at hrun
  rcases EStateM.Result.ok.inj hrun with ⟨rfl, rfl⟩
  exact ⟨hlength, hone, rfl⟩

/-- How a run ends can be told together with its result. -/
theorem Ends.run_eq {α : Type} {r : Outcome α} {P : α → RunState → Prop} (h : Ends r P) :
    Ends r fun a t => P a t ∧ r = .ok a t := by
  cases r with
  | ok a t => exact ⟨h, rfl⟩
  | error halt t => exact h

theorem Literal.value_zero (line : Nat) (type : String) :
    (Literal.zero line type).value = .ok 0 := by
  have hzero : readNumber (Literal.numberText 0) = .ok 0 := by decide +kernel
  exact hzero

/-- A statement that teaches nothing new: what is known behind it is what was known before it of
    variables that it does not assign. -/
theorem Stmt.run_flow_of_sub (hcall : call.Sound c.dialect) {s₁ : Stmt} {v : Sight}
    {inLoop : Bool} {k : Known} {s : RunState} (hv : v.Distinct)
    (hfit : v.functions.Fit c.dialect) (h : s₁.Fits c.dialect v inLoop)
    (henv : Environment.Holds v.vars s.env) (hk : k.Valid c v s)
    (hsub : Sub (s₁.flow c.dialect k) (k.forget s₁.assignedIn)) :
    Ends (s₁.run c call v.functions s) fun flow t =>
      flow = .next → (s₁.flow c.dialect k).Valid c (v.after s₁) t :=
  (Stmt.run_sound hcall hv hfit h henv).mono fun _ _ ht _ =>
    (hk.keeps henv ht.keeps (v.visible_subset_after s₁)).sub hsub

/-- The value of an assignment to a single variable is what the variable gets. Both kinds of
    assignment look their variables up the same way afterwards. -/
theorem Known.Valid.assigned_values {v v' : Sight} {k : Known} {s t u : RunState}
    {fs : FunctionScopes} {value : Expr} {names : List String} {values : List Word}
    (hk : k.Valid c v s) (henv : Environment.Holds v.vars s.env)
    (hyields : value.Yields c.dialect v names.length)
    (hrun : value.run c call fs s = .ok values t)
    (hkeeps : Keeps v.visible names s u) (hvisible : v.visible ⊆ v'.visible)
    (hget : ∀ x, u.env.get? x = ((names.zip values).reverse.lookup x).or (t.env.get? x)) :
    ((k.evaluated c.dialect value).assigned c.dialect names (some value)).Valid c v' u := by
  refine (hk.sub (evaluated_sub _ _ _)).assigned call fs henv hkeeps hvisible ?_
  rintro x _ ⟨rfl⟩ hmovable hnames
  rcases Expr.run_single_movable hmovable hyields henv hrun with ⟨hlength, hone, rfl⟩
  have hx : x ∈ names := (hnames x).mpr rfl
  -- There is one variable and one value.
  match names, values, hlength with
  | [], [], _ => exact absurd hx List.not_mem_nil
  | [name], [w], _ =>
      obtain rfl := List.mem_singleton.mp hx
      refine ⟨hyields, w, ?_, hrun⟩
      rw [hget]
      simp only [List.zip_cons_cons, List.zip_nil_left, List.reverse_singleton, List.lookup_cons,
        beq_self_eq_true, Option.some_or]
  | _ :: _ :: _, _, _ => exact absurd hone (by simp only [List.length_cons]; omega)

/-- If what is known in front of a block holds there then so does, behind it, what is known
    behind it. -/
def Block.Teaches (c : RunContext) (call : Caller) (b : Block) : Prop :=
  ∀ ⦃v : Sight⦄ ⦃inLoop : Bool⦄ ⦃k : Known⦄ ⦃s : RunState⦄,
    v.Distinct → v.functions.Fit c.dialect →
    b.Fits c.dialect v inLoop → Environment.Holds v.vars s.env → k.Valid c v s →
      Ends (b.run c call v.functions s) fun flow t =>
        flow = .next → (b.flow c.dialect k).Valid c v t

/-- The same of statements. A run that leaves them early learns nothing. -/
def Stmt.TeachesSeq (c : RunContext) (call : Caller) (stmts : List Stmt) : Prop :=
  ∀ ⦃v : Sight⦄ ⦃inLoop : Bool⦄ ⦃k : Known⦄ ⦃s : RunState⦄,
    v.vars ≠ [] → v.Distinct →
    v.functions.Fit c.dialect → Stmt.FitsSeq c.dialect v inLoop stmts →
    Environment.Holds v.vars s.env → k.Valid c v s →
      Ends (Stmt.runSeq c call v.functions stmts s) fun flow t =>
        flow = .next → (Stmt.flowSeq c.dialect k stmts).Valid c (v.afterSeq stmts) t

/-- The same of a statement. -/
def Stmt.Teaches (c : RunContext) (call : Caller) (s₁ : Stmt) : Prop :=
  ∀ ⦃v : Sight⦄ ⦃inLoop : Bool⦄ ⦃k : Known⦄ ⦃s : RunState⦄,
    v.vars ≠ [] → v.Distinct →
    v.functions.Fit c.dialect → s₁.Fits c.dialect v inLoop →
    Environment.Holds v.vars s.env → k.Valid c v s →
      Ends (s₁.run c call v.functions s) fun flow t =>
        flow = .next → (s₁.flow c.dialect k).Valid c (v.after s₁) t

/-- A block teaches what its statements do. -/
theorem Block.Teaches.of_stmts (hcall : call.Sound c.dialect) {line : Nat} {stmts : List Stmt}
    (hinner : Stmt.TeachesSeq c call stmts) : Block.Teaches c call ⟨line, stmts⟩ := by
  intro v inLoop k s hv hfit h henv hk
  rw [Block.Fits] at h
  have hin := Sight.distinct_enter hv h.1
  have hfin := FunctionScopes.Fit.enter hv hfit h.1 h.2
  have henv' := henv.enter stmts
  rw [Block.run, Block.flow]
  refine Ends.inScope ?_
  refine ((Stmt.runSeq_sound hcall hin hfin h.2 henv').and
    (hinner (List.cons_ne_nil _ _) hin hfin h.2 henv' (hk.enter henv stmts))).mono ?_
  rintro _ t ⟨ht, hflow⟩ rfl
  have hknown := hflow rfl
  have hholds := ht.holds
  rw [Sight.afterSeq_eq] at hknown hholds
  exact hknown.close hholds

namespace Stmt.TeachesSeq

theorem nil : Stmt.TeachesSeq c call [] := by
  intro v inLoop k s _ _ _ _ _ hk
  rw [Stmt.runSeq, Stmt.flowSeq]
  exact Ends.pure fun _ => hk

/-- A statement and those behind it teach what they say. -/
theorem cons (hcall : call.Sound c.dialect) {s₁ : Stmt} {rest : List Stmt}
    (hone : s₁.Teaches c call) (hmore : Stmt.TeachesSeq c call rest) :
    Stmt.TeachesSeq c call (s₁ :: rest) := by
  intro v inLoop k s hne hv hfit h henv hk
  rw [Stmt.FitsSeq] at h
  rw [Stmt.runSeq, Stmt.flowSeq, Sight.afterSeq_cons]
  refine ((Stmt.run_sound hcall hv hfit h.1 henv).and
    (hone hne hv hfit h.1 henv hk)).bind ?_
  rintro flow t ⟨ht, hknown⟩
  cases flow with
  -- Control goes on: the others start from what the first one has taught.
  | next =>
      have hrest := hmore (Sight.vars_after_ne hne s₁)
        (Stmt.Fits.distinct_after hv h.1) (by rw [Sight.functions_after]; exact hfit) h.2 ht.holds
          (hknown rfl)
      rw [Sight.functions_after] at hrest
      exact hrest
  -- Control leaves, and nothing is claimed.
  | brk => exact Ends.pure fun hflow => absurd hflow (by rintro ⟨⟩)
  | cont => exact Ends.pure fun hflow => absurd hflow (by rintro ⟨⟩)

end Stmt.TeachesSeq

namespace Stmt.Teaches

/-- A statement of one expression teaches nothing. -/
theorem expr (hcall : call.Sound c.dialect) {line : Nat} {e : Expr} :
    (Stmt.expr line e).Teaches c call := by
  intro v inLoop k s hne hv hfit h henv hk
  refine (Stmt.run_sound hcall hv hfit h henv).mono fun flow t ht _ => ?_
  rw [Stmt.flow]
  have hvalid := hk.keeps henv ht.keeps (List.Subset.refl _)
  refine hvalid.sub fun x e hx => mem_forget.mpr ⟨evaluated_sub _ _ _ x e hx, ?_⟩
  exact ⟨List.not_mem_nil, fun _ _ => List.not_mem_nil⟩

/-- An assignment teaches the value of its name. -/
theorem assign (hcall : call.Sound c.dialect) {line : Nat} {targets : List Identifier}
    {value : Expr} : (Stmt.assign line targets value).Teaches c call := by
  intro v inLoop k s hne hv hfit h henv hk
  rw [Stmt.Fits] at h
  rw [Stmt.run, Stmt.flow]
  refine Ends.stepped fun s₀ hs₀ => ?_
  have henv₀ := hs₀.holds henv
  refine (Expr.run_sound hcall hv hfit h.1 henv₀).run_eq.bind ?_
  rintro values t ⟨⟨hlength, hst⟩, hrun⟩
  rw [if_pos hlength]
  -- Every target is visible, so that all assignments succeed.
  have hpairs : ∀ p ∈ (targets.map (·.name)).zip values, p.1 ∈ v.visible := by
    intro p hp
    rcases List.mem_map.mp (List.of_mem_zip hp).1 with ⟨target, htarget, hname⟩
    rw [← hname]
    exact h.2 target htarget
  refine (Ends.assignAll hpairs (hst.holds henv₀)).bind ?_
  rintro _ u ⟨hmachine, _, hget⟩
  refine Ends.pure fun _ => ?_
  -- Only the targets have other values afterwards.
  have hkeeps : Keeps v.visible (targets.map (·.name)) s₀ u :=
    .of_lookup hst (by rw [hmachine]) fun x _ => hget x
  refine (hk.steady henv hs₀).assigned_values henv₀ ?_ hrun hkeeps (List.Subset.refl _) hget
  rw [List.length_map]
  exact h.1

/-- A variable that is declared without a value is known to be zero. -/
theorem decl_none {line : Nat} {vars : List TypedName} :
    (Stmt.decl line vars none).Teaches c call := by
  intro v inLoop k s hne hv hfit h henv hk
  rw [Stmt.Fits] at h
  rw [Stmt.run, Stmt.flow]
  refine Ends.stepped fun s₀ hs₀ => ?_
  have henv₀ := hs₀.holds henv
  refine Ends.bind (P := fun values t => values = List.replicate vars.length 0 ∧ t = s₀)
    ⟨rfl, rfl⟩ ?_
  rintro _ t ⟨rfl, rfl⟩
  beta_reduce
  rw [if_pos List.length_replicate]
  -- The values are zeros, and there are as many as names.
  refine Ends.ok fun _ => ?_
  have hget := fun x => Environment.get?_declareAll (y := x)
    ((vars.map (·.name)).zip (List.replicate vars.length 0)) (henv₀.ne_nil hne)
  have hkeeps : Keeps v.visible (vars.map (·.name)) t
      { t with env := Environment.declareAll
                ((vars.map (·.name)).zip (List.replicate vars.length 0)) t.env } :=
    .of_lookup (.refl t) rfl fun x _ => hget x
  refine (hk.steady henv hs₀).assigned call [] henv₀ hkeeps
    (v.visible_subset_after _) ?_
  -- A value is learned for a single name only.
  intro x e hvalue _ hnames
  match vars, hvalue, hnames, hget with
  | [var], hvalue, hnames, hget =>
      obtain rfl := Option.some.inj hvalue
      have hzero := Literal.value_zero line var.type
      refine ⟨?_, 0, ?_, ?_⟩
      · rw [Expr.Yields]
        exact ⟨⟨0, hzero⟩, rfl⟩
      · obtain rfl : var.name = x := (hnames var.name).mp (List.mem_singleton_self _)
        exact (hget var.name).trans (by
          simp only [List.map_cons, List.map_nil, List.length_cons, List.length_nil,
            List.replicate_succ, List.replicate_zero, List.zip_cons_cons, List.zip_nil_left,
            List.reverse_singleton, List.lookup_cons, beq_self_eq_true, Option.some_or])
      · simp only [Expr.run, Run.literal, hzero]
        rfl

/-- A declaration teaches the value of its name. -/
theorem decl_some (hcall : call.Sound c.dialect) {line : Nat} {vars : List TypedName}
    {value : Expr} : (Stmt.decl line vars (some value)).Teaches c call := by
  intro v inLoop k s hne hv hfit h henv hk
  rw [Stmt.Fits] at h
  rw [Stmt.run, Stmt.flow]
  refine Ends.stepped fun s₀ hs₀ => ?_
  have henv₀ := hs₀.holds henv
  have hyields := h.1 value rfl
  refine (Expr.run_sound hcall hv hfit hyields henv₀).run_eq.bind ?_
  rintro values t ⟨⟨hlength, hst⟩, hrun⟩
  beta_reduce
  rw [if_pos hlength]
  refine Ends.ok fun _ => ?_
  have hget := fun x => Environment.get?_declareAll (y := x)
    ((vars.map (·.name)).zip values) ((hst.holds henv₀).ne_nil hne)
  -- The declared names are new in the scope; the others keep their values.
  have hkeeps : Keeps v.visible (vars.map (·.name)) s₀
      { t with env := t.env.declareAll ((vars.map (·.name)).zip values) } :=
    .of_lookup hst rfl fun x _ => hget x
  refine (hk.steady henv hs₀).assigned_values henv₀ ?_ hrun hkeeps
    (v.visible_subset_after _) hget
  rw [List.length_map]
  exact hyields

/-- A function definition teaches nothing. -/
theorem func {line : Nat} {name : String} {params returns : List TypedName} {body : Block} :
    (Stmt.func line name params returns body).Teaches c call := by
  intro v inLoop k s hne hv hfit h henv hk
  rw [Stmt.run, Stmt.flow]
  exact Ends.stepped fun s₀ hs₀ => Ends.pure fun _ => hk.steady henv hs₀

/-- Behind a branch only that is known which was known in front of it, and not assigned. -/
theorem cond (hcall : call.Sound c.dialect) {line : Nat} {test : Expr} {body : Block} :
    (Stmt.cond line test body).Teaches c call := by
  intro v inLoop k s hne hv hfit h henv hk
  refine Stmt.run_flow_of_sub hcall hv hfit h henv hk ?_
  rw [Stmt.flow]
  exact (Block.flow_forget_sub (List.Subset.refl _)).trans
    (Sub.forget (evaluated_sub _ _ _) (List.Subset.refl _))

/-- A switch teaches nothing. -/
theorem switch (hcall : call.Sound c.dialect) {line : Nat} {subject : Expr} {cases : List Case} :
    (Stmt.switch line subject cases).Teaches c call := by
  intro v inLoop k s hne hv hfit h henv hk
  refine Stmt.run_flow_of_sub hcall hv hfit h henv hk ?_
  rw [Stmt.flow]
  exact Case.flowSeq_forget_sub.trans (Sub.forget (evaluated_sub _ _ _) (List.Subset.refl _))

/-- Whatever the rounds do, they assign to what is forgotten at their head. -/
theorem loop (hcall : call.Sound c.dialect) {line preLine : Nat} {pre : List Stmt} {test : Expr}
    {post body : Block} (hinit : Stmt.TeachesSeq c call pre) :
    (Stmt.loop line ⟨preLine, pre⟩ test post body).Teaches c call := by
  intro v inLoop k s hne hv hfit h henv hk
  rcases Stmt.Fits.loop_parts hv hfit h with
    ⟨⟨hin, hfin, hpre⟩, hout, hfout, htest, hbody, hpost⟩
  -- What a loop does behind its init part is known from the rounds.
  have hrounds := fun t => Stmt.rounds_sound (s := t) hcall hout hfout htest hbody hpost
  simp only [Sight.functions_afterSeq] at hrounds
  rw [Stmt.run]
  refine Ends.stepped fun s₀ hs₀ => ?_
  have henv' := (hs₀.holds henv).enter pre
  have hk' := (hk.steady henv hs₀).enter (hs₀.holds henv) pre
  refine Ends.bind (P := fun _ t => ((Stmt.loop line ⟨preLine, pre⟩ test post body).flow
    c.dialect k).Valid c v t) ?_ fun _ t ht => Ends.pure fun _ => ht
  refine Ends.inScope ?_
  refine ((Stmt.runSeq_sound hcall hin hfin hpre henv').and
    (hinit (List.cons_ne_nil _ _) hin hfin hpre henv' hk')).bind ?_
  rintro flow t ⟨ht, hknown⟩
  -- Nothing leaves the init part of a loop that fits.
  obtain rfl : flow = .next := by
    by_contra hflow
    exact absurd (ht.leaves hflow) Bool.false_ne_true
  refine (hrounds t _ ht.holds).mono fun _ u hu => ?_
  -- The rounds change no more than the names that are assigned in them.
  have hvalid := (hknown rfl).keeps ht.holds hu.keeps (List.Subset.refl _)
  have hholds := hu.holds
  rw [Sight.afterSeq_eq] at hvalid hholds
  exact (hvalid.close hholds).sub Stmt.flow_loop_sub

theorem brk {line : Nat} : (Stmt.brk line).Teaches c call := by
  intro v inLoop k s _ _ _ _ _ _
  rw [Stmt.run]
  exact Ends.stepped fun _ _ => Ends.pure fun hflow => absurd hflow (by rintro ⟨⟩)

/-- A continue teaches nothing, since control leaves. -/
theorem cont {line : Nat} : (Stmt.cont line).Teaches c call := by
  intro v inLoop k s _ _ _ _ _ _
  rw [Stmt.run]
  exact Ends.stepped fun _ _ => Ends.pure fun hflow => absurd hflow (by rintro ⟨⟩)

/-- A nested block teaches what it does as a block. -/
theorem block {b : Block} (hinner : b.Teaches c call) : (Stmt.block b).Teaches c call := by
  intro v inLoop k s hne hv hfit h henv hk
  rw [Stmt.Fits] at h
  rw [Stmt.run, Stmt.flow]
  exact Ends.stepped fun s₀ hs₀ =>
    hinner hv hfit h (hs₀.holds henv) (hk.steady henv hs₀)

theorem label {line : Nat} {name : String} : (Stmt.label line name).Teaches c call := by
  intro _ _ _ _ _ _ _ h _ _
  rw [Stmt.Fits] at h
  exact False.elim h

/-- An assignment from the stack does not fit. -/
theorem stackAssign {line : Nat} {target : Identifier} :
    (Stmt.stackAssign line target).Teaches c call := by
  intro _ _ _ _ _ _ _ h _ _
  rw [Stmt.Fits] at h
  exact False.elim h

end Stmt.Teaches

mutual

/-- What is known behind a block holds there. -/
theorem Block.run_flow (hcall : call.Sound c.dialect) : ∀ {b : Block}, b.Teaches c call
  | ⟨_, _⟩ => .of_stmts hcall (Stmt.runSeq_flow hcall)

/-- Statements teach what the walk says behind them. -/
theorem Stmt.runSeq_flow (hcall : call.Sound c.dialect) : ∀ {stmts : List Stmt},
    Stmt.TeachesSeq c call stmts
  | [] => .nil
  | _ :: _ => .cons hcall (Stmt.run_flow hcall) (Stmt.runSeq_flow hcall)

/-- What is known behind a statement holds there. -/
theorem Stmt.run_flow (hcall : call.Sound c.dialect) : ∀ {s₁ : Stmt}, s₁.Teaches c call
  | .expr _ _ => .expr hcall
  | .assign _ _ _ => .assign hcall
  | .decl _ _ none => .decl_none
  | .decl _ _ (some _) => .decl_some hcall
  | .func _ _ _ _ _ => .func
  | .cond _ _ _ => .cond hcall
  | .switch _ _ _ => .switch hcall
  | .loop _ ⟨_, _⟩ _ _ _ => .loop hcall (Stmt.runSeq_flow hcall)
  | .brk _ => .brk
  | .cont _ => .cont
  | .block _ => .block (Block.run_flow hcall)
  | .label _ _ => .label
  | .stackAssign _ _ => .stackAssign

end

end Soundness

end YulToolchain
