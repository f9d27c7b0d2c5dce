import YulToolchain.Proofs.Flow.Interrupted
import YulToolchain.Proofs.Pass.Copied
import YulToolchain.Proofs.Syntax.Evaluation

/-!
# Numbers of References

The numbers of references that the rematerialiser keeps are those of the code, at every point
of its walk.

A copy puts a value in the place of a read. It takes one reference away and adds all in the
value, and some of these are replaced in turn while the value is walked. What is kept up is
a balance: the numbers of references are those in the part that is walked, as it is by
then, together with those around it. The part may be anything, and what is around it does
not change while the part is walked, so the balance is told for any numbers around
(`Balance`), and code next to a part that is walked first counts as around it.

A course says which part it begins with only through the tasks in it. `Course.Carries` is the
condition that its parts add up: what its first part leaves is what the next one begins with,
and so on. For each task this is looked at one step deep (`Task.course_carries`), and what
it means for a walk is seen by induction over the walk (`Course.Does.balanced`).

All this is done for any state of a pass that is to fit the numbers of references in the code.
With an interrupted pass it says what holds on the way: when a call is made, the state of the
pass fits the code as it is by then, and what the pass is shown is a part of that. In front
of a read there is then a reference that a copy can take away.

## Main definitions

* `Task.references`: The references in what is walked.
* `Balance`: The state of a pass fits a part of the code and what is around it.
* `Course.Carries`: The parts of a course add up.
* `Policy.Balanced`: A pass keeps the balance with what it does.
* `Interrupted.Fits`: What holds when a pass is interrupted.

## Theorems

* `Task.course_carries`: The parts of a task add up.
* `Flow.run_fits`: A pass that keeps the balance ends in a state that fits the result.
* `Policy.Balanced.interrupted`: It keeps the balance also when it is interrupted.
* `reference_counts_are_exact`: At every call of the rematerialiser and at its end the numbers of
  references are those in the code as it is by then.
-/

namespace YulToolchain

/-- The references in a statement and inside it. -/
def Stmt.references (s : Stmt) : List String :=
  (s :: s.allInner).flatMap fun s => Expr.referencesAll s.exprsHere

/-- The references in some statements and inside them. -/
def Stmt.referencesSeq (stmts : List Stmt) : List String :=
  (Stmt.allStmtsSeq stmts).flatMap fun s => Expr.referencesAll s.exprsHere

/-- The references inside some cases. -/
def Case.referencesSeq (cases : List Case) : List String :=
  (Case.allStmtsSeq cases).flatMap fun s => Expr.referencesAll s.exprsHere

/-- The references in what is walked. -/
def Task.references : {α : Type} → Task α → α → List String
  | _, .expr _ => Expr.references
  | _, .args _ => Expr.referencesAll
  | _, .block _ => Block.references
  | _, .stmts _ => Stmt.referencesSeq
  | _, .stmt _ => Stmt.references
  | _, .cases _ => Case.referencesSeq

/-- How often what is walked refers to a name. -/
def Task.count {α : Type} (t : Task α) (a : α) (x : String) : Nat := (t.references a).count x

section Counting

variable {x : String} {line : Nat}

/-- The references of a list begin with those of its first expression. -/
theorem Expr.count_referencesAll_cons (e : Expr) (rest : List Expr) :
    (Expr.referencesAll (e :: rest)).count x
      = e.references.count x + (Expr.referencesAll rest).count x := by
  rw [Expr.referencesAll, List.count_append]

theorem Block.references_mk (stmts : List Stmt) :
    Block.references ⟨line, stmts⟩ = Stmt.referencesSeq stmts := rfl

/-- The references of a statement are those of its own expressions and those inside of it. -/
theorem Stmt.count_references (s : Stmt) : s.references.count x
    = (Expr.referencesAll s.exprsHere).count x
      + (s.allInner.flatMap fun s => Expr.referencesAll s.exprsHere).count x := by
  rw [Stmt.references, List.flatMap_cons, List.count_append]

/-- The references of statements begin with those of the first one. -/
theorem Stmt.count_referencesSeq_cons (s : Stmt) (rest : List Stmt) :
    (Stmt.referencesSeq (s :: rest)).count x
      = s.references.count x + (Stmt.referencesSeq rest).count x := by
  rw [Stmt.referencesSeq, Stmt.allStmtsSeq, ← List.cons_append, List.flatMap_append,
    List.count_append]
  rfl

/-- The references of two lists in a row. -/
theorem Stmt.count_referencesSeq_append (stmts rest : List Stmt) :
    (Stmt.referencesSeq (stmts ++ rest)).count x
      = (Stmt.referencesSeq stmts).count x + (Stmt.referencesSeq rest).count x := by
  induction stmts with
  | nil => exact (Nat.zero_add _).symm
  | cons s stmts ih =>
      rw [List.cons_append, count_referencesSeq_cons, count_referencesSeq_cons, ih, Nat.add_assoc]

/-- The references of cases begin with those of the first body. -/
theorem Case.count_referencesSeq_cons (value : Option Literal) (body : Block)
    (rest : List Case) : (Case.referencesSeq (⟨line, value, body⟩ :: rest)).count x
      = body.references.count x + (Case.referencesSeq rest).count x := by
  rw [Case.referencesSeq, Case.allStmtsSeq, List.flatMap_append, List.count_append]
  rfl

end Counting

section Statements

variable (x : String) (line : Nat)

theorem Expr.count_referencesAll_singleton (e : Expr) :
    (Expr.referencesAll [e]).count x = e.references.count x := by
  rw [Expr.count_referencesAll_cons]
  rfl

theorem Stmt.count_references_expr (e : Expr) :
    (Stmt.expr line e).references.count x = e.references.count x :=
  (count_references _).trans (Expr.count_referencesAll_singleton x e)

theorem Stmt.count_references_assign (targets : List Identifier) (value : Expr) :
    (Stmt.assign line targets value).references.count x = value.references.count x :=
  (count_references _).trans (Expr.count_referencesAll_singleton x value)

/-- The references of a declaration. -/
theorem Stmt.count_references_decl (vars : List TypedName) (value : Option Expr) :
    (Stmt.decl line vars value).references.count x
      = (Expr.referencesAll value.toList).count x := by
  cases value with
  | none => rfl
  | some value => exact count_references _

theorem Stmt.count_references_func (name : String) (params returns : List TypedName)
    (body : Block) :
    (Stmt.func line name params returns body).references.count x = body.references.count x :=
  (count_references _).trans (Nat.zero_add _)

/-- The references of a conditional. -/
theorem Stmt.count_references_cond (test : Expr) (body : Block) :
    (Stmt.cond line test body).references.count x
      = test.references.count x + body.references.count x := by
  rw [count_references, exprsHere, Expr.count_referencesAll_singleton]
  rfl

/-- The references of a switch. -/
theorem Stmt.count_references_switch (subject : Expr) (cases : List Case) :
    (Stmt.switch line subject cases).references.count x
      = subject.references.count x + (Case.referencesSeq cases).count x := by
  rw [count_references, exprsHere, Expr.count_referencesAll_singleton]
  rfl

/-- The references of a loop. -/
theorem Stmt.count_references_loop (pre : Block) (test : Expr) (post body : Block) :
    (Stmt.loop line pre test post body).references.count x
      = test.references.count x + (pre.references.count x + body.references.count x
        + post.references.count x) := by
  rw [count_references, exprsHere, Expr.count_referencesAll_singleton, allInner,
    List.flatMap_append, List.flatMap_append, List.count_append, List.count_append]
  rfl

theorem Stmt.count_references_block (b : Block) :
    (Stmt.block b).references.count x = b.references.count x :=
  (count_references _).trans (Nat.zero_add _)

end Statements

section Balance

variable {σ : Type} (fits : (String → Nat) → σ → Prop)

/-- The state of a pass fits the numbers of references in a part of the code and around it. -/
def Balance (around inside : String → Nat) (own : σ) : Prop :=
  fits (fun x => around x + inside x) own

/-- A pass keeps the balance: where its state fits what it is shown and what is around that, it
    fits afterwards what the pass has put there. -/
structure Policy.Balanced (p : Policy σ) : Prop where
  enter : ∀ k e own around, Balance fits around (e.references.count ·) own →
    Balance fits around ((p.enter k e own).1.references.count ·) (p.enter k e own).2
  leave : ∀ k e own around, Balance fits around (e.references.count ·) own →
    Balance fits around ((p.leave k e own).1.references.count ·) (p.leave k e own).2
  replace : ∀ k s own around, Balance fits around (s.references.count ·) own →
    Balance fits around (((p.replace k s own).1.elim s.references Stmt.referencesSeq).count ·)
      (p.replace k s own).2

namespace Course

/-- The parts of a course add up: it begins with some references, what a part leaves is what the
    next one begins with, and at the end there are those in the result. What is not a part of
    a task is next to it and stays the same. -/
def Carries : {α : Type} → (String → Nat) → Course σ α → (α → String → Nat) → Prop
  | _, before, .turn f, after => ∀ k own a own' around, f k own = some (a, own') →
      Balance fits around before own → Balance fits around (after a) own'
  | _, before, .change _, after => ∀ x, before x = after () x
  | _, before, .apart _ m, after => Carries before m after
  | _, before, .task t, after => ∃ next : String → Nat,
      (∀ x, before x = t.count t.input x + next x) ∧ ∀ a x, after a x = t.count a x + next x
  | _, before, .bind m f, after => ∃ between,
      Carries before m between ∧ ∀ a, Carries (between a) (f a) after

end Course

end Balance

section Carrying

variable {σ : Type} {fits : (String → Nat) → σ → Prop}

/-- A balance depends on the sum of both counts only. -/
theorem Balance.congr {around inside around' inside' : String → Nat} {own : σ}
    (h : Balance fits around inside own) (hsum : ∀ x, around x + inside x = around' x + inside' x) :
    Balance fits around' inside' own := by
  rw [Balance, ← funext hsum]
  exact h

namespace Course

variable {α β : Type} {before : String → Nat}

theorem Carries.pure {a : α} {after : α → String → Nat} (h : ∀ x, before x = after a x) :
    Carries fits before (Pure.pure a) after := by
  rintro k own _ _ around ⟨⟩ hbalance
  exact hbalance.congr fun x => congrArg (around x + ·) (h x)

/-- Turning to a pass that keeps the balance. -/
theorem Carries.answer {f : Known → σ → α × σ} {after : α → String → Nat}
    (h : ∀ k own around, Balance fits around before own →
      Balance fits around (after (f k own).1) (f k own).2) :
    Carries fits before (.turn fun k own => some (f k own)) after := by
  intro k own a own' around hanswer hbalance
  have hf : f k own = (a, own') := Option.some.inj hanswer
  have hkept := h k own around hbalance
  rw [hf] at hkept
  exact hkept

/-- Two parts carry the balance one behind the other. -/
theorem Carries.bind {m : Course σ α} {f : α → Course σ β} {after : β → String → Nat}
    (between : α → String → Nat) (hm : Carries fits before m between)
    (hf : ∀ a, Carries fits (between a) (f a) after) : Carries fits before (m >>= f) after :=
  ⟨between, hm, hf⟩

theorem Carries.map {m : Course σ α} {f : α → β} {after : β → String → Nat}
    (between : α → String → Nat) (hm : Carries fits before m between)
    (h : ∀ a x, between a x = after (f a) x) : Carries fits before (f <$> m) after :=
  ⟨between, hm, fun a => .pure (h a)⟩

theorem Carries.change {f : Unit → Course σ α} {c : Change} {after : α → String → Nat}
    (hf : Carries fits before (f ()) after) : Carries fits before (.change c >>= f) after :=
  .bind (fun _ => before) (fun _ => rfl) fun _ => hf

/-- A task with something next to it. -/
theorem Carries.task {t : Task α} {f : α → Course σ β} {after : β → String → Nat}
    (next : String → Nat) (hbefore : ∀ x, before x = t.count t.input x + next x)
    (hf : ∀ a, Carries fits (fun x => t.count a x + next x) (f a) after) :
    Carries fits before (.task t >>= f) after :=
  .bind (fun a x => t.count a x + next x) ⟨next, hbefore, fun _ _ => rfl⟩ hf

/-- The effect of an evaluated expression is no reference. -/
theorem Carries.evaluated (d : Dialect) (e : Expr) :
    Carries fits before (Course.evaluated d e) fun _ => before := by
  unfold Course.evaluated
  split
  · exact fun _ => rfl
  · exact .pure fun _ => rfl

/-- The expression of a statement with something next to it. -/
theorem Carries.root {d : Dialect} {e : Expr} {f : Expr → Course σ α}
    {after : α → String → Nat} (next : String → Nat)
    (hbefore : ∀ x, before x = e.references.count x + next x)
    (hf : ∀ e', Carries fits (fun x => e'.references.count x + next x) (f e') after) :
    Carries fits before (Course.root d e >>= f) after := by
  refine .bind (fun e' x => e'.references.count x + next x) ?_ hf
  refine .task next hbefore fun e' => ?_
  exact .bind _ (.evaluated d e') fun _ => .pure fun _ => rfl

/-- The arguments of an expression carry their references. -/
theorem arguments_carries {d : Dialect} (e : Expr) :
    Carries fits (e.references.count ·) (arguments d e) fun e' x => e'.references.count x := by
  cases e with
  | literal l => exact .pure fun _ => rfl
  | ident line name => exact .pure fun _ => rfl
  | instr line op es =>
      exact .map (fun es' x => (Expr.referencesAll es').count x)
        ⟨fun _ => 0, fun _ => rfl, fun _ _ => rfl⟩ fun _ _ => rfl
  | call line name es =>
      rw [arguments]
      split
      · exact .pure fun _ => rfl
      · -- The name that is called is next to the arguments.
        refine .map (fun es' x => (name :: Expr.referencesAll es').count x)
          ⟨fun x => if name == x then 1 else 0, fun x => ?_, fun es' x => ?_⟩ fun _ _ => rfl
        · exact List.count_cons
        · exact List.count_cons

end Course

open Course

variable {d : Dialect} {p : Policy σ}

/-- The parts of a task add up. -/
theorem Task.course_carries (hp : p.Balanced fits) : ∀ {α : Type} (t : Task α),
    Carries fits (t.count t.input) (t.course d p.companion) t.count
  | _, .expr e => by
      -- The hook before, the arguments, and the hook behind.
      refine .bind (fun e' x => e'.references.count x) (.answer (hp.enter · e)) fun e' => ?_
      refine .bind (fun e' x => e'.references.count x) (arguments_carries e') fun e' => ?_
      exact .answer (hp.leave · e')
  | _, .args [] => .pure fun _ => rfl
  | _, .args (e :: rest) => by
      -- The last argument is walked first.
      refine .task (fun x => e.references.count x) (fun x => ?_) fun rest' => ?_
      · exact (Expr.count_referencesAll_cons e rest).trans (Nat.add_comm _ _)
      · refine .task (fun x => (Expr.referencesAll rest').count x) (fun x => Nat.add_comm _ _)
          fun e' => .pure fun x => ?_
        exact (Expr.count_referencesAll_cons e' rest').symm
  | _, .block ⟨line, ss⟩ => by
      refine .change (.task (fun _ => 0) (fun _ => rfl) fun ss' => .change (.pure fun _ => rfl))
  | _, .stmts [] => .pure fun _ => rfl
  | _, .stmts (s :: rest) => by
      refine .bind (fun r x => (r.elim Stmt.referencesSeq Stmt.references).count x
        + (Stmt.referencesSeq rest).count x) ?_ fun r => ?_
      · -- While the pass is asked, the statements that follow are around the one it is shown.
        rintro k own _ _ around ⟨⟩ hbalance
        have hhere : Balance fits (fun x => around x + (Stmt.referencesSeq rest).count x)
            (s.references.count ·) own := hbalance.congr fun x => by
          show _ + (Stmt.referencesSeq (s :: rest)).count x = _
          rw [Stmt.count_referencesSeq_cons]
          omega
        refine (hp.replace k s own _ hhere).congr fun x => ?_
        cases (p.replace k s own).1 with
        | none => exact Nat.add_right_comm _ _ _ |>.trans (Nat.add_assoc _ _ _)
        | some stmts => exact Nat.add_right_comm _ _ _ |>.trans (Nat.add_assoc _ _ _)
      · cases r with
        -- The statements that come in its place are walked with the others.
        | inl replacement =>
            exact ⟨fun _ => 0, fun x => (Stmt.count_referencesSeq_append replacement rest).symm,
              fun _ _ => rfl⟩
        | inr s =>
            refine .task (fun x => (Stmt.referencesSeq rest).count x) (fun x => rfl) fun s' => ?_
            refine .task (fun x => s'.references.count x) (fun x => Nat.add_comm _ _)
              fun rest' => .pure fun x => ?_
            exact (Nat.add_comm _ _).trans (Stmt.count_referencesSeq_cons s' rest').symm
  | _, .stmt (.expr line e) => by
      refine .root (fun _ => 0) (fun x => ?_) fun e' => .pure fun x => ?_
      · exact Stmt.count_references_expr x line e
      · exact (Stmt.count_references_expr x line e').symm
  | _, .stmt (.assign line targets value) => by
      refine .root (fun _ => 0) (fun x => ?_) fun value' => .change (.pure fun x => ?_)
      · exact Stmt.count_references_assign x line targets value
      · exact (Stmt.count_references_assign x line targets value').symm
  | _, .stmt (.decl line vars value) => by
      refine .bind (fun value' x => (Expr.referencesAll value'.toList).count x) ?_
        fun value' => .change (.change (.pure fun x => ?_))
      -- A declaration without a value has no references.
      · cases value with
        | none => exact .pure fun _ => rfl
        | some value =>
            refine .root (fun _ => 0) (fun x => ?_) fun value' => .pure fun x => ?_
            · exact Stmt.count_references_decl x line vars (some value)
                |>.trans (Expr.count_referencesAll_singleton x value)
            · exact (Expr.count_referencesAll_singleton x value').symm
      · exact (Stmt.count_references_decl x line vars value').symm
  | _, .stmt (.func line name params returns body) => by
      -- The body is counted apart, and what surrounds it stays.
      refine .bind (fun body' x => body'.references.count x) ?_ fun body' => .pure fun x => ?_
      · exact ⟨fun _ => 0, fun x => Stmt.count_references_func x line name params returns body,
          fun _ _ => rfl⟩
      · exact (Stmt.count_references_func x line name params returns body').symm
  | _, .stmt (.cond line test body) => by
      refine .root (fun x => body.references.count x) (fun x => ?_) fun test' => ?_
      · exact Stmt.count_references_cond x line test body
      · refine .task (fun x => test'.references.count x) (fun x => Nat.add_comm _ _)
          fun body' => .change (.pure fun x => ?_)
        exact (Nat.add_comm _ _).trans (Stmt.count_references_cond x line test' body').symm
  | _, .stmt (.switch line subject cs) => by
      refine .root (fun x => (Case.referencesSeq cs).count x) (fun x => ?_) fun subject' => ?_
      · exact Stmt.count_references_switch x line subject cs
      · refine .task (fun x => subject'.references.count x) (fun x => Nat.add_comm _ _)
          fun cs' => .pure fun x => ?_
        exact (Nat.add_comm _ _).trans (Stmt.count_references_switch x line subject' cs').symm
  | _, .stmt (.loop line ⟨preLine, pre⟩ test post body) => by
      -- The parts are walked in the order in which they run, each next to the three others.
      refine .change (.task (fun x => test.references.count x + body.references.count x
        + post.references.count x) (fun x => ?_) fun pre' => .change ?_)
      · refine (Stmt.count_references_loop x line ⟨preLine, pre⟩ test post body).trans ?_
        show _ = (Stmt.referencesSeq pre).count x + _
        rw [Block.references_mk]
        omega
      refine .root (fun x => (Stmt.referencesSeq pre').count x + body.references.count x
        + post.references.count x) (fun x => ?_) fun test' => ?_
      · show (Stmt.referencesSeq pre').count x + _ = _
        omega
      refine .task (fun x => test'.references.count x + (Stmt.referencesSeq pre').count x
        + post.references.count x) (fun x => ?_) fun body' => .change ?_
      · show _ = body.references.count x + _
        omega
      refine .task (fun x => test'.references.count x + (Stmt.referencesSeq pre').count x
        + body'.references.count x) (fun x => ?_) fun post' => .change (.change (.pure fun x => ?_))
      · show body'.references.count x + _ = post.references.count x + _
        omega
      · refine Eq.trans ?_
          (Stmt.count_references_loop x line ⟨preLine, pre'⟩ test' post' body').symm
        show post'.references.count x + _ = _
        rw [Block.references_mk]
        omega
  | _, .stmt (.block b) => by
      refine .task (fun _ => 0) (fun x => ?_) fun b' => .pure fun x => ?_
      · exact Stmt.count_references_block x b
      · exact (Stmt.count_references_block x b').symm
  | _, .stmt (.label _ _) => .change (.pure fun _ => rfl)
  | _, .stmt (.stackAssign _ _) => .change (.pure fun _ => rfl)
  | _, .stmt (.brk _) => .pure fun _ => rfl
  | _, .stmt (.cont _) => .pure fun _ => rfl
  | _, .cases [] => .pure fun _ => rfl
  | _, .cases (⟨line, value, body⟩ :: rest) => by
      -- The other cases are around the body that is walked.
      refine .task (fun x => (Case.referencesSeq rest).count x) (fun x => ?_)
        fun body' => .change ?_
      · exact Case.count_referencesSeq_cons value body rest
      · refine .task (fun x => body'.references.count x) (fun x => Nat.add_comm _ _)
          fun rest' => .pure fun x => ?_
        exact (Nat.add_comm _ _).trans (Case.count_referencesSeq_cons value body' rest').symm

section Runs

variable {α : Type} {cuts : Prop} {m : Course σ α} {st st' : WalkState σ} {a : α}

/-- What is next to a task belongs to what is around it. -/
theorem Course.Carries.inner {t : Task α} {before around : String → Nat}
    {after : α → String → Nat} {own : σ} (h : Carries fits before (.task t) after)
    (hbalance : Balance fits around before own) :
    ∃ around', Balance fits around' (t.count t.input) own ∧ ∀ a own',
      Balance fits around' (t.count a) own' → Balance fits around (after a) own' := by
  rcases h with ⟨next, hbefore, hafter⟩
  refine ⟨fun x => around x + next x, hbalance.congr fun x => ?_,
    fun a own' hinner => hinner.congr fun x => ?_⟩
  · rw [hbefore]
    omega
  · rw [hafter]
    omega

/-- A walk that comes to an end keeps the balance. -/
theorem Course.Does.balanced (hp : p.Balanced fits) (h : Does d p.companion cuts m st a st') :
    ∀ {before around : String → Nat} {after : α → String → Nat}, Carries fits before m after →
      Balance fits around before st.own → Balance fits around (after a) st'.own := by
  induction h with
  | turn hturn => exact fun hm hbalance => hm _ _ _ _ _ hturn hbalance
  | change c st =>
      -- Only the pass changes its state, and nothing of the code goes with a change.
      intro before around after hm hbalance
      rw [Change.apply_own]
      exact hbalance.congr fun x => congrArg (around x + ·) (hm x)
  | apart inner ih => exact fun hm hbalance => ih hm hbalance
  | task whole ih =>
      intro before around after hm hbalance
      rcases hm.inner hbalance with ⟨around', hhere, hback⟩
      exact hback _ _ (ih (Task.course_carries hp _) hhere)
  | cut hcut t st =>
      intro before around after hm hbalance
      rcases hm.inner hbalance with ⟨around', hhere, hback⟩
      exact hback _ _ hhere
  | bind first next ihfirst ihnext =>
      rintro before around after ⟨between, hfirst, hnext⟩ hbalance
      exact ihnext (hnext _) (ihfirst hfirst hbalance)

end Runs

/-- A pass that keeps the balance ends in a state that fits the result. -/
theorem Flow.run_fits (hp : p.Balanced fits) {own : σ} {code : Block}
    (h : fits (code.references.count ·) own) :
    fits ((run d p own code).1.references.count ·) (run d p own code).2 := by
  have hcarries : Carries fits (Task.count (.block code) code) (.task (.block code))
      (Task.block code).count := ⟨fun _ => 0, fun _ => rfl, fun _ _ => rfl⟩
  have hstart : Balance fits (fun _ => 0) (Task.count (.block code) code) own := by
    rw [Balance, funext fun x => Nat.zero_add _]
    exact h
  rcases run_tracks (d := d) (p := p) (.inl trivial) own code with ⟨st, hdoes, hown⟩
  have hend := hdoes.balanced hp hcarries hstart
  rw [Balance, funext fun x => Nat.zero_add _, hown] at hend
  exact hend

section Interrupting

/-- The code that a pass is shown. -/
def Hook.references : Hook → List String
  | .enter e => e.references
  | .leave e => e.references
  | .replace s => s.references

/-- The variable of the read in front of which a pass is asked. -/
def Hook.read? : Hook → Option String
  | .enter (.ident _ x) => some x
  | _ => none

/-- A hook that reads a name counts as a reference to it. -/
theorem Hook.count_read? {hook : Hook} {x : String} (h : hook.read? = some x) :
    0 < hook.references.count x := by
  unfold Hook.read? at h
  split at h
  · obtain rfl := Option.some.inj h
    exact List.count_pos_iff.mpr (List.mem_singleton_self _)
  · cases h

/-- What holds of a pass that may be interrupted. Its state fits, and what it is shown when it is
    is a part of the code. -/
def Interrupted.Fits (fits : (String → Nat) → σ → Prop) (total : String → Nat)
    (st : Interrupted σ) : Prop :=
  fits total st.own ∧
    ∀ call ∈ st.pending, st.left = 0 ∧ ∀ x, call.hook.references.count x ≤ total x

/-- If an answer keeps the balance, so does the interruption. -/
theorem Interrupted.answer_balanced {α : Type} {st : Interrupted σ} {call : HookCall} {same : α}
    {f : σ → α × σ} {around : String → Nat} (references : α → List String)
    (hsame : call.hook.references = references same)
    (hf : ∀ own, Balance fits around ((references same).count ·) own →
      Balance fits around ((references (f own).1).count ·) (f own).2)
    (h : Balance (Fits fits) around ((references same).count ·) st) :
    Balance (Fits fits) around ((references (st.answer call same f).1).count ·)
      (st.answer call same f).2 := by
  rcases st with ⟨own, left, pending⟩
  rcases h with ⟨hfits, hpending⟩
  cases left with
  | zero =>
      -- The first call that is not answered shows what is walked here, the others are not kept.
      refine ⟨hfits, fun first hfirst => ?_⟩
      cases pending with
      | none =>
          obtain rfl := Option.some.inj hfirst
          exact ⟨rfl, fun x => hsame ▸ Nat.le_add_left _ _⟩
      | some earlier => exact hpending first hfirst
  | succ left =>
      refine ⟨hf own hfits, fun first hfirst => ?_⟩
      -- If a call was kept, no call is answered any more.
      exact absurd (hpending first hfirst).1 (Nat.succ_ne_zero left)

/-- An interrupted pass keeps the balance as well. -/
theorem Policy.Balanced.interrupted (hp : p.Balanced fits) :
    p.interrupted.Balanced (Interrupted.Fits fits) where
  enter k e _ around h :=
    Interrupted.answer_balanced Expr.references rfl (hp.enter k e · around) h
  leave k e _ around h :=
    Interrupted.answer_balanced Expr.references rfl (hp.leave k e · around) h
  replace k s _ around h :=
    Interrupted.answer_balanced (Option.elim · s.references Stmt.referencesSeq) rfl
      (hp.replace k s · around) h

/-- When such a pass is interrupted, its state fits the code as it is by then. -/
theorem Flow.runFor_fits (hp : p.Balanced fits) {n : Nat} {own : σ} {code code' : Block}
    {st : Interrupted σ} (h : fits (code.references.count ·) own)
    (hrun : runFor d p n own code = (code', st)) :
    Interrupted.Fits fits (code'.references.count ·) st := by
  have hstart : Interrupted.Fits fits (code.references.count ·) ⟨own, n, none⟩ :=
    ⟨h, fun _ hcall => absurd hcall (by rintro ⟨⟩)⟩
  have hend := run_fits (d := d) hp.interrupted hstart
  rw [← runFor, hrun] at hend
  exact hend

end Interrupting

end Carrying

namespace Pass

/-- The rematerialiser puts known values in the place of variables and does nothing else. -/
theorem rematerializeExpr_eases (k : Known) (e : Expr) (references : Table String Nat) :
    e.Eases k (rematerializeExpr k e references).1 := by
  have hkept : e.Eases k e := .inl ⟨Nat.le_refl _, List.Subset.refl _⟩
  cases e with
  | ident line x =>
      unfold rematerializeExpr
      dsimp only
      split
      · rename_i value hvalue
        split
        · exact .inr ⟨line, x, rfl, hvalue⟩
        · exact hkept
      · exact hkept
  | _ => exact hkept

theorem rematerializePolicy_light : rematerializePolicy.Light :=
  ⟨rematerializeExpr_eases, fun _ _ _ _ h => absurd h (by rintro ⟨⟩)⟩

/-- The numbers of references are those in the code. -/
def Exact (total : String → Nat) (references : Table String Nat) : Prop :=
  ∀ x, referenceCount references x = total x

/-- The numbers that are counted in a list are exact for it. -/
theorem exact_tally (names : List String) : Exact (names.count ·) (Table.tally names) := fun x => by
  rw [Table.tally, referenceCount_foldl]
  exact Nat.zero_add _

/-- A copy keeps the numbers of references exact. There is a reference to take away, the read that
    the value takes the place of. -/
theorem balance_countCopy {line : Nat} {x : String} {value : Expr} {around : String → Nat}
    {references : Table String Nat}
    (h : Balance Exact around ((Expr.ident line x).references.count ·) references) :
    Balance Exact around (value.references.count ·) (countCopy x value references) := fun y => by
  -- With the read itself the number of its variable is at least one.
  have hy : referenceCount references y = around y + [x].count y := h y
  rw [referenceCount_countCopy, hy, List.count_singleton]
  simp only [beq_iff_eq, eq_comm (a := x)]
  split
  · omega
  · omega

/-- Copying values keeps the counts exact. -/
theorem rematerializePolicy_balanced : rematerializePolicy.Balanced Exact := by
  refine ⟨fun k e references around h => ?_, fun _ _ _ _ h => h, fun _ _ _ _ h => h⟩
  cases e with
  | ident line x =>
      show Balance Exact around ((rematerializeExpr k _ references).1.references.count ·)
        (rematerializeExpr k _ references).2
      unfold rematerializeExpr
      dsimp only
      split
      · split
        · exact balance_countCopy h
        · exact h
      · exact h
  | _ => exact h

/-- A read in front of which the pass is asked is counted. -/
theorem exists_count_of_read {total : String → Nat} {st : Interrupted (Table String Nat)}
    (h : Interrupted.Fits Exact total st) {x : String}
    (hread : st.pending.bind (·.hook.read?) = some x) : ∃ m, st.own.get? x = some (m + 1) := by
  rcases Option.bind_eq_some_iff.mp hread with ⟨call, hcall, hx⟩
  have hcount : 0 < referenceCount st.own x := by
    rw [h.1 x]
    exact Nat.lt_of_lt_of_le (Hook.count_read? hx) ((h.2 call hcall).2 x)
  rw [referenceCount] at hcount
  cases hget : st.own.get? x with
  | none =>
      rw [hget] at hcount
      exact absurd hcount (by decide)
  | some m =>
      rw [hget] at hcount
      exact ⟨m - 1, congrArg some (Nat.sub_add_cancel hcount).symm⟩

end Pass

open Pass

/-- The numbers of references that the rematerialiser keeps are exact.

    Whatever the number of calls that it has answered, they are for every name the number of
    times that the code as it is by then refers to it, and if the next call is in front of a
    read of a variable, its number can be made one less. If there is no next call, the code
    is the result. At the end the numbers are exact as well, and the walk is not cut before. -/
theorem reference_counts_are_exact (d : Dialect) (code : Block) :
    (∀ n code' st, Flow.runFor d rematerializePolicy n (Table.tally code.references) code
        = (code', st) →
      (∀ x, (st.own.get? x).getD 0 = code'.references.count x) ∧
      (∀ x, st.pending.bind (·.hook.read?) = some x → ∃ m, st.own.get? x = some (m + 1)) ∧
      (st.pending = none → code' = rematerialize d code)) ∧
    (∀ x, ((Flow.run d rematerializePolicy (Table.tally code.references) code).2.get? x).getD 0
      = (rematerialize d code).references.count x) ∧
    ∃ st, Course.Does d rematerializePolicy.companion False (.task (.block code))
      (.start (Table.tally code.references)) (rematerialize d code) st := by
  have hstart := exact_tally code.references
  refine ⟨fun n code' st hrun => ?_, Flow.run_fits rematerializePolicy_balanced hstart, ?_⟩
  -- The walk keeps the counts exact after any number of hook calls.
  · have hend := Flow.runFor_fits rematerializePolicy_balanced hstart hrun
    refine ⟨hend.1, fun _ hread => exists_count_of_read hend hread, fun hnone => ?_⟩
    -- With no call pending the walk is the whole pass.
    rw [rematerialize, Flow.runFor_answered rematerializePolicy_light hrun hnone]
  · rcases Flow.run_tracks (d := d) (.inr rematerializePolicy_light) (Table.tally code.references)
      code with ⟨st, hdoes, -⟩
    exact ⟨st, hdoes⟩

/-- In front of the first argument, when the second one has become its value, and after all
    calls. -/
theorem reference_counts_are_exact_after_copy :
    ∃ code, parseBlock .strictAssembly "{ let a := 7 mstore(a, a) }" = .ok code ∧
      (∃ code' st, Flow.runFor .strictAssembly rematerializePolicy 7
          (Table.tally code.references) code = (code', st) ∧
        (code'.references = ["a"] ∧ st.pending.bind (·.hook.read?) = some "a") ∧
        (∀ x, (st.own.get? x).getD 0 = code'.references.count x) ∧
        ∃ m, st.own.get? "a" = some (m + 1)) ∧
      ∃ st, Flow.runFor .strictAssembly rematerializePolicy 20
          (Table.tally code.references) code = (rematerialize .strictAssembly code, st) ∧
        st.pending.isNone = true := by
  let run (n : Nat) (code : Block) := Flow.runFor .strictAssembly rematerializePolicy n
    (Table.tally code.references) code
  refine exists_of_block? (fun code => decide (((run 7 code).1.references = ["a"] ∧
    (run 7 code).2.pending.bind (·.hook.read?) = some "a") ∧
      (run 20 code).2.pending.isNone = true)) (by decide +kernel) fun code _ htest => ?_
  have hrun := of_decide_eq_true htest
  have hexact (n : Nat) :=
    (reference_counts_are_exact .strictAssembly code).1 n (run n code).1 (run n code).2 rfl
  have hend := (hexact 20).2.2 (Option.isNone_iff_eq_none.mp hrun.2)
  exact ⟨⟨(run 7 code).1, (run 7 code).2, rfl, hrun.1, (hexact 7).1, (hexact 7).2.1 "a" hrun.1.2⟩,
    (run 20 code).2, Prod.ext hend rfl, hrun.2⟩

end YulToolchain
