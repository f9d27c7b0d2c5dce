import YulToolchain.Proofs.Pass.Copied
import YulToolchain.Proofs.Static.Secluded

/-!
# Growth by Copies

How much deeper the expressions of a program get when reads are replaced by known
values.

Every expression of a statement grows by the depth of one value at most, whatever
chains of assignments led there, because copied values are left as they are
(`Flow.visitExpr_copies`). For that, known values have to rest all along the walk.
They do: a value is learned in the form in which it rests, and learning something
about a variable forgets the values that read it.

Functions are the one place where this is not seen from the statements alone. Inside
of a function nothing is known of the variables around it, but the numbers of
references are shared. What a function copies takes references away from variables
that the function changes itself. In an accepted program with different names, these
are others than the variables known around it.

## Main definitions

* `Block.Matched`: The same code with other expressions.
* `AtRest`: Known values rest, and are those of certain variables.
* `Goes`: A walk keeps that up and spares the references to other variables.

## Theorems

* `Known.Rests.assigned`: Known values rest behind an assignment.
* `visitBlock_goes`: So does a walk over secluded code.
* `rematerialized_depth_is_bounded`: Expressions grow by a fixed depth at most.
-/

namespace YulToolchain

mutual

/-- The same code, where expressions of statements are replaced by related ones. -/
def Block.Matched (R : Expr → Expr → Prop) : Block → Block → Prop
  | ⟨line, stmts⟩, b' => ∃ stmts', b' = ⟨line, stmts'⟩ ∧ Stmt.MatchedSeq R stmts stmts'

/-- The same statements with related expressions. -/
def Stmt.MatchedSeq (R : Expr → Expr → Prop) : List Stmt → List Stmt → Prop
  | [], stmts' => stmts' = []
  | s :: rest, stmts' => ∃ s' rest', stmts' = s' :: rest' ∧ s.Matched R s' ∧
      Stmt.MatchedSeq R rest rest'

/-- The same statement with related expressions. -/
def Stmt.Matched (R : Expr → Expr → Prop) : Stmt → Stmt → Prop
  | .expr line e, s' => ∃ e', s' = .expr line e' ∧ R e e'
  | .assign line targets value, s' => ∃ value', s' = .assign line targets value' ∧ R value value'
  | .decl line vars none, s' => s' = .decl line vars none
  | .decl line vars (some value), s' => ∃ value', s' = .decl line vars (some value') ∧
      R value value'
  | .func line name params returns body, s' => ∃ body', s' = .func line name params returns body' ∧
      body.Matched R body'
  | .cond line test body, s' => ∃ test' body', s' = .cond line test' body' ∧ R test test' ∧
      body.Matched R body'
  | .switch line subject cases, s' => ∃ subject' cases', s' = .switch line subject' cases' ∧
      R subject subject' ∧ Case.MatchedSeq R cases cases'
  | .loop line pre test post body, s' => ∃ pre' test' post' body',
      s' = .loop line pre' test' post' body' ∧ pre.Matched R pre' ∧ R test test' ∧
        post.Matched R post' ∧ body.Matched R body'
  | .block b, s' => ∃ b', s' = .block b' ∧ b.Matched R b'
  | .brk line, s' => s' = .brk line
  | .cont line, s' => s' = .cont line
  | .label line name, s' => s' = .label line name
  | .stackAssign line target, s' => s' = .stackAssign line target

/-- The same cases with related expressions. -/
def Case.MatchedSeq (R : Expr → Expr → Prop) : List Case → List Case → Prop
  | [], cases' => cases' = []
  | ⟨line, value, body⟩ :: rest, cases' => ∃ body' rest',
      cases' = ⟨line, value, body'⟩ :: rest' ∧ body.Matched R body' ∧
        Case.MatchedSeq R rest rest'

end

section Matching

variable {R : Expr → Expr → Prop}

mutual

theorem Block.Matched.refl (hR : ∀ e, R e e) : ∀ b : Block, b.Matched R b
  | ⟨_, stmts⟩ => by
      rw [Block.Matched]
      exact ⟨stmts, rfl, Stmt.MatchedSeq.refl hR stmts⟩

/-- Statements match themselves. -/
theorem Stmt.MatchedSeq.refl (hR : ∀ e, R e e) : ∀ stmts : List Stmt, Stmt.MatchedSeq R stmts stmts
  | [] => by
      rw [Stmt.MatchedSeq]
  | s :: rest => by
      rw [Stmt.MatchedSeq]
      exact ⟨s, rest, rfl, Stmt.Matched.refl hR s, Stmt.MatchedSeq.refl hR rest⟩

/-- A statement matches itself. -/
theorem Stmt.Matched.refl (hR : ∀ e, R e e) : ∀ s : Stmt, s.Matched R s
  | .expr _ e => by
      rw [Stmt.Matched]
      exact ⟨e, rfl, hR e⟩
  | .assign _ _ value => by
      rw [Stmt.Matched]
      exact ⟨value, rfl, hR value⟩
  | .decl _ _ none => by
      rw [Stmt.Matched]
  | .decl _ _ (some value) => by
      rw [Stmt.Matched]
      exact ⟨value, rfl, hR value⟩
  | .func _ _ _ _ body => by
      rw [Stmt.Matched]
      exact ⟨body, rfl, Block.Matched.refl hR body⟩
  | .cond _ test body => by
      rw [Stmt.Matched]
      exact ⟨test, body, rfl, hR test, Block.Matched.refl hR body⟩
  | .switch _ subject cases => by
      rw [Stmt.Matched]
      exact ⟨subject, cases, rfl, hR subject, Case.MatchedSeq.refl hR cases⟩
  | .loop _ pre test post body => by
      rw [Stmt.Matched]
      exact ⟨pre, test, post, body, rfl, Block.Matched.refl hR pre, hR test,
        Block.Matched.refl hR post, Block.Matched.refl hR body⟩
  | .block b => by
      rw [Stmt.Matched]
      exact ⟨b, rfl, Block.Matched.refl hR b⟩
  | .brk _ => by
      rw [Stmt.Matched]
  | .cont _ => by
      rw [Stmt.Matched]
  | .label _ _ => by
      rw [Stmt.Matched]
  | .stackAssign _ _ => by
      rw [Stmt.Matched]

/-- Cases match themselves. -/
theorem Case.MatchedSeq.refl (hR : ∀ e, R e e) : ∀ cases : List Case,
    Case.MatchedSeq R cases cases
  | [] => by
      rw [Case.MatchedSeq]
  | ⟨_, _, body⟩ :: rest => by
      rw [Case.MatchedSeq]
      exact ⟨body, rest, rfl, Block.Matched.refl hR body,
        Case.MatchedSeq.refl hR rest⟩

end

end Matching

open Pass YulToolchain.Flow

section Knowing

variable {d : Dialect} {k k' : Known} {references references' : Table String Nat}

theorem Known.rests_nothing : Known.nothing.Rests d references :=
  ⟨fun _ _ _ h => absurd h Known.not_mem_nothing, fun _ _ h => absurd h Known.not_mem_nothing⟩

theorem Known.Rests.sub (h : k.Rests d references) (hsub : k'.Sub k) : k'.Rests d references :=
  ⟨fun x value value' hvalue hvalue' =>
      h.single x value value' (hsub x value hvalue) (hsub x value' hvalue'),
    fun x value hvalue y hy => (h.rests x value (hsub x value hvalue) y hy).sub hsub⟩

/-- Known values go on to rest if the references to known variables do not get fewer. -/
theorem Known.Rests.spared (h : k.Rests d references)
    (hcount : ∀ x value, (x, value) ∈ k.entries →
      referenceCount references x ≤ referenceCount references' x) : k.Rests d references' :=
  ⟨h.single, fun x value hvalue y hy value' hvalue' =>
    (h.rests x value hvalue y hy).of_le (hcount y value' hvalue') value' hvalue'⟩

/-- Known values rest behind an assignment of a value that rests. -/
theorem Known.Rests.assigned {names : List String} {value : Option Expr}
    (h : k.Rests d references) (hvalue : ∀ e, value = some e → e.Rests d k references) :
    (k.assigned d names value).Rests d references := by
  constructor
  -- No name has two values: an old one is forgotten before the new one comes.
  · intro x e e' he he'
    rcases mem_assigned he with hold | ⟨hnew, -, -, hnames⟩
    · rcases mem_assigned he' with hold' | ⟨-, -, -, hnames'⟩
      · exact h.single x e e' (mem_forget.mp hold).1 (mem_forget.mp hold').1
      · exact absurd ((hnames' x).mpr rfl) (mem_forget.mp hold).2.1
    · rcases mem_assigned he' with hold' | ⟨hnew', -, -, -⟩
      · exact absurd ((hnames x).mpr rfl) (mem_forget.mp hold').2.1
      · exact Option.some.inj (hnew.symm.trans hnew')
  -- Every value rests: those read by an old value are old ones, and the new one rests by
  -- assumption.
  · intro x e he y hy e' he'
    have hread := Expr.walked_subset d e hy
    rcases mem_assigned he' with hold' | ⟨-, -, hself', hnames'⟩
    · have hknown := (mem_forget.mp hold').1
      rcases mem_assigned he with hold | ⟨hnew, -, -, -⟩
      · exact h.rests x e (mem_forget.mp hold).1 y hy e' hknown
      · exact hvalue e hnew y hy e' hknown
    · -- What reads the variable was forgotten, and its new value does not read it.
      rcases mem_assigned he with hold | ⟨hnew, -, hself, hnames⟩
      · exact absurd ((hnames' y).mpr rfl) ((mem_forget.mp hold).2.2 y hread)
      · obtain rfl := (hnames y).mp ((hnames' y).mpr rfl)
        exact absurd hread hself

end Knowing

/-- The known values of a walk rest, and are those of certain variables. -/
structure AtRest (d : Dialect) (own : String → Prop) (st : FlowState (Table String Nat)) :
    Prop where
  rests : st.known.Rests d st.own
  within : ∀ x value, (x, value) ∈ st.known.entries → own x

/-- The references to some variables do not get fewer. -/
def Spares (away : String → Prop) (st st' : FlowState (Table String Nat)) : Prop :=
  ∀ x, away x → referenceCount st.own x ≤ referenceCount st'.own x

/-- From a state a walk leaves known values at rest, spares the references to some
    variables, and has a result with a property. -/
structure Goes {α : Type} (d : Dialect) (own away : String → Prop)
    (st : FlowState (Table String Nat)) (m : Walk (Table String Nat) α)
    (Q : α → FlowState (Table String Nat) → Prop) : Prop where
  atRest : AtRest d own (m st).2
  spares : Spares away st (m st).2
  result : Q (m st).1 (m st).2

section Rules

variable {α β : Type} {d : Dialect} {own away : String → Prop}
    {st st' : FlowState (Table String Nat)}
  {Q : α → FlowState (Table String Nat) → Prop} {Q' : β → FlowState (Table String Nat) → Prop}

theorem AtRest.change {k' : Known} (h : AtRest d own st) (hsub : k'.Sub st.known)
    (scopes : List (List String)) : AtRest d own ⟨k', scopes, st.own⟩ :=
  ⟨h.rests.sub hsub, fun x value hvalue => h.within x value (hsub x value hvalue)⟩

theorem Goes.pure {a : α} (h : AtRest d own st) (hQ : Q a st) :
    Goes d own away st (pure a) Q :=
  ⟨h, fun _ _ => Nat.le_refl _, hQ⟩

/-- Two parts, one behind the other. -/
theorem Goes.bind {m : Walk (Table String Nat) α} {f : α → Walk (Table String Nat) β}
    (hm : Goes d own away st m Q)
    (hf : ∀ a st', AtRest d own st' → Q a st' → Goes d own away st' (f a) Q') :
    Goes d own away st (m >>= f) Q' := by
  have hnext := hf _ _ hm.atRest hm.result
  exact ⟨hnext.atRest, fun x hx => Nat.le_trans (hm.spares x hx) (hnext.spares x hx), hnext.result⟩

theorem Goes.forget (h : AtRest d own st) (names : List String) :
    Goes d own away st (changeKnown (·.forget names)) fun _ _ => True :=
  ⟨h.change (Known.forget_sub _ names) st.scopes, fun _ _ => Nat.le_refl _, trivial⟩

theorem Goes.openScope (h : AtRest d own st) :
    Goes d own away st openScope fun _ _ => True :=
  ⟨⟨h.rests, h.within⟩, fun _ _ => Nat.le_refl _, trivial⟩

/-- Closing a scope keeps the state at rest. -/
theorem Goes.closeScope (h : AtRest d own st) :
    Goes d own away st closeScope fun _ _ => True := by
  rcases st with ⟨k, _ | ⟨names, outer⟩, references⟩
  · exact ⟨h, fun _ _ => Nat.le_refl _, trivial⟩
  · exact ⟨h.change (Known.forget_sub _ names) outer, fun _ _ => Nat.le_refl _, trivial⟩

/-- Declaring names changes neither what is known nor the counts. -/
theorem Goes.declare (h : AtRest d own st) (names : List String) :
    Goes d own away st (declare names) fun _ st' => st'.known = st.known ∧ st'.own = st.own := by
  rcases st with ⟨k, _ | ⟨innermost, outer⟩, references⟩
  · exact ⟨h, fun _ _ => Nat.le_refl _, rfl, rfl⟩
  · exact ⟨⟨h.rests, h.within⟩, fun _ _ => Nat.le_refl _, rfl, rfl⟩

/-- No statement is replaced before it is walked. -/
theorem Goes.replace (h : AtRest d own st) (s : Stmt) :
    Goes d own away st (act (rematerializePolicy.replace · s)) fun replacement _ =>
      replacement = none :=
  ⟨h, fun _ _ => Nat.le_refl _, rfl⟩

/-- Behind the assignment of a value that rests. -/
theorem Goes.assigned {names : List String} {value : Option Expr} (h : AtRest d own st)
    (hvalue : ∀ e, value = some e → e.Rests d st.known st.own) (hnames : ∀ x ∈ names, own x) :
    Goes d own away st (changeKnown (·.assigned d names value)) fun _ _ => True := by
  refine ⟨⟨h.rests.assigned hvalue, fun x e he => ?_⟩, fun _ _ => Nat.le_refl _, trivial⟩
  rcases Known.mem_assigned he with hold | ⟨-, -, -, hx⟩
  · exact h.within x e (Known.mem_forget.mp hold).1
  · exact hnames x ((hx x).mpr rfl)

end Rules

section Walking

variable {d : Dialect} {own away : String → Prop} {st : FlowState (Table String Nat)}

/-- An expression in place of another one is deeper by a copied value at most. -/
def Expr.Grows (e e' : Expr) : Prop := e'.depth ≤ e.depth + maxGrowth

theorem Expr.Grows.refl (e : Expr) : e.Grows e := Nat.le_add_right _ _

/-- Visiting the expression of a statement makes it grow by a bounded depth. -/
theorem visitRoot_goes (hapart : ∀ x, away x → ¬ own x) (h : AtRest d own st) (e : Expr) :
    Goes d own away st (visitRoot d rematerializePolicy e)
      fun e' st' => e.Grows e' ∧ e'.Rests d st'.known st'.own := by
  rcases st with ⟨k, scopes, references⟩
  rcases visitRoot_copies h.rests e scopes with ⟨e', references', hrun, hlater, hdepth, hrests⟩
  have hsub := Known.evaluated_sub d e' k
  have hsteady : AtRest d own ⟨k, scopes, references'⟩ := ⟨h.rests.later hlater, h.within⟩
  constructor
  · rw [hrun]
    exact hsteady.change hsub scopes
  · rw [hrun]
    -- Of the variables to be spared nothing is known, so they stay.
    exact fun x hx => hlater x fun value hvalue => absurd (h.within x value hvalue) (hapart x hx)
  · rw [hrun]
    exact ⟨hdepth, fun x hx => (hrests x hx).sub hsub⟩

/-- Visiting the value of a declaration makes it grow by a bounded depth. -/
theorem visitRoot?_goes (hapart : ∀ x, away x → ¬ own x) (h : AtRest d own st)
    (value : Option Expr) :
    Goes d own away st (value.mapM (visitRoot d rematerializePolicy)) fun value' st' =>
      (∀ line vars, (Stmt.decl line vars value).Matched Expr.Grows (.decl line vars value')) ∧
      ∀ e, value' = some e → e.Rests d st'.known st'.own := by
  cases value with
  | none =>
      refine Goes.pure h ⟨fun line vars => ?_, fun e he => absurd he (by rintro ⟨⟩)⟩
      rw [Stmt.Matched]
  | some value =>
      refine (visitRoot_goes hapart h value).bind fun value' st' h' hvalue =>
        Goes.pure h' ⟨fun line vars => ?_, fun e he => ?_⟩
      · rw [Stmt.Matched]
        exact ⟨value', rfl, hvalue.1⟩
      · cases he
        exact hvalue.2

/-- The value that a declaration learns rests if the written one does. -/
theorem declaredValue_rests {k : Known} {references : Table String Nat} {value : Option Expr}
    (h : ∀ e, value = some e → e.Rests d k references) (line : Nat) (vars : List TypedName) :
    ∀ e, declaredValue line vars value = some e → e.Rests d k references := by
  intro e he
  unfold declaredValue at he
  split at he
  · exact h e he
  · cases he
    exact fun x hx => absurd hx List.not_mem_nil
  · exact absurd he (by rintro ⟨⟩)

-- A bound that is met leaves code as it is, so no bound is asked for here.
mutual

/-- A walk over secluded code keeps known values at rest, and what it leaves is the same
    code with expressions that are not much deeper. -/
theorem visitBlock_goes : ∀ (fuel : Nat) (b : Block) {own away : String → Prop}
    {st : FlowState (Table String Nat)}, b.Secluded own away → (∀ x, away x → ¬ own x) →
    AtRest d own st →
      Goes d own away st (visitBlock d rematerializePolicy fuel b)
        fun b' _ => b.Matched Expr.Grows b'
  | 0, b, _, _, _, _, _, h => .pure h (.refl Expr.Grows.refl b)
  | fuel + 1, ⟨line, stmts⟩, own, away, st, hsecluded, hapart, h => by
      rw [Block.Secluded] at hsecluded
      rw [visitBlock]
      refine (Goes.openScope h).bind fun _ st₁ h₁ _ => ?_
      refine (visitStmts_goes fuel stmts hsecluded hapart h₁).bind fun stmts' st₂ h₂ hstmts => ?_
      refine (Goes.closeScope h₂).bind fun _ st₃ h₃ _ => .pure h₃ ?_
      rw [Block.Matched]
      exact ⟨stmts', rfl, hstmts⟩
termination_by structural fuel => fuel

/-- Visiting statements makes their expressions grow by a bounded depth. -/
theorem visitStmts_goes : ∀ (fuel : Nat) (stmts : List Stmt) {own away : String → Prop}
    {st : FlowState (Table String Nat)}, Stmt.SecludedSeq own away stmts →
    (∀ x, away x → ¬ own x) → AtRest d own st →
      Goes d own away st (visitStmts d rematerializePolicy fuel stmts)
        fun stmts' _ => Stmt.MatchedSeq Expr.Grows stmts stmts'
  | 0, stmts, _, _, _, _, _, h => by
      rw [visitStmts]
      exact .pure h (.refl Expr.Grows.refl stmts)
  | fuel + 1, [], _, _, _, _, _, h => by
      rw [visitStmts]
      · exact .pure h (.refl Expr.Grows.refl [])
      · rintro ⟨⟩
  | fuel + 1, s :: rest, own, away, st, hsecluded, hapart, h => by
      rw [Stmt.SecludedSeq] at hsecluded
      rw [visitStmts]
      -- The policy replaces no statement.
      refine (Goes.replace h s).bind fun replacement st₀ h₀ hnone => ?_
      subst hnone
      refine (visitStmt_goes fuel s hsecluded.1 hapart h₀).bind fun s' st₁ h₁ hs => ?_
      refine (visitStmts_goes fuel rest hsecluded.2 hapart h₁).bind fun rest' st₂ h₂ hrest =>
        .pure h₂ ?_
      rw [Stmt.MatchedSeq]
      exact ⟨s', rest', rfl, hs, hrest⟩
termination_by structural fuel => fuel

/-- Visiting a statement makes its expressions grow by a bounded depth. -/
theorem visitStmt_goes : ∀ (fuel : Nat) (s : Stmt) {own away : String → Prop}
    {st : FlowState (Table String Nat)}, s.Secluded own away → (∀ x, away x → ¬ own x) →
    AtRest d own st →
      Goes d own away st (visitStmt d rematerializePolicy fuel s)
        fun s' _ => s.Matched Expr.Grows s'
  | 0, s, _, _, _, _, _, h => .pure h (.refl Expr.Grows.refl s)
  | fuel + 1, .expr line e, own, away, st, _, hapart, h => by
      rw [visitStmt]
      refine (visitRoot_goes hapart h e).bind fun e' st₁ h₁ he => .pure h₁ ?_
      rw [Stmt.Matched]
      exact ⟨e', rfl, he.1⟩
  | fuel + 1, .assign line targets value, own, away, st, hsecluded, hapart, h => by
      rw [Stmt.Secluded] at hsecluded
      rw [visitStmt]
      refine (visitRoot_goes hapart h value).bind fun value' st₁ h₁ hvalue => ?_
      refine (Goes.assigned h₁ (fun e he => Option.some.inj he ▸ hvalue.2) ?_).bind
        fun _ st₂ h₂ _ => .pure h₂ ?_
      -- The targets are variables of the function the walk is in.
      · intro x hx
        rcases List.mem_map.mp hx with ⟨target, htarget, rfl⟩
        exact hsecluded target htarget
      · rw [Stmt.Matched]
        exact ⟨value', rfl, hvalue.1⟩
  | fuel + 1, .decl line vars value, own, away, st, hsecluded, hapart, h => by
      rw [Stmt.Secluded] at hsecluded
      rw [visitStmt]
      refine (visitRoot?_goes hapart h value).bind fun value' st₁ h₁ hvalue => ?_
      refine (Goes.declare h₁ _).bind fun _ st₂ h₂ hsame => ?_
      refine (Goes.assigned h₂ (declaredValue_rests ?_ line vars) ?_).bind
        fun _ st₃ h₃ _ => .pure h₃ (hvalue.1 line vars)
      · rw [hsame.1, hsame.2]
        exact hvalue.2
      · intro x hx
        rcases List.mem_map.mp hx with ⟨v, hv, rfl⟩
        exact hsecluded v hv
  | fuel + 1, .func line name params returns body, own, away, st, hsecluded, hapart, h => by
      rw [Stmt.Secluded] at hsecluded
      rcases hsecluded with ⟨inner, hinner, hbody⟩
      rw [visitStmt]
      -- Nothing is known inside, and what is known outside is of variables to be spared.
      have hstart : AtRest d inner
          ⟨.nothing, [(params ++ returns).map TypedName.name], st.own⟩ :=
        ⟨Known.rests_nothing, fun _ _ hvalue => absurd hvalue Known.not_mem_nothing⟩
      -- The variables of the body are neither those outside nor those further away.
      have hapart' : ∀ x, own x ∨ away x → ¬ inner x := fun x hx hx' =>
        hx.elim (hinner x hx').1 (hinner x hx').2
      have hgoes := visitBlock_goes fuel body hbody hapart' hstart
      refine ⟨⟨h.rests.spared fun x value hvalue =>
          hgoes.spares x (.inl (h.within x value hvalue)), h.within⟩,
        fun x hx => hgoes.spares x (.inr hx), ?_⟩
      rw [Stmt.Matched]
      exact ⟨_, rfl, hgoes.result⟩
  | fuel + 1, .cond line test body, own, away, st, hsecluded, hapart, h => by
      rw [Stmt.Secluded] at hsecluded
      rw [visitStmt]
      refine (visitRoot_goes hapart h test).bind fun test' st₁ h₁ htest => ?_
      refine (visitBlock_goes fuel body hsecluded hapart h₁).bind fun body' st₂ h₂ hbody => ?_
      refine (Goes.forget h₂ _).bind fun _ st₃ h₃ _ => .pure h₃ ?_
      rw [Stmt.Matched]
      exact ⟨test', body', rfl, htest.1, hbody⟩
  | fuel + 1, .switch line subject cases, own, away, st, hsecluded, hapart, h => by
      rw [Stmt.Secluded] at hsecluded
      rw [visitStmt]
      refine (visitRoot_goes hapart h subject).bind fun subject' st₁ h₁ hsubject => ?_
      refine (visitCases_goes fuel cases hsecluded hapart h₁).bind fun cases' st₂ h₂ hcases =>
        .pure h₂ ?_
      rw [Stmt.Matched]
      exact ⟨subject', cases', rfl, hsubject.1, hcases⟩
  | fuel + 1, .loop line ⟨preLine, pre⟩ test post body, own, away, st, hsecluded, hapart, h => by
      rw [Stmt.Secluded, Block.Secluded] at hsecluded
      rcases hsecluded with ⟨hpre, hbody, hpost⟩
      rw [visitStmt]
      -- The names of the states follow the walk, from the opened scope to the closed one.
      refine (Goes.openScope h).bind fun _ st₁ h₁ _ => ?_
      refine (visitStmts_goes fuel pre hpre hapart h₁).bind fun pre' st₂ h₂ hpre' => ?_
      refine (Goes.forget h₂ _).bind fun _ st₃ h₃ _ => ?_
      refine (visitRoot_goes hapart h₃ test).bind fun test' st₄ h₄ htest => ?_
      refine (visitBlock_goes fuel body hbody hapart h₄).bind fun body' st₅ h₅ hbody' => ?_
      refine (Goes.forget h₅ _).bind fun _ st₆ h₆ _ => ?_
      refine (visitBlock_goes fuel post hpost hapart h₆).bind fun post' st₇ h₇ hpost' => ?_
      refine (Goes.forget h₇ _).bind fun _ st₈ h₈ _ => ?_
      refine (Goes.closeScope h₈).bind fun _ st₉ h₉ _ => .pure h₉ ?_
      rw [Stmt.Matched]
      refine ⟨⟨preLine, pre'⟩, test', post', body', rfl, ?_, htest.1, hpost', hbody'⟩
      rw [Block.Matched]
      exact ⟨pre', rfl, hpre'⟩
  | fuel + 1, .brk line, own, away, st, _, _, h => .pure h (.refl Expr.Grows.refl _)
  | fuel + 1, .cont line, own, away, st, _, _, h => .pure h (.refl Expr.Grows.refl _)
  | fuel + 1, .block b, own, away, st, hsecluded, hapart, h => by
      rw [Stmt.Secluded] at hsecluded
      rw [visitStmt]
      refine (visitBlock_goes fuel b hsecluded hapart h).bind fun b' st₁ h₁ hb => .pure h₁ ?_
      rw [Stmt.Matched]
      exact ⟨b', rfl, hb⟩
  | fuel + 1, .label line name, own, away, st, _, _, h => by
      rw [visitStmt]
      refine Goes.bind (Q := fun _ _ => True)
        ⟨h.change (Known.nothing_sub _) st.scopes, fun _ _ => Nat.le_refl _, trivial⟩
        fun _ st₁ h₁ _ => .pure h₁ ?_
      exact .refl Expr.Grows.refl _
  | fuel + 1, .stackAssign line target, own, away, st, _, _, h => by
      rw [visitStmt]
      exact (Goes.forget h _).bind fun _ st₁ h₁ _ => .pure h₁ (.refl Expr.Grows.refl _)
termination_by structural fuel => fuel

/-- Visiting cases makes their expressions grow by a bounded depth. -/
theorem visitCases_goes : ∀ (fuel : Nat) (cases : List Case) {own away : String → Prop}
    {st : FlowState (Table String Nat)}, Case.SecludedSeq own away cases →
    (∀ x, away x → ¬ own x) → AtRest d own st →
      Goes d own away st (visitCases d rematerializePolicy fuel cases)
        fun cases' _ => Case.MatchedSeq Expr.Grows cases cases'
  | 0, cases, _, _, _, _, _, h => by
      rw [visitCases]
      exact .pure h (.refl Expr.Grows.refl cases)
  | fuel + 1, [], _, _, _, _, _, h => by
      rw [visitCases]
      · exact .pure h (.refl Expr.Grows.refl [])
      · rintro ⟨⟩
  | fuel + 1, ⟨line, value, body⟩ :: rest, own, away, st, hsecluded, hapart, h => by
      rw [Case.SecludedSeq] at hsecluded
      rw [visitCases]
      refine (visitBlock_goes fuel body hsecluded.1 hapart h).bind fun body' st₁ h₁ hbody => ?_
      refine (Goes.forget h₁ _).bind fun _ st₂ h₂ _ => ?_
      refine (visitCases_goes fuel rest hsecluded.2 hapart h₂).bind fun rest' st₃ h₃ hrest =>
        .pure h₃ ?_
      rw [Case.MatchedSeq]
      exact ⟨body', rest', rfl, hbody, hrest⟩
termination_by structural fuel => fuel

end

end Walking

/-- In an accepted program with different names, an expression in which reads were
    replaced by known values is deeper by less than the depth from which on values are
    not copied. -/
theorem rematerialized_depth_is_bounded {d : Dialect} {code : Block} {ss : Scopes}
    (h : analyze d code = .ok ss) (hnodup : code.declared.Nodup) :
    code.Matched (fun e e' => e'.depth ≤ e.depth + (maxCopiedDepth - 1))
      (rematerialize d code) :=
  (visitBlock_goes (code.weight + 1) code (analyze_secluded h hnodup) (fun _ hx => hx.elim)
    ⟨Known.rests_nothing, fun _ _ hvalue => absurd hvalue Known.not_mem_nothing⟩).result

/-- A chain of values, and a function that copies values of its own in between. -/
theorem rematerialized_depth_is_bounded_in_chain :
    ∃ code ss, parseBlock .strictAssembly
        "{ let a := calldatasize() let b := add(a, 1)
          function f(x) -> y { let z := mul(x, 3) y := z } let c := mul(b, 2) sstore(f(c), c) }"
          = .ok code ∧
      analyze .strictAssembly code = .ok ss ∧ code.declared.Nodup ∧
      (rematerialize .strictAssembly code).print ≠ code.print ∧
      code.Matched (fun e e' => e'.depth ≤ e.depth + (maxCopiedDepth - 1))
        (rematerialize .strictAssembly code) := by
  refine exists_of_accepted? (fun code => decide (code.declared.Nodup ∧
      (rematerialize .strictAssembly code).print ≠ code.print)) (by decide +kernel)
    fun code ss _ haccept htest => ?_
  rcases of_decide_eq_true htest with ⟨hnodup, hcopied⟩
  exact ⟨hnodup, hcopied, rematerialized_depth_is_bounded haccept hnodup⟩

end YulToolchain
