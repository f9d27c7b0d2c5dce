import YulToolchain.CodeGen.Object
import YulToolchain.Proofs.CodeGen.Bond
import YulToolchain.Proofs.Execution.Environment
import YulToolchain.Proofs.Static.Twin

/-!
# The Dry Run Reports What a Real Run Reports

Whether the variables of a program can be reached is found out without writing any
code. The dry run generates for a target that only keeps the height, in the twin of
the dialect, and knows of no objects.

A real run and a dry run go side by side. At every step they agree on the height, on
the slots of variables and on what was found out of reach, which is all that a report
depends on (`GenState.Alike`). They do not agree on labels, nor on what is written: a
builtin of the twin drops its arguments one by one and puts zeros in their place.

A dry run succeeds wherever a real run does. It does not fail where a real run fails
for want of an object.

## Main definitions

* `GenState.Alike`, `Place.Alike`: What the two runs agree on.
* `Gen.Shadows`: If one computation succeeds then so does another, and their states
  stay alike.
* `GenContext.Twins`: The contexts of the two runs.
* `Block.Shadowed`, `Stmt.Shadowed`: The dry run follows the real one.

## Theorems

* `Gen.Shadows.bind`: Sequencing.
* `Stmt.Shadowed.func`, `Stmt.Shadowed.loop` and so on: One for each kind of statement, from what
  is known of its parts.
* `Expr.generate_shadows`, `Stmt.generate_shadows`, `Block.generate_shadows`: The
  dry run follows the real one.
* `generate_shadows`: So it does for a program, and all reported depths are positive.
* `StackTooDeep.byFunction_get?`: The table of a report holds the largest depths.
* `dry_run_reports`: The reports are the same.
-/

namespace YulToolchain

section Definitions

variable {A B : Type} [Target A] [Target B]

/-- Two states agree on all that a report depends on, and what was found out of
    reach so far is out of reach. -/
structure GenState.Alike (s : GenState A) (t : GenState B) : Prop where
  height : t.height = s.height
  slots : t.slots = s.slots
  tooDeep : t.tooDeep = s.tooDeep
  positive : ∀ e ∈ s.tooDeep, 0 < e.depth

/-- Two places differ in labels only. -/
structure Place.Alike (p q : Place) : Prop where
  scope : q.scope = p.scope
  function : q.function = p.function
  loop : q.loop.map LoopTargets.height = p.loop.map LoopTargets.height

/-- The context of a real run and that of a dry run. -/
structure GenContext.Twins (m : MachineDialect) (c c' : GenContext) : Prop where
  dialect : c.dialect = .machine m
  twin : c'.dialect = .machine m.noOutput
  scopes : c'.scopes = c.scopes

/-- If a computation succeeds then so does another one, with a related result, and
    states stay alike. -/
def Gen.Shadows {α β : Type} (m : Gen A α) (n : Gen B β) (R : α → β → Prop) : Prop :=
  ∀ s t a s', GenState.Alike s t → m s = .ok (a, s') →
    ∃ b t', n t = .ok (b, t') ∧ R a b ∧ GenState.Alike s' t'

theorem Place.Alike.inside {p q : Place} (h : p.Alike q) (scope : Nat) :
    Place.Alike { p with scope } { q with scope } := ⟨rfl, h.function, h.loop⟩

theorem GenContext.Twins.flavour {m : MachineDialect} {c c' : GenContext}
    (h : GenContext.Twins m c c') : c'.dialect.flavour = c.dialect.flavour := by
  rw [h.dialect, h.twin]
  rfl

theorem GenContext.Twins.matches {m : MachineDialect} {c c' : GenContext} {p q : Place}
    (h : GenContext.Twins m c c') (hp : p.Alike q) : Place.Matches c c' p q :=
  ⟨h.scopes, h.flavour, hp.scope, hp.function⟩

/-- A computation that hands out a label changes labels only. -/
def Gen.Names (m : Gen A Nat) : Prop :=
  ∀ s, Gen.Does m s fun _ t => t.height = s.height ∧ t.slots = s.slots ∧ t.tooDeep = s.tooDeep

end Definitions

namespace Gen

section Rules

variable {A B : Type} [Target A] [Target B] {α β γ δ : Type} {R : α → β → Prop}
  {S : γ → δ → Prop}

theorem Shadows.pure {a : α} {b : β} (h : R a b) :
    Shadows (pure a : Gen A α) (pure b : Gen B β) R := Carries.pure h

theorem Shadows.bind {m : Gen A α} {n : Gen B β} {f : α → Gen A γ} {g : β → Gen B δ}
    (hm : Shadows m n R) (hf : ∀ a b, R a b → Shadows (f a) (g b) S) :
    Shadows (m >>= f) (n >>= g) S := Carries.bind hm hf

/-- A computation that fails is followed by any. -/
theorem Shadows.fails {line : Nat} {fault : InternalFault} {n : Gen B β} :
    Shadows (violation line fault : Gen A α) n R := Carries.fails

/-- Writing the same amount is shadowed. -/
theorem Shadows.of_writes {m : Gen A Unit} {n : Gen B Unit} {difference : Int}
    (hm : Writes m difference) (hn : Writes n difference) : Shadows m n fun _ _ => True := by
  intro s t a s' hst hrun
  rcases hm s with ⟨a, hm, ha⟩
  rcases hn t with ⟨b, hn, hb⟩
  rw [hm] at hrun
  cases hrun
  refine ⟨(), _, hn, trivial, ?_, hst.slots, hst.tooDeep, hst.positive⟩
  show Target.height b = Target.height a
  rw [ha, hb, hst.height]

/-- Reading the state of the first run takes no step of the second. -/
theorem Shadows.of_still {m : Gen A α} {f : α → Gen A γ} {n : Gen B δ}
    (hm : ∀ s a s', m s = .ok (a, s') → s' = s) (hf : ∀ a, Shadows (f a) n S) :
    Shadows (m >>= f) n S := by
  intro s t c s' hst hrun
  rcases bind_eq_ok hrun with ⟨⟨a, s₁⟩, ha, hc⟩
  obtain rfl := hm s a s₁ ha
  exact hf a _ t c s' hst hc

/-- Naming is shadowed. -/
theorem Shadows.of_names {m : Gen A Nat} {n : Gen B Nat} (hm : Names m) (hn : Names n) :
    Shadows m n fun _ _ => True := by
  intro s t a s' hst hrun
  rcases hm s with ⟨_, _, hm, hs⟩
  rcases hn t with ⟨b, t', hn, ht⟩
  rw [hm] at hrun
  cases hrun
  refine ⟨b, t', hn, trivial, ?_, ?_, ?_, ?_⟩
  · rw [ht.1, hst.height, hs.1]
  · rw [ht.2.1, hst.slots, hs.2.1]
  · rw [ht.2.2, hst.tooDeep, hs.2.2]
  · rw [hs.2.2]
    exact hst.positive

end Rules

section Operations

variable {A B : Type} [Target A] [Target B] [Target.Lawful A] [Target.Lawful B]
  {c c' : GenContext} {p q : Place} {m : MachineDialect}

/-- What a report depends on outlasts everything that has to do with no label. -/
theorem alike_bond : Bond (GenState.Alike : GenState A → GenState B → Prop) where
  height _ _ hst := hst.height
  slots _ _ hst := hst.slots
  setHeight h := by
    rintro s t _ _ hst ⟨⟩
    refine ⟨(), _, rfl, trivial, ?_, hst.slots, hst.tooDeep, hst.positive⟩
    exact (Target.Lawful.height_setHeight h t.target).trans
      (Target.Lawful.height_setHeight h s.target).symm
  setLine line := Shadows.of_writes (setLine_writes line) (setLine_writes line)
  emit i _ := Shadows.of_writes (emit_writes i) (emit_writes i)
  setSlot d slot := by
    rintro s t _ _ hst ⟨⟩
    refine ⟨(), _, rfl, trivial, hst.height, ?_, hst.tooDeep, hst.positive⟩
    exact congrArg (List.cons (d, slot)) hst.slots
  report e he := by
    rintro s t _ _ hst ⟨⟩
    refine ⟨(), _, rfl, trivial, hst.height, hst.slots, ?_, fun e' he' => ?_⟩
    · exact congrArg (List.cons e) hst.tooDeep
    · rcases List.mem_cons.mp he' with rfl | he'
      · exact he
      · exact hst.positive e' he'

/-- What is written may differ as long as it has the same effect. -/
theorem emit_shadows {i j : Item} (h : i.stackEffect = j.stackEffect) :
    Shadows (emit i : Gen A Unit) (emit j : Gen B Unit) fun _ _ => True :=
  .of_writes (emit_writes i) (h ▸ emit_writes j)

theorem label_shadows (id id' : Nat) :
    Shadows (label id : Gen A Unit) (label id' : Gen B Unit) fun _ _ => True := emit_shadows rfl

theorem jumpTo_shadows (id id' : Nat) (difference : Int) :
    Shadows (jumpTo id difference : Gen A Unit) (jumpTo id' difference : Gen B Unit)
      fun _ _ => True :=
  .of_writes (jumpTo_writes id difference) (jumpTo_writes id' difference)

theorem jumpToIf_shadows (id id' : Nat) :
    Shadows (jumpToIf id : Gen A Unit) (jumpToIf id' : Gen B Unit) fun _ _ => True :=
  .of_writes (jumpToIf_writes id) (jumpToIf_writes id')

theorem newLabel_names : Names (newLabel : Gen A Nat) := fun s =>
  ⟨_, _, rfl, Target.Lawful.height_newLabel s.target, rfl, rfl⟩

theorem namedLabel_names (name : String) : Names (namedLabel name : Gen A Nat) := fun s =>
  ⟨_, _, rfl, Target.Lawful.height_namedLabel name s.target, rfl, rfl⟩

/-- The entry of a function only names. -/
theorem entryOf_names (c : GenContext) (d : Declaration) : Names (entryOf c d : Gen A Nat) := by
  refine fun s => Does.get ?_
  split
  · exact Does.pure ⟨rfl, rfl, rfl⟩
  · by_cases hnamed : c.namedLabels = true
    · rw [if_pos hnamed]
      exact (namedLabel_names d.name s).bind fun id t ht => ⟨id, _, rfl, ht⟩
    · rw [if_neg hnamed]
      exact (newLabel_names s).bind fun id t ht => ⟨id, _, rfl, ht⟩

/-- The label of a declaration only names. -/
theorem labelOf_names (d : Declaration) : Names (labelOf d : Gen A Nat) := by
  refine fun s => Does.get ?_
  split
  · exact Does.pure ⟨rfl, rfl, rfl⟩
  · exact (newLabel_names s).bind fun id t ht => ⟨id, _, rfl, ht⟩

theorem newLabel_shadows : Shadows (newLabel : Gen A Nat) (newLabel : Gen B Nat) fun _ _ => True :=
  .of_names newLabel_names newLabel_names

/-- Leaving the body from the same height. -/
theorem leaveBody_shadows (hp : p.Alike q) (line : Nat) (goal goal' : LoopTargets → Nat) :
    Shadows (leaveBody p line goal : Gen A Unit) (leaveBody q line goal' : Gen B Unit)
      fun _ _ => True := by
  have hloop := hp.loop
  rw [leaveBody, leaveBody]
  cases hleft : p.loop with
  | none => exact .fails
  | some targets =>
      rw [hleft, Option.map_some, Option.map_eq_some_iff] at hloop
      rcases hloop with ⟨targets', hright, hheight⟩
      rw [hright]
      refine Shadows.bind (R := Eq) ?_ ?_
      -- The heights to restore are equal.
      · rw [hheight]
        refine alike_bond.readHeight.bind ?_
        rintro h _ rfl
        exact (alike_bond.pops _).bind fun _ _ _ => .pure rfl
      · rintro popped _ rfl
        exact jumpTo_shadows _ _ popped

/-- The one word of a question about an object is a zero in the dry run. -/
theorem objectQuery_shadows {line : Nat} {function : String} {args : List Expr} {own : Item}
    {attachment : Nat → Reference} (hown : own.stackEffect = 1) :
    Shadows (objectQuery c line function args own attachment : Gen A Unit)
      (zeros 1 : Gen B Unit) fun _ _ => True := by
  -- Reading the name changes nothing.
  have hstill : ∀ (s : GenState A) a s', objectName line function args s = .ok (a, s') →
      s' = s := by
    intro s a s' hrun
    unfold objectName at hrun
    split at hrun
    · split at hrun
      · rename_i l _
        rcases hbytes : l.stringBytes with why | bytes
        · rw [hbytes] at hrun
          exact absurd hrun (by rintro ⟨⟩)
        · rw [hbytes] at hrun
          cases hrun
          rfl
      · exact absurd hrun (by rintro ⟨⟩)
    · exact absurd hrun (by rintro ⟨⟩)
  refine Shadows.of_still hstill fun name => ?_
  split
  -- Whatever is emitted, it is one word, as the zero is.
  · have howns := emit_writes (A := A) own
    rw [hown] at howns
    exact .of_writes howns (zeros_writes 1)
  · split
    · exact .of_writes (emit_writes _) (zeros_writes 1)
    · exact .fails

end Operations

end Gen

open Gen

section Following

variable {A B : Type} [Target A] [Target B] [Target.Lawful A] [Target.Lawful B]
  {c c' : GenContext} {m : MachineDialect}

omit [Target.Lawful A] [Target.Lawful B] in
mutual

/-- The dry run follows an expression. -/
theorem Expr.generate_shadows [Target.Lawful A] [Target.Lawful B] (hc : GenContext.Twins m c c')
    {p q : Place} (hp : p.Alike q) :
    ∀ e : Expr, e.Counted (.machine m) →
      -- By recursion on the expression.
      Shadows (e.generate c p : Gen A Unit) (e.generate c' q : Gen B Unit) fun _ _ => True
  | .literal l, _ => by
      rw [Expr.generate, Expr.generate]
      exact alike_bond.literal l
  | .ident line name, _ => by
      rw [Expr.generate, Expr.generate]
      -- Both sides find the same symbol.
      refine (Carries.lookup (hc.matches hp) line name).bind ?_
      rintro ⟨d, symbol⟩ _ rfl
      cases symbol with
      | var type => exact alike_bond.copyVariable (hc.matches hp) line name
      | label =>
          refine (Shadows.of_names (labelOf_names d) (labelOf_names d)).bind fun _ _ _ => ?_
          exact emit_shadows rfl
      | function params returns => exact .fails
  | .instr line op args, h => by
      rw [Expr.Counted] at h
      rw [Expr.generate, Expr.generate]
      refine (Expr.generateArgs_shadows hc hp args h).bind fun _ _ _ => ?_
      refine (alike_bond.setLine line).bind fun _ _ _ => ?_
      exact alike_bond.instruction op
  | .call line name args, h => by
      rw [Expr.Counted] at h
      rw [Expr.generate, Expr.generate, hc.dialect, hc.twin]
      simp only [Dialect.builtin?, m.builtin?_noOutput] at h ⊢
      rcases hb : m.builtin? name with _ | b
      · -- A function of the program.
        simp only [hb, Option.map_none] at h ⊢
        refine (Carries.lookup (hc.matches hp) line name).bind ?_
        rintro ⟨d, symbol⟩ _ rfl
        cases symbol with
        | function params returns =>
            refine newLabel_shadows.bind fun back back' _ => ?_
            refine (emit_shadows (i := .reference (.label back))
              (j := .reference (.label back')) rfl).bind fun _ _ _ => ?_
            refine (Expr.generateArgs_shadows hc hp args h).bind fun _ _ _ => ?_
            refine (Shadows.of_names (entryOf_names c d) (entryOf_names c' d)).bind
              fun entry entry' _ => ?_
            refine (alike_bond.setLine line).bind fun _ _ _ => ?_
            refine (jumpTo_shadows entry entry' _).bind fun _ _ _ => ?_
            exact label_shadows back back'
        | _ => exact .fails
      · -- A builtin: the dry run drops its arguments and puts zeros in their place.
        -- The arguments are evaluated in both runs unless they are texts.
        simp only [hb, Option.map_some] at h ⊢
        have hb : (Dialect.machine m).builtin? name = some b := hb
        rcases hcode : b.code with op | _ | _ | _ | _
        -- As many words are dropped as the instruction takes, and as many zeros put there as it
        -- leaves.
        · obtain rfl := (Dialect.builtin?_instruction hb hcode).2
          have hwrites : Writes (do pops args.length; zeros op.returns : Gen B Unit)
              op.stackEffect := by
            have := (pops_writes (A := B) args.length).bind (zeros_writes op.returns)
            rwa [h.1, show -((Builtin.ofInstruction op).params : Int) + op.returns
              = op.stackEffect from neg_add_eq_sub _ _, ← h.1] at this
          simp only [Builtin.ofInstruction, Bool.false_eq_true, if_false]
          refine (Expr.generateArgs_shadows hc hp args (h.2 rfl)).bind fun _ _ _ => ?_
          exact .of_writes (emit_writes (.instruction op)) hwrites
        · rcases Dialect.builtin?_query hb (.inl hcode) with ⟨_, hr, htext⟩
          simp only [htext, hr, if_true]
          exact objectQuery_shadows rfl
        · rcases Dialect.builtin?_query hb (.inr hcode) with ⟨_, hr, htext⟩
          simp only [htext, hr, if_true]
          exact objectQuery_shadows rfl
        · obtain rfl := Dialect.builtin?_dataCopy hb hcode
          have hwrites : Writes (do pops args.length; zeros 0 : Gen B Unit)
              Instruction.codecopy.stackEffect := by
            have := (pops_writes (A := B) args.length).bind (zeros_writes 0)
            rwa [h.1] at this ⊢
          simp only [Builtin.dataCopy, Bool.false_eq_true, if_false]
          refine (Expr.generateArgs_shadows hc hp args (h.2 rfl)).bind fun _ _ _ => ?_
          exact .of_writes (emit_writes (.instruction .codecopy)) hwrites
        · by_cases htext : b.literalArguments = true
          · simp only [if_pos htext]
            exact alike_bond.zeros b.returns
          · simp only [if_neg htext]
            refine (Expr.generateArgs_shadows hc hp args
              (h.2 (Bool.eq_false_iff.mpr htext))).bind fun _ _ _ => ?_
            exact (alike_bond.pops args.length).bind fun _ _ _ => alike_bond.zeros b.returns

/-- Arguments are shadowed from the last to the first. -/
theorem Expr.generateArgs_shadows [Target.Lawful A] [Target.Lawful B] (hc : GenContext.Twins m c c')
    {p q : Place}
    (hp : p.Alike q) : ∀ args : List Expr, Expr.CountedAll (.machine m) args →
      Shadows (Expr.generateArgs c p args : Gen A Unit) (Expr.generateArgs c' q args : Gen B Unit)
        fun _ _ => True
  | [], _ => by
      rw [Expr.generateArgs, Expr.generateArgs]
      exact .pure trivial
  | e :: rest, h => by
      rw [Expr.CountedAll] at h
      rw [Expr.generateArgs, Expr.generateArgs]
      exact (Expr.generateArgs_shadows hc hp rest h.2).bind fun _ _ _ =>
        Expr.generate_shadows hc hp e h.1

end

/-- The dry run follows a block, at places that agree. -/
def Block.Shadowed (A B : Type) [Target A] [Target B] (m : MachineDialect) (c c' : GenContext)
    (b : Block) : Prop :=
  ∀ ⦃p q : Place⦄,
    p.Alike q → Stmt.AllCounted (.machine m) b.allStmts → ∀ scope : Nat,
      Shadows (b.generate c p scope : Gen A Unit) (b.generate c' q scope : Gen B Unit)
        fun _ _ => True

/-- The dry run follows statements one after the other. -/
def Stmt.ShadowedSeq (A B : Type) [Target A] [Target B] (m : MachineDialect) (c c' : GenContext)
    (stmts : List Stmt) : Prop :=
  ∀ ⦃p q : Place⦄,
    p.Alike q → Stmt.AllCounted (.machine m) (Stmt.allStmtsSeq stmts) →
    ∀ next : Nat, Shadows (Stmt.generateSeq c p next stmts : Gen A Unit)
      (Stmt.generateSeq c' q next stmts : Gen B Unit) fun _ _ => True

/-- The dry run follows a statement. -/
def Stmt.Shadowed (A B : Type) [Target A] [Target B] (m : MachineDialect) (c c' : GenContext)
    (s : Stmt) : Prop :=
  ∀ ⦃p q : Place⦄,
    p.Alike q → Stmt.AllCounted (.machine m) (s :: s.allInner) → ∀ next : Nat,
      Shadows (s.generate c p next : Gen A Unit) (s.generate c' q next : Gen B Unit)
        fun _ _ => True

/-- It follows the comparisons of a switch, and hands out as many labels. -/
def Case.ShadowedTests (A B : Type) [Target A] [Target B] (m : MachineDialect) (c c' : GenContext)
    (cases : List Case) : Prop :=
  ∀ ⦃p q : Place⦄,
    p.Alike q → Stmt.AllCounted (.machine m) (Case.allStmtsSeq cases) →
    ∀ next : Nat, Shadows (Case.generateTests c p next cases : Gen A (List Nat))
      (Case.generateTests c' q next cases : Gen B (List Nat))
      fun ids ids' => ids'.length = ids.length

/-- It follows the bodies behind them, whatever their labels are. -/
def Case.ShadowedBodies (A B : Type) [Target A] [Target B] (m : MachineDialect) (c c' : GenContext)
    (cases : List Case) : Prop :=
  ∀ (after after' : Nat) ⦃p q : Place⦄,
    p.Alike q →
    Stmt.AllCounted (.machine m) (Case.allStmtsSeq cases) → ∀ (next : Nat) (ids ids' : List Nat),
    ids'.length = ids.length →
    Shadows (Case.generateBodies c p next after ids cases : Gen A Unit)
      (Case.generateBodies c' q next after' ids' cases : Gen B Unit) fun _ _ => True

/-- A block is shadowed if its statements are. -/
theorem Block.Shadowed.of_stmts (hc : GenContext.Twins m c c') {line : Nat} {stmts : List Stmt}
    (hinner : Stmt.ShadowedSeq A B m c c' stmts) : Block.Shadowed A B m c c' ⟨line, stmts⟩ := by
  intro p q hp h scope
  rw [Block.allStmts] at h
  rw [Block.generate, Block.generate]
  refine alike_bond.readHeight.bind ?_
  rintro before _ rfl
  refine (hinner (hp.inside scope) h (scope + 1)).bind fun _ _ _ => ?_
  exact alike_bond.closeBlock (hc.matches hp) scope line before

namespace Stmt.ShadowedSeq

omit [Target.Lawful A] [Target.Lawful B] in
theorem nil : Stmt.ShadowedSeq A B m c c' [] := by
  intro p q hp h next
  rw [Stmt.generateSeq, Stmt.generateSeq]
  exact .pure trivial

omit [Target.Lawful A] [Target.Lawful B] in
/-- The first statement, then the others. -/
theorem cons {s : Stmt} {rest : List Stmt} (hone : s.Shadowed A B m c c')
    (hmore : Stmt.ShadowedSeq A B m c c' rest) : Stmt.ShadowedSeq A B m c c' (s :: rest) := by
  intro p q hp h next
  rw [Stmt.allStmtsSeq, ← List.cons_append] at h
  rw [Stmt.generateSeq, Stmt.generateSeq]
  refine (hone hp (fun x hx => h x (List.mem_append_left _ hx)) next).bind fun _ _ _ => ?_
  exact hmore hp (fun x hx => h x (List.mem_append_right _ hx)) _

end Stmt.ShadowedSeq

namespace Stmt.Shadowed

/-- An expression that is a statement. -/
theorem expr (hc : GenContext.Twins m c c') {line : Nat} {e : Expr} :
    (Stmt.expr line e).Shadowed A B m c c' := by
  intro p q hp h next
  rw [Stmt.generate, Stmt.generate]
  refine (alike_bond.setLine line).bind fun _ _ _ => ?_
  refine alike_bond.readHeight.bind ?_
  rintro before _ rfl
  refine (Expr.generate_shadows hc hp e (h.expr rfl)).bind fun _ _ _ => ?_
  rw [hc.flavour]
  by_cases hloose : c.dialect.flavour ≠ .loose
  · rw [if_pos hloose, if_pos hloose]
    exact alike_bond.expectHeight line before "expression statement"
  · rw [if_neg hloose, if_neg hloose]
    exact .pure trivial

/-- An assignment. -/
theorem assign (hc : GenContext.Twins m c c') {line : Nat} {targets : List Identifier}
    {value : Expr} : (Stmt.assign line targets value).Shadowed A B m c c' := by
  intro p q hp h next
  rw [Stmt.generate, Stmt.generate]
  refine (alike_bond.setLine line).bind fun _ _ _ => ?_
  refine (Expr.generate_shadows hc hp value (h.expr rfl)).bind fun _ _ _ => ?_
  exact alike_bond.assignVariables (hc.matches hp) targets

/-- A declaration. -/
theorem decl (hc : GenContext.Twins m c c') {line : Nat} {vars : List TypedName}
    {value : Option Expr} : (Stmt.decl line vars value).Shadowed A B m c c' := by
  intro p q hp h next
  rw [Stmt.generate, Stmt.generate]
  refine (alike_bond.setLine line).bind fun _ _ _ => ?_
  refine alike_bond.readHeight.bind ?_
  rintro before _ rfl
  have hrest := (alike_bond.expectHeight (A := A) (B := B) line (before + vars.length)
    "variable declaration").bind fun _ _ _ => alike_bond.declareSlots (hc.matches hp) vars before
  cases value with
  | none => exact (alike_bond.zeros vars.length).bind fun _ _ _ => hrest
  | some e => exact (Expr.generate_shadows hc hp e (h.expr rfl)).bind fun _ _ _ => hrest

/-- In both runs the height is set where the body begins, so what stands in front of the function
    does not matter for it. -/
theorem func (hc : GenContext.Twins m c c') {line : Nat} {name : String}
    {params returns : List TypedName} {body : Block} (hinner : body.Shadowed A B m c c') :
    (Stmt.func line name params returns body).Shadowed A B m c c' := by
  intro p q hp h next
  -- The body starts in a place that is alike, with the frame alone.
  have hinside : Place.Alike ⟨next, none, name⟩ ⟨next, none, name⟩ := ⟨rfl, rfl, rfl⟩
  rw [Stmt.allInner] at h
  rw [Stmt.generate, Stmt.generate]
  refine (alike_bond.setLine line).bind fun _ _ _ => ?_
  refine (Carries.lookup (hc.matches hp) line name).bind ?_
  rintro ⟨d, _⟩ _ rfl
  refine (Shadows.of_names (entryOf_names c d) (entryOf_names c' d)).bind
    fun entry entry' _ => ?_
  refine (alike_bond.setSlots next params.reverse 1).bind fun _ _ _ => ?_
  -- Both remember the height outside.
  refine alike_bond.readHeight.bind ?_
  rintro before _ rfl
  refine newLabel_shadows.bind fun after after' _ => ?_
  refine (jumpTo_shadows after after' _).bind fun _ _ _ => ?_
  refine (label_shadows entry entry').bind fun _ _ _ => ?_
  refine (alike_bond.setHeight _).bind fun _ _ _ => ?_
  refine (alike_bond.setSlots next returns _).bind fun _ _ _ => ?_
  refine (alike_bond.zeros returns.length).bind fun _ _ _ => ?_
  refine (hinner hinside
    (fun x hx => h x (List.mem_cons_of_mem _ hx)) (next + 1)).bind fun _ _ _ => ?_
  refine (alike_bond.expectHeight line _ "function body").bind fun _ _ _ => ?_
  refine (alike_bond.unwindFrame (hc.matches hinside) params.length returns.length).bind
    fun _ _ _ => ?_
  refine (alike_bond.setLine line).bind fun _ _ _ => ?_
  refine (alike_bond.jump _).bind fun _ _ _ => ?_
  refine (label_shadows after after').bind fun _ _ _ => ?_
  -- Both are back at it.
  exact alike_bond.expectHeight line before "function definition"

/-- A condition. -/
theorem cond (hc : GenContext.Twins m c c') {line : Nat} {test : Expr} {body : Block}
    (hinner : body.Shadowed A B m c c') : (Stmt.cond line test body).Shadowed A B m c c' := by
  intro p q hp h next
  rw [Stmt.allInner] at h
  rw [Stmt.generate, Stmt.generate]
  refine (alike_bond.setLine line).bind fun _ _ _ => ?_
  refine alike_bond.readHeight.bind ?_
  rintro before _ rfl
  refine (Expr.generate_shadows hc hp test (h.expr rfl)).bind fun _ _ _ => ?_
  refine (alike_bond.instruction .iszero).bind fun _ _ _ => ?_
  refine newLabel_shadows.bind fun after after' _ => ?_
  refine (jumpToIf_shadows after after').bind fun _ _ _ => ?_
  refine (hinner hp (fun x hx => h x (List.mem_cons_of_mem _ hx)) next).bind fun _ _ _ => ?_
  refine (label_shadows after after').bind fun _ _ _ => ?_
  exact alike_bond.expectHeight line before "if"

/-- A switch. -/
theorem switch (hc : GenContext.Twins m c c') {line : Nat} {subject : Expr} {cases : List Case}
    (hcompare : Case.ShadowedTests A B m c c' cases)
    (hinner : Case.ShadowedBodies A B m c c' cases) :
    (Stmt.switch line subject cases).Shadowed A B m c c' := by
  intro p q hp h next
  rw [Stmt.allInner] at h
  have hcases : Stmt.AllCounted (.machine m) (Case.allStmtsSeq cases) :=
    fun x hx => h x (List.mem_cons_of_mem _ hx)
  rw [Stmt.generate, Stmt.generate]
  refine (alike_bond.setLine line).bind fun _ _ _ => ?_
  refine alike_bond.readHeight.bind ?_
  rintro before _ rfl
  refine (Expr.generate_shadows hc hp subject (h.expr rfl)).bind fun _ _ _ => ?_
  -- The comparisons give as many labels in both runs.
  refine newLabel_shadows.bind fun after after' _ => ?_
  refine (hcompare hp hcases next).bind fun ids ids' hids => ?_
  refine (jumpTo_shadows after after' 0).bind fun _ _ _ => ?_
  refine (hinner after after' hp hcases next ids ids' hids).bind fun _ _ _ => ?_
  refine (label_shadows after after').bind fun _ _ _ => ?_
  refine (alike_bond.pops 1).bind fun _ _ _ => ?_
  exact alike_bond.expectHeight line before "switch"

/-- A loop. -/
theorem loop (hc : GenContext.Twins m c c') {line preLine : Nat} {pre : List Stmt} {test : Expr}
    {post body : Block} (hinit : Stmt.ShadowedSeq A B m c c' pre)
    (hround : body.Shadowed A B m c c') (hthen : post.Shadowed A B m c c') :
    (Stmt.loop line ⟨preLine, pre⟩ test post body).Shadowed A B m c c' := by
  intro p q hp h next
  rw [Stmt.allInner, Block.allStmts] at h
  have hin := hp.inside next
  rw [Stmt.generate, Stmt.generate]
  refine (alike_bond.setLine line).bind fun _ _ _ => ?_
  refine alike_bond.readHeight.bind ?_
  rintro before _ rfl
  -- The init block.
  refine (hinit hin (fun x hx => h x ?_) (next + 1)).bind fun _ _ _ => ?_
  · simp only [List.mem_cons, List.mem_append]
    tauto
  -- The condition.
  refine newLabel_shadows.bind fun start start' _ => ?_
  refine newLabel_shadows.bind fun continued continued' _ => ?_
  refine newLabel_shadows.bind fun after after' _ => ?_
  refine (alike_bond.setLine line).bind fun _ _ _ => ?_
  refine (label_shadows start start').bind fun _ _ _ => ?_
  refine (Expr.generate_shadows hc hin test (h.expr rfl)).bind fun _ _ _ => ?_
  refine (alike_bond.instruction .iszero).bind fun _ _ _ => ?_
  refine (jumpToIf_shadows after after').bind fun _ _ _ => ?_
  refine alike_bond.readHeight.bind ?_
  rintro height _ rfl
  -- The jumps out of the body restore the same height.
  have hbody : Place.Alike ⟨next, some ⟨after, continued, height⟩, p.function⟩
      ⟨next, some ⟨after', continued', height⟩, q.function⟩ := ⟨rfl, hp.function, rfl⟩
  refine (hround hbody (fun x hx => h x ?_) _).bind fun _ _ _ => ?_
  · simp only [List.mem_cons, List.mem_append]
    tauto
  refine (label_shadows continued continued').bind fun _ _ _ => ?_
  -- The post part.
  refine (hthen hin (fun x hx => h x ?_) _).bind fun _ _ _ => ?_
  · simp only [List.mem_cons, List.mem_append]
    tauto
  refine (jumpTo_shadows start start' 0).bind fun _ _ _ => ?_
  refine (label_shadows after after').bind fun _ _ _ => ?_
  exact alike_bond.closeBlock (hc.matches hp) next preLine before

/-- A break. -/
theorem brk {line : Nat} : (Stmt.brk line).Shadowed A B m c c' := by
  intro p q hp h next
  rw [Stmt.generate, Stmt.generate]
  refine (alike_bond.setLine line).bind fun _ _ _ => ?_
  exact leaveBody_shadows hp line _ _

/-- A continue. -/
theorem cont {line : Nat} : (Stmt.cont line).Shadowed A B m c c' := by
  intro p q hp h next
  rw [Stmt.generate, Stmt.generate]
  refine (alike_bond.setLine line).bind fun _ _ _ => ?_
  exact leaveBody_shadows hp line _ _

/-- A block. -/
theorem block {line : Nat} {stmts : List Stmt} (hinner : Block.Shadowed A B m c c' ⟨line, stmts⟩) :
    (Stmt.block ⟨line, stmts⟩).Shadowed A B m c c' := by
  intro p q hp h next
  rw [Stmt.allInner] at h
  rw [Stmt.generate, Stmt.generate]
  refine (alike_bond.setLine line).bind fun _ _ _ => ?_
  exact hinner hp (fun x hx => h x (List.mem_cons_of_mem _ hx)) next

/-- A label. -/
theorem label (hc : GenContext.Twins m c c') {line : Nat} {name : String} :
    (Stmt.label line name).Shadowed A B m c c' := by
  intro p q hp h next
  rw [Stmt.generate, Stmt.generate]
  refine (alike_bond.setLine line).bind fun _ _ _ => ?_
  refine (Carries.lookup (hc.matches hp) line name).bind ?_
  rintro ⟨d, _⟩ _ rfl
  refine (Shadows.of_names (labelOf_names d) (labelOf_names d)).bind fun id id' _ => ?_
  exact label_shadows id id'

/-- An assignment from the stack. -/
theorem stackAssign (hc : GenContext.Twins m c c') {line : Nat} {target : Identifier} :
    (Stmt.stackAssign line target).Shadowed A B m c c' := by
  intro p q hp h next
  rw [Stmt.generate, Stmt.generate]
  refine (alike_bond.setLine line).bind fun _ _ _ => ?_
  exact alike_bond.assignVariable (hc.matches hp) line target.name

end Stmt.Shadowed

namespace Case.ShadowedTests

omit [Target.Lawful A] [Target.Lawful B] in
theorem nil : Case.ShadowedTests A B m c c' [] := by
  intro p q hp h next
  rw [Case.generateTests, Case.generateTests]
  exact .pure rfl

omit [Target.Lawful A] [Target.Lawful B] in
/-- The default among the comparisons. -/
theorem default {line : Nat} {body : Block} {rest : List Case} (hinner : body.Shadowed A B m c c')
    (hmore : Case.ShadowedTests A B m c c' rest) :
    Case.ShadowedTests A B m c c' (⟨line, none, body⟩ :: rest) := by
  intro p q hp h next
  rw [Case.allStmtsSeq] at h
  rw [Case.generateTests, Case.generateTests]
  refine (hinner hp (fun x hx => h x (List.mem_append_left _ hx)) next).bind fun _ _ _ => ?_
  exact hmore hp (fun x hx => h x (List.mem_append_right _ hx)) _

/-- A comparison. -/
theorem value {line : Nat} {l : Literal} {body : Block} {rest : List Case}
    (hmore : Case.ShadowedTests A B m c c' rest) :
    Case.ShadowedTests A B m c c' (⟨line, some l, body⟩ :: rest) := by
  intro p q hp h next
  rw [Case.allStmtsSeq] at h
  rw [Case.generateTests, Case.generateTests]
  refine (alike_bond.literal l).bind fun _ _ _ => ?_
  refine (alike_bond.instruction (.dup 1)).bind fun _ _ _ => ?_
  refine (alike_bond.instruction .eq).bind fun _ _ _ => ?_
  refine newLabel_shadows.bind fun id id' _ => ?_
  refine (jumpToIf_shadows id id').bind fun _ _ _ => ?_
  refine (hmore hp (fun x hx => h x (List.mem_append_right _ hx)) _).bind fun ids ids' hids => ?_
  exact .pure (congrArg Nat.succ hids)

end Case.ShadowedTests

namespace Case.ShadowedBodies

omit [Target.Lawful A] [Target.Lawful B] in
/-- No bodies. -/
theorem nil : Case.ShadowedBodies A B m c c' [] := by
  intro after after' p q hp h next ids ids' hids
  rw [Case.generateBodies, Case.generateBodies]
  · exact .pure trivial
  all_goals simp

omit [Target.Lawful A] [Target.Lawful B] in
/-- The default among the bodies. -/
theorem default {line : Nat} {body : Block} {rest : List Case}
    (hmore : Case.ShadowedBodies A B m c c' rest) :
    Case.ShadowedBodies A B m c c' (⟨line, none, body⟩ :: rest) := by
  intro after after' p q hp h next ids ids' hids
  rw [Case.allStmtsSeq] at h
  rw [Case.generateBodies, Case.generateBodies]
  exact hmore after after' hp (fun x hx => h x (List.mem_append_right _ hx)) _ ids ids' hids

/-- The body of a case. -/
theorem value {line : Nat} {l : Literal} {body : Block} {rest : List Case}
    (hinner : body.Shadowed A B m c c') (hmore : Case.ShadowedBodies A B m c c' rest) :
    Case.ShadowedBodies A B m c c' (⟨line, some l, body⟩ :: rest) := by
  intro after after' p q hp h next ids ids' hids
  rcases ids with _ | ⟨id, ids⟩
  · obtain rfl := List.length_eq_zero_iff.mp hids
    rw [Case.generateBodies, Case.generateBodies]
    · exact .pure trivial
    all_goals simp
  · rcases ids' with _ | ⟨id', ids'⟩
    · exact absurd hids (by rintro ⟨⟩)
    have hids : ids'.length = ids.length := Nat.succ.inj hids
    rw [Case.allStmtsSeq] at h
    rw [Case.generateBodies, Case.generateBodies]
    refine (label_shadows id id').bind fun _ _ _ => ?_
    refine (hinner hp (fun x hx => h x (List.mem_append_left _ hx)) next).bind fun _ _ _ => ?_
    have hlater := hmore after after' hp (fun x hx => h x (List.mem_append_right _ hx))
      (next + body.scopeCount) ids ids' hids
    -- Both runs are at their last body, or neither is.
    cases ids with
    | nil =>
        obtain rfl := List.length_eq_zero_iff.mp hids
        exact hlater
    | cons a ids =>
        cases ids' with
        | nil => exact absurd hids (by rintro ⟨⟩)
        | cons a' ids' => exact (jumpTo_shadows after after' 0).bind fun _ _ _ => hlater

end Case.ShadowedBodies

omit [Target.Lawful A] [Target.Lawful B] in
mutual

/-- The dry run follows a block. -/
theorem Block.generate_shadows [Target.Lawful A] [Target.Lawful B] (hc : GenContext.Twins m c c') :
    ∀ b : Block, b.Shadowed A B m c c'
  | ⟨_, stmts⟩ => .of_stmts hc (Stmt.generateSeq_shadows hc stmts)

/-- Any list of statements is shadowed. -/
theorem Stmt.generateSeq_shadows [Target.Lawful A] [Target.Lawful B]
    (hc : GenContext.Twins m c c') : ∀ stmts : List Stmt,
    Stmt.ShadowedSeq A B m c c' stmts
  | [] => .nil
  | s :: rest => .cons (Stmt.generate_shadows hc s) (Stmt.generateSeq_shadows hc rest)

/-- The dry run follows a statement. -/
theorem Stmt.generate_shadows [Target.Lawful A] [Target.Lawful B] (hc : GenContext.Twins m c c') :
    ∀ s : Stmt, s.Shadowed A B m c c'
  | .expr _ _ => .expr hc
  | .assign _ _ _ => .assign hc
  | .decl _ _ _ => .decl hc
  | .func _ _ _ _ body => .func hc (Block.generate_shadows hc body)
  | .cond _ _ body => .cond hc (Block.generate_shadows hc body)
  | .switch _ _ cases => .switch hc (Case.generateTests_shadows hc cases)
      (Case.generateBodies_shadows hc cases)
  | .loop _ ⟨_, pre⟩ _ post body => .loop hc (Stmt.generateSeq_shadows hc pre)
      (Block.generate_shadows hc body) (Block.generate_shadows hc post)
  | .brk _ => .brk
  | .cont _ => .cont
  | .block ⟨line, stmts⟩ => .block (Block.generate_shadows hc ⟨line, stmts⟩)
  | .label _ _ => .label hc
  | .stackAssign _ _ => .stackAssign hc

/-- The two runs hand out as many labels for the cases of a switch. -/
theorem Case.generateTests_shadows [Target.Lawful A] [Target.Lawful B]
    (hc : GenContext.Twins m c c') : ∀ cases : List Case,
    Case.ShadowedTests A B m c c' cases
  | [] => .nil
  | ⟨_, none, body⟩ :: rest => .default (Block.generate_shadows hc body)
      (Case.generateTests_shadows hc rest)
  | ⟨_, some _, _⟩ :: rest => .value (Case.generateTests_shadows hc rest)

/-- Any list of cases is shadowed. -/
theorem Case.generateBodies_shadows [Target.Lawful A] [Target.Lawful B]
    (hc : GenContext.Twins m c c') : ∀ cases : List Case,
    Case.ShadowedBodies A B m c c' cases
  | [] => .nil
  | ⟨_, none, _⟩ :: rest => .default (Case.generateBodies_shadows hc rest)
  | ⟨_, some _, body⟩ :: rest => .value (Block.generate_shadows hc body)
      (Case.generateBodies_shadows hc rest)

end

/-- If a program can be generated then its dry run succeeds, with the same report and
    the same height. -/
theorem generate_shadows (hc : GenContext.Twins m c c') {code : Block}
    (hcode : Stmt.AllCounted (.machine m) code.allStmts) {target target' : A} {other : B}
    (hheight : Target.height other = Target.height target) {errors : List StackTooDeep}
    (h : generate c code target = .ok (errors, target')) :
    (∃ other', generate c' code other = .ok (errors, other') ∧
      Target.height other' = Target.height target') ∧ ∀ e ∈ errors, 0 < e.depth := by
  rcases bind_eq_ok h with ⟨⟨_, s⟩, hrun, hs⟩
  cases hs
  rcases Block.generate_shadows hc code ⟨rfl, rfl, rfl⟩ hcode 0 (.ofTarget target)
    (.ofTarget other) _ s ⟨hheight, rfl, rfl, fun e he => absurd he (List.not_mem_nil)⟩ hrun with
    ⟨_, t, hrun', _, hst⟩
  refine ⟨⟨t.target, ?_, hst.height⟩, fun e he => hst.positive e (List.mem_reverse.mp he)⟩
  rw [generate, StateT.run, hrun', ← hst.tooDeep]
  rfl

end Following

namespace StackTooDeep

/-- The depths that are reported for a function. -/
def depthsOf (name : String) (errors : List StackTooDeep) : List Int :=
  (errors.filter (·.function = name)).map (·.depth)

-- What is in the table before is one more depth.
/-- The depth of a function is the greatest one that was reported for it. -/
theorem get?_foldl_update (name : String) : ∀ (errors : List StackTooDeep)
    (t : Table String Int),
    (errors.foldl (fun t e => t.update e.function 0 (max e.depth)) t).get? name
      = (depthsOf name errors).max?.elim (t.get? name)
        fun depth => some (max depth ((t.get? name).getD 0))
  | [], t => rfl
  | e :: rest, t => by
      rw [List.foldl_cons, get?_foldl_update name rest]
      simp only [Table.update, Table.get?_insert, depthsOf]
      -- The first report counts for its own function only.
      by_cases h : name = e.function
      · rw [if_pos h, List.filter_cons_of_pos (by simp only [h, decide_true]), List.map_cons,
          List.max?_cons, ← h]
        cases ((rest.filter fun x => x.function = name).map (·.depth)).max? with
        | none => rfl
        | some depth =>
            simp only [Option.elim_some, Option.getD_some]
            congr 1
            omega
      · have hne : ¬ e.function = name := fun hc => h hc.symm
        rw [if_neg h, List.filter_cons_of_neg (by simp only [hne, decide_false, Bool.false_eq_true,
          not_false_eq_true])]

/-- The table of a report holds the largest depth of each function. -/
theorem byFunction_get? {errors : List StackTooDeep} (h : ∀ e ∈ errors, 0 < e.depth)
    (name : String) : (byFunction errors).get? name = (depthsOf name errors).max? := by
  rw [byFunction, get?_foldl_update]
  cases hmax : (depthsOf name errors).max? with
  | none => rfl
  | some depth =>
      rcases List.mem_map.mp (List.max?_eq_some_iff.mp hmax).1 with ⟨e, he, rfl⟩
      have hpositive := h e (List.mem_filter.mp he).1
      show some (max e.depth 0) = some e.depth
      congr 1
      omega

/-- The table of a report is empty exactly if nothing was reported. -/
theorem byFunction_isEmpty {errors : List StackTooDeep} (h : ∀ e ∈ errors, 0 < e.depth) :
    (byFunction errors).isEmpty = true ↔ errors = [] := by
  constructor
  · intro hempty
    cases errors with
    | nil => rfl
    | cons e rest =>
        have hnone : (byFunction (e :: rest)).get? e.function = none := by
          rw [Table.get?, List.isEmpty_iff.mp hempty]
          rfl
        rw [byFunction_get? h, List.max?_eq_none_iff, depthsOf,
          List.filter_cons_of_pos (by simp only [decide_true]), List.map_cons] at hnone
        exact absurd hnone (List.cons_ne_nil _ _)
  · rintro rfl
    rfl

end StackTooDeep

/-- If the code of an accepted program can be generated then the dry run succeeds,
    reports the same accesses and ends at the same height. The depths found for the
    functions are therefore the largest that a real run reports, and there are none
    exactly if a real run reports none. -/
theorem dry_run_reports {m : MachineDialect} {code : Block} {scopes : Scopes}
    (haccept : analyze (.machine m) code = .ok scopes) {objects : ObjectNames} {named : Bool}
    {errors : List StackTooDeep} {target : Assembly}
    (hrun : generate ⟨.machine m, scopes, objects, named⟩ code (Target.fresh : Assembly)
      = .ok (errors, target)) :
    analyze (.machine m.noOutput) code = .ok scopes ∧
    (∀ named', ∃ target', generate ⟨.machine m.noOutput, scopes, ⟨none, []⟩, named'⟩ code
        (Target.fresh : DryRun) = .ok (errors, target') ∧ target'.height = target.height) ∧
    ∃ depths, overshoot (.machine m) code = .ok depths ∧
      (∀ name, depths.get? name = (StackTooDeep.depthsOf name errors).max?) ∧
      (depths.isEmpty = true ↔ errors = []) := by
  -- The dry run sees the same scopes.
  have hanalyze := (analyze_noOutput m code).trans haccept
  have htwins : ∀ named', GenContext.Twins m ⟨.machine m, scopes, objects, named⟩
      ⟨.machine m.noOutput, scopes, ⟨none, []⟩, named'⟩ := fun _ => ⟨rfl, rfl, rfl⟩
  have hheight : Target.height (Target.fresh : DryRun) = Target.height (Target.fresh : Assembly) :=
    rfl
  -- It shadows the real run from the same height.
  have hfollows := fun named' =>
    generate_shadows (htwins named') (analyze_counted haccept) hheight hrun
  have hpositive := (hfollows false).2
  refine ⟨hanalyze, fun named' => (hfollows named').1, StackTooDeep.byFunction errors, ?_,
    StackTooDeep.byFunction_get? hpositive, StackTooDeep.byFunction_isEmpty hpositive⟩
  -- So it reports the same, in the same order.
  rcases (hfollows false).1 with ⟨target', hdry, _⟩
  simp only [overshoot, Dialect.machine?, hanalyze, orFail, Except.mapError]
  show (generate _ code (Target.fresh : DryRun) >>= _) = _
  rw [hdry]
  rfl

/-- A function with a variable out of reach. -/
theorem dry_run_reports_deep_function :
    ∃ code scopes, parseBlock .strictAssembly
        "{ function f(x) -> y { let a, b, c, d, e, g, h, i, j, k, l, m, n, o, p, q y := x } }"
          = .ok code ∧ analyze .strictAssembly code = .ok scopes ∧
      ∃ errors target, generate ⟨.strictAssembly, scopes, ⟨none, []⟩, true⟩ code
          (Target.fresh : Assembly) = .ok (errors, target) ∧ errors ≠ [] ∧
        ∃ depths, overshoot .strictAssembly code = .ok depths ∧
          (∀ name, depths.get? name = (StackTooDeep.depthsOf name errors).max?) ∧
          depths.isEmpty = false := by
  -- The program is accepted and generated by evaluation.
  refine exists_of_accepted? (fun code => match analyze .strictAssembly code with
    | .ok scopes => match generate ⟨.strictAssembly, scopes, ⟨none, []⟩, true⟩ code
        (Target.fresh : Assembly) with
      | .ok (errors, _) => !errors.isEmpty
      | .error _ => false
    | .error _ => false) (by decide +kernel) fun code scopes _ haccept htest => ?_
  simp only [haccept] at htest
  rcases hrun : generate ⟨.strictAssembly, scopes, ⟨none, []⟩, true⟩ code
    (Target.fresh : Assembly) with why | ⟨errors, target⟩
  · rw [hrun] at htest
    exact absurd htest Bool.noConfusion
  · rw [hrun] at htest
    have herrors : errors ≠ [] := by
      rintro rfl
      exact absurd htest Bool.noConfusion
    -- The theorem tells what the depths are.
    rcases (dry_run_reports haccept hrun).2.2 with ⟨depths, hdepths, hmax, hempty⟩
    refine ⟨errors, target, rfl, herrors, depths, hdepths, hmax, ?_⟩
    exact Bool.eq_false_iff.mpr fun hc => herrors (hempty.mp hc)

end YulToolchain
