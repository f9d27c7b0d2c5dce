import YulToolchain.Proofs.Pass.Simplified
import YulToolchain.Proofs.Pass.Standing

/-!
# The Passes Keep Code Well Formed

What the passes put in place of an expression can be used there.

A known value is movable and has one value, and so has everything that is the same. The
rules bring in numbers, what their letters stand for, and the instruction of the match
itself, so they ask for nothing that was not there.

## Main definitions

* `Block.Proper`: A program can stand, and declares no name twice.

## Theorems

* `Licence.standing_serves`: What the passes do leaves code able to stand.
* `Step.runAll_proper`: So every step of a sequence does.
* `Block.Proper.accepted`: Such programs are accepted.
-/

namespace YulToolchain

section Expressions

variable {S : Setting} {d : Dialect} {g : Ground}

/-- Arguments count one value each if every one of them does. -/
theorem Expr.countOnes_iff {es : List Expr} :
    Expr.CountOnes d g es ↔ ∀ e ∈ es, e.Counts d g 1 := by
  induction es with
  | nil =>
      rw [CountOnes]
      exact iff_of_true trivial fun _ he => absurd he List.not_mem_nil
  | cons e rest ih => rw [CountOnes, ih, List.forall_mem_cons]

/-- Rewritten arguments count one value each. -/
theorem Expr.CountOnes.forall₂ {es es' : List Expr}
    (h : List.Forall₂ (fun e e' => ∀ n, Expr.Counts d g e n → Expr.Counts d g e' n) es es')
    (hes : Expr.CountOnes d g es) : Expr.CountOnes d g es' := by
  induction h with
  | nil => exact hes
  | cons he _ ih =>
      rw [CountOnes] at hes ⊢
      exact ⟨he 1 hes.1, ih hes.2⟩

/-- What standing code allows is closed. -/
theorem Licence.standing_closed (S : Setting) : (Licence.standing S).Closed where
  refl _ _ _ _ _ h := h
  trans h h' g n hk he := h' g n hk (h g n hk he)
  mono h hsub g n hk he := h g n (hk.sub hsub) he
  instr line op hargs g n hk he := by
    rw [Expr.Counts] at he ⊢
    exact ⟨he.1, hargs.length_eq ▸ he.2.1, he.2.2.1,
      he.2.2.2.forall₂ (hargs.imp fun _ _ h n => h g n hk)⟩
  call {k name args args'} line hname hargs g n hk he := by
    have hones : Expr.CountOnes S.dialect g args → Expr.CountOnes S.dialect g args' :=
      fun hes => hes.forall₂ (hargs.imp fun _ _ h n => h g n hk)
    rw [Expr.Counts] at he ⊢
    refine ⟨he.1, ?_⟩
    cases hb : S.dialect.builtin? name with
    | none =>
        simp only [hb] at he ⊢
        exact ⟨hargs.length_eq ▸ he.2.1, hones he.2.2⟩
    -- A builtin with rewritten arguments takes no literals.
    | some b =>
        have hlit : b.literalArguments = false := by
          rw [Flow.takesLiterals] at hname
          have : (Licence.standing S).dialect.builtin? name = some b := hb
          rw [this] at hname
          exact hname
        simp only [hb, hlit, Bool.false_eq_true, if_false] at he ⊢
        exact ⟨hargs.length_eq ▸ he.2.1, he.2.2.1, hones he.2.2.2⟩

/-- What is the same as a known value has one value. -/
theorem Expr.Counts.same {n : Nat} : ∀ {value e : Expr}, value.same e = true →
    value.movable d = true → value.Counts d g 1 → e.Counts d g n → n = 1
  | .literal _, .literal _, _, _, _, h' => by
      rw [Expr.Counts] at h'
      exact h'.2.2
  | .ident _ _, .ident _ _, _, _, _, h' => by
      rw [Expr.Counts] at h'
      exact h'.2.2
  | .instr _ op _, .instr _ op' _, hsame, _, h, h' => by
      rw [Expr.same, Bool.and_eq_true] at hsame
      obtain rfl : op = op' := eq_of_beq hsame.1
      rw [Expr.Counts] at h h'
      exact h'.2.2.1.trans h.2.2.1.symm
  | .call _ name _, .call _ name' _, hsame, hmovable, h, h' => by
      rw [Expr.same, Bool.and_eq_true] at hsame
      obtain rfl : name = name' := eq_of_beq hsame.1
      rw [Expr.movable, Bool.and_eq_true] at hmovable
      rw [Expr.Counts] at h h'
      cases hb : d.builtin? name with
      | none =>
          rw [hb] at hmovable
          exact absurd hmovable.1 Bool.noConfusion
      | some b =>
          simp only [hb] at h h'
          exact h'.2.2.1.trans h.2.2.1.symm

/-- Standing code allows copies. -/
theorem Licence.standing_copies (S : Setting) : (Licence.standing S).Copies where
  copied {k x value} line hx g n hk he := by
    rw [Expr.Counts] at he
    exact he.2.2 ▸ (hk x value hx).2.1
  held {k x value e} line hx hsame g n hk he := by
    rcases hk x value hx with ⟨hmovable, hcounts, hname, hreads⟩
    obtain rfl := Expr.Counts.same hsame hmovable hcounts he
    rw [Expr.Counts]
    exact ⟨hname, hreads, rfl⟩
  relined k line line' x g n hk he := by
    rw [Expr.Counts] at he ⊢
    exact he

theorem Expr.counts_number (line : Nat) (w : Word) : (Expr.number line w).Counts d g 1 := by
  rw [number, Expr.Counts]
  exact ⟨Literal.written_number (.inl rfl), ⟨w, Literal.value_number line w⟩, rfl⟩

/-- A rule can be used on every ground. -/
theorem Expr.simplifyStep?_counts {e e' : Expr} {n : Nat} (h : e.simplifyStep? d = some e')
    (he : e.Counts d g n) : e'.Counts d g n := by
  rcases simplifyStep?_eq_some h with ⟨_, r, bs, hfind, hbuild, _⟩
  rcases findRule?_eq_some hfind with ⟨hr, hmatch⟩
  rcases arithmeticRules_op r hr with ⟨i, ps, hop⟩
  rcases arithmeticRules_sound r hr fun _ => 0 with ⟨w, hw, hw'⟩
  have hinside : ∀ line i args, (Expr.instr line i args).Counts d g 1 →
      ∀ a ∈ args, a.Counts d g 1 := by
    intro line i args h a ha
    rw [Expr.Counts] at h
    exact Expr.countOnes_iff.mp h.2.2.2 a ha
  -- What a rule matches is an instruction with one value.
  have hroot : n = 1 ∧ g.ops i := by
    rw [hop, Pattern.denotes] at hw
    rcases Option.bind_eq_some_iff.mp hw with ⟨ws, _, hw⟩
    rw [hop] at hmatch
    rcases Pattern.match?_op hmatch with ⟨line, args, rfl, _⟩
    rw [Expr.Counts] at he
    exact ⟨he.2.2.1.trans (Instruction.evaluate_shape hw).2.2, he.1⟩
  obtain ⟨rfl, hi⟩ := hroot
  have hbs := Pattern.match?_bound (P := (·.Counts d g 1)) hinside hmatch he
    fun b hb => absurd hb List.not_mem_nil
  refine Action.build?_built (P := (·.Counts d g 1)) hbs Expr.counts_number
    (fun line j args hj _ hargs hreturns hones => ?_) (List.Subset.refl _) hbuild hw'
  -- The instructions that are built are those that were matched.
  rcases arithmeticRules_ops r hr j hj with ⟨_, hop'⟩
  obtain rfl : i = j := (Pattern.op.inj (hop.symm.trans hop')).1
  rw [Expr.Counts]
  exact ⟨hi, hargs, hreturns.symm, Expr.countOnes_iff.mpr hones⟩

/-- Standing code allows simplifications. -/
theorem Licence.standing_simplifies (S : Setting) : (Licence.standing S).Simplifies where
  step _ h _ _ _ he := Expr.simplifyStep?_counts h he
  texts {name args args'} k line hname hsame g n hk he := by
    -- Literal arguments are texts, and simplifying leaves them.
    have hargs : args' = args := by
      rw [Flow.takesLiterals] at hname
      rw [Expr.Counts] at he
      cases hb : S.dialect.builtin? name with
      | none =>
          have : (Licence.standing S).dialect.builtin? name = none := hb
          rw [this] at hname
          exact absurd hname Bool.noConfusion
      | some b =>
          have : (Licence.standing S).dialect.builtin? name = some b := hb
          rw [this, Option.any_some] at hname
          simp only [hb, hname, if_true] at he
          refine hsame fun e he' => ?_
          rcases he.2.2.2 e he' with ⟨l, rfl, _⟩
          exact ⟨l, rfl⟩
    exact hargs.symm ▸ he

/-- What the passes do leaves code able to stand. -/
theorem Licence.standing_serves (S : Setting) (code : Block) :
    (Licence.standing S).Serves code where
  closed := standing_closed S
  copies := standing_copies S
  simplifies := standing_simplifies S
  constant _ := trivial
  reshapes := trivial
  once _ _ := trivial

end Expressions

/-- A program can stand, its outermost block has the labels that values may read, and no name is
    declared twice. -/
structure Block.Proper (S : Setting) (code : Block) : Prop where
  stands : code.Stands S [] false
  labels : ∀ x ∈ S.labels, (x, Symbol.label) ∈ code.stmts.flatMap Stmt.hoists
  declared : code.declared.Nodup

section Programs

variable {S : Setting} {code code' : Block}

/-- What a proper program becomes is proper. -/
theorem Block.Becomes.proper (hb : code.Becomes (.standing S) .nothing code')
    (h : code.Proper S) : code'.Proper S := by
  rcases code with ⟨line, stmts⟩
  rcases code' with ⟨line', out⟩
  have hcount := fun x => hb.count_le (x := x) Stmt.declaresHere_role
  rw [Block.Becomes] at hb
  rcases hb with ⟨_, k₁, hk₁, hb⟩
  have hlabels : ∀ x ∈ S.labels, (x, Symbol.label) ∈ out.flatMap Stmt.hoists :=
    fun x hx => hb.hoists (h.labels x hx)
  refine ⟨?_, hlabels, List.nodup_iff_count_le_one.mpr fun x => ?_⟩
  · have hstands := h.stands
    rw [Block.Stands, List.nil_append] at hstands ⊢
    exact hb.stands hstands hb.hoists hlabels ((Known.stands_nothing S _).sub hk₁)
      (List.Subset.refl _)
  · exact Nat.le_trans (hcount x) (List.nodup_iff_count_le_one.mp h.declared x)

/-- Proper programs are accepted. -/
theorem Block.Proper.accepted (h : code.Proper S) :
    ∃ ss, YulToolchain.analyze S.dialect code = .ok ss :=
  analyze_of_stands h.stands h.labels h.declared

/-- A sequence of steps keeps programs proper, if the conditions of loops can be checked
    where they are moved. -/
theorem Step.runAll_proper : ∀ {steps : List Step} {code : Block},
    (.moveLoopCondition ∈ steps → S.ops .iszero) → code.Proper S →
      (Step.runAll S.dialect steps code).Proper S
  | [], code, _, h => h
  | s :: rest, code, hguards, h => by
      have hs := Step.run_becomes (Licence.standing_serves S code) s
        (fun hs => hguards (hs ▸ List.mem_cons_self)) (.inl trivial)
      show (Step.runAll S.dialect rest (s.run S.dialect code)).Proper S
      exact Step.runAll_proper (fun hrest => hguards (List.mem_cons_of_mem _ hrest)) (hs.proper h)

end Programs

end YulToolchain
