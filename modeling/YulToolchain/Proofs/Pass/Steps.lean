import YulToolchain.Pass.Sequence
import YulToolchain.Proofs.Flow.Hooks
import YulToolchain.Proofs.Pass.Traversals

/-!
# What the Passes Do

Every pass turns code into what it may become, under every licence that covers a few ways of
replacing an expression.

So a property of code is kept by all passes if it is kept by what code becomes, and if the
licence that belongs to it covers these. The passes themselves need not be looked at again.

Four passes go bottom-up and splice, split or move statements. Three are walks that know the
values of variables, and of these one replaces statements. The expressions are simplified
bottom-up.

## Main definitions

* `Licence.Copies`, `Licence.Simplifies`: Expressions may be replaced the way the passes do.
* `Licence.Serves`: The licence covers what the passes do to a program.

## Theorems

* `Pass.rematerialize_becomes`, `Pass.reuse_becomes`, `Pass.simplify_becomes`: The passes that
  leave statements alone.
* `Pass.structurePolicy_licensed`: Control flow whose outcome is known.
* `Step.run_becomes`: A program becomes what a step makes of it.
-/

namespace YulToolchain

open Known

/-- Variables may be traded for their known values, and values for variables. -/
structure Licence.Copies (L : Licence) : Prop where
  copied : ∀ {k : Known} {x : String} {value : Expr} (line : Nat), (x, value) ∈ k.entries →
    L.expr k (.ident line x) value
  held : ∀ {k : Known} {x : String} {value e : Expr} (line : Nat), (x, value) ∈ k.entries →
    value.same e = true → L.expr k e (.ident line x)
  relined : ∀ (k : Known) (line line' : Nat) (x : String),
    L.expr k (.ident line x) (.ident line' x)

/-- The arithmetic rules may be applied. Arguments that have to be literals stay what they
    are. -/
structure Licence.Simplifies (L : Licence) : Prop where
  step : ∀ {e e' : Expr} (k : Known), e.simplifyStep? L.dialect = some e' → L.expr k e e'
  texts : ∀ {name : String} {args args' : List Expr} (k : Known) (line : Nat),
    Flow.takesLiterals L.dialect name = true →
    ((∀ e ∈ args, ∃ l, e = .literal l) → args' = args) →
      L.expr k (.call line name args) (.call line name args')

variable {L : Licence}

section Copying

/-- The variable that holds an expression is known to have the same value. -/
theorem Known.mem_of_holder? {k : Known} {e : Expr} {x : String} (h : k.holder? e = some x) :
    ∃ value, (x, value) ∈ k.entries ∧ value.same e = true := by
  rw [holder?, Option.map_eq_some_iff] at h
  rcases h with ⟨⟨y, value⟩, hfind, rfl⟩
  have hsame : value.same e = true := by simpa only using List.find?_some hfind
  exact ⟨value, List.mem_of_find?_eq_some hfind, hsame⟩

/-- Copying a value into its place is licensed. -/
theorem Pass.rematerializeExpr_licensed (hL : L.Closed) (hcopies : L.Copies) (k : Known)
    (e : Expr) (references : Table String Nat) :
    L.expr k e (rematerializeExpr k e references).1 := by
  unfold rematerializeExpr
  split
  · split
    · rename_i value hvalue
      split
      · exact hcopies.copied _ (mem_of_value? hvalue)
      · exact hL.refl _ _
    · exact hL.refl _ _
  · exact hL.refl _ _

/-- Reading a variable in place of its value is licensed. -/
theorem Pass.reuseExpr_licensed (hL : L.Closed) (hcopies : L.Copies) (k : Known) (e : Expr) :
    L.expr k e (reuseExpr k e) := by
  -- A variable that holds the value of the expression may stand for it.
  have hholder : ∀ name, k.holder? e = some name → L.expr k e (.ident e.line name) := by
    intro name hname
    rcases mem_of_holder? hname with ⟨value, hvalue, hsame⟩
    exact hcopies.held _ hvalue hsame
  cases e with
  | literal l => exact hL.refl _ _
  | ident line name =>
      rw [reuseExpr]
      split
      -- A variable known to be another one is that one.
      · rename_i _ source hvalue
        exact hL.trans (hcopies.copied _ (mem_of_value? hvalue)) (hcopies.relined _ _ _ _)
      · exact hL.refl _ _
  | instr line op args | call line name args =>
      simp only [reuseExpr]
      split
      · rename_i name hname
        exact hholder name hname
      · exact hL.refl _ _

/-- The policy that copies values is licensed. -/
theorem Pass.rematerializePolicy_licensed (hL : L.Closed) (hcopies : L.Copies) :
    rematerializePolicy.Licensed L where
  enter k e own := rematerializeExpr_licensed hL hcopies k e own
  leave k e _ := hL.refl k e
  replace _ _ _ _ h := absurd h (by rintro ⟨⟩)

/-- The policy that reuses variables is licensed. -/
theorem Pass.reusePolicy_licensed (hL : L.Closed) (hcopies : L.Copies) :
    reusePolicy.Licensed L where
  enter k e _ := hL.refl k e
  leave k e _ := reuseExpr_licensed hL hcopies k e
  replace _ _ _ _ h := absurd h (by rintro ⟨⟩)

theorem Pass.rematerialize_becomes (hL : L.Closed) (hcopies : L.Copies) (code : Block) :
    code.Becomes L .nothing (rematerialize L.dialect code) :=
  Flow.run_becomes hL (rematerializePolicy_licensed hL hcopies) _ code

theorem Pass.reuse_becomes (hL : L.Closed) (hcopies : L.Copies) (code : Block) :
    code.Becomes L .nothing (reuse L.dialect code) :=
  Flow.run_becomes hL (reusePolicy_licensed hL hcopies) _ code

end Copying

section Simplifying

/-- Simplifying the root again and again is licensed. -/
theorem Expr.simplifyRoot_licensed (hL : L.Closed) (hrules : L.Simplifies) (k : Known)
    (steps : Nat) (e : Expr) : L.expr k e (e.simplifyRoot L.dialect steps) := by
  induction steps generalizing e with
  | zero => exact hL.refl k e
  | succ steps ih =>
      rw [simplifyRoot]
      split
      · rename_i e' he
        exact hL.trans (hrules.step k he) (ih e')
      · exact hL.refl k e

/-- Literals stay as they are. -/
theorem Expr.simplifyAll_literals {d : Dialect} {es : List Expr}
    (h : ∀ e ∈ es, ∃ l, e = Expr.literal l) : Expr.simplifyAll d es = es := by
  induction es with
  | nil => rfl
  | cons e rest ih =>
      rcases h e List.mem_cons_self with ⟨l, rfl⟩
      rw [simplifyAll, simplify, ih fun e' he' => h e' (List.mem_cons_of_mem _ he')]

mutual

/-- Simplifying an expression is licensed. -/
theorem Expr.simplify_licensed (hL : L.Closed) (hrules : L.Simplifies) (k : Known) :
    ∀ e : Expr, L.expr k e (e.simplify L.dialect)
  | .literal l => by
      rw [simplify]
      exact hL.refl _ _
  | .ident line x => by
      rw [simplify]
      exact hL.refl _ _
  | .instr line op args => by
      rw [simplify]
      exact hL.trans (hL.instr line op (Expr.simplifyAll_licensed hL hrules k args))
        (simplifyRoot_licensed hL hrules k _ _)
  | .call line name args => by
      rw [simplify]
      cases hname : Flow.takesLiterals L.dialect name with
      | false => exact hL.call line hname (Expr.simplifyAll_licensed hL hrules k args)
      | true => exact hrules.texts k line hname Expr.simplifyAll_literals

/-- Simplifying arguments is licensed. -/
theorem Expr.simplifyAll_licensed (hL : L.Closed) (hrules : L.Simplifies) (k : Known) :
    ∀ es : List Expr, List.Forall₂ (L.expr k) es (Expr.simplifyAll L.dialect es)
  | [] => by
      rw [simplifyAll]
      exact .nil
  | e :: rest => by
      rw [simplifyAll]
      exact .cons (Expr.simplify_licensed hL hrules k e)
        (Expr.simplifyAll_licensed hL hrules k rest)

end

theorem Pass.simplify_becomes (hL : L.Closed) (hrules : L.Simplifies) (code : Block) :
    code.Becomes L .nothing (simplify L.dialect code) :=
  Block.bottomUp_becomes (fun k e => Expr.simplify_licensed hL hrules k e)
    (fun _ _ _ h => .inl ⟨_, h, rfl⟩) code .nothing

end Simplifying

section Statements

variable {declared : List String} {k : Known}

/-- A block that may be inlined binds only names declared once. -/
theorem Block.canInline_binds {b : Block} (h : b.canInline declared = true)
    (honce : ∀ x, declared.count x ≤ 1 → L.once x) : Stmt.BindIn L.once b.stmts := by
  intro s hs x hx
  rw [canInline, List.all_eq_true] at h
  exact honce x (by simpa only [decide_eq_true_eq] using List.all_eq_true.mp (h s hs) x hx)

/-- A block opens, inlined or kept. -/
theorem Block.inlineOrKeep_opens {b : Block} (honce : ∀ x, declared.count x ≤ 1 → L.once x) :
    b.Opens L.once (b.inlineOrKeep declared) := by
  rw [inlineOrKeep]
  split
  · rename_i h
    exact .inr ⟨canInline_binds h honce, rfl⟩
  · exact .inl rfl

/-- Where every name is declared once a block is inlined. -/
theorem Block.inlineOrKeep_eq (b : Block) (h : ∀ x, declared.count x ≤ 1) :
    b.inlineOrKeep declared = b.stmts := by
  refine if_pos (List.all_eq_true.mpr fun s _ => List.all_eq_true.mpr fun x _ => ?_)
  exact decide_eq_true (h x)

/-- What a statement that stays alike was before. -/
theorem Stmt.Alike.of_block {s : Stmt} {b' : Block} (h : s.Alike L k (.block b')) :
    ∃ b, s = .block b ∧ b.Becomes L k b' := by
  cases s with
  | block b =>
      simp only [Stmt.Alike, Stmt.block.injEq] at h
      rcases h with ⟨_, rfl, hb⟩
      exact ⟨b, rfl, hb⟩
  | decl line vars value => cases value <;> simp [Stmt.Alike] at h
  | loop line pre test post body =>
      rcases pre with ⟨preLine, pre⟩
      simp [Stmt.Alike] at h
  | _ => simp [Stmt.Alike] at h

/-- A declaration without a value is the same as before. -/
theorem Stmt.Alike.of_decl {s : Stmt} {line : Nat} {vars : List TypedName}
    (h : s.Alike L k (.decl line vars none)) : s = .decl line vars none := by
  cases s with
  | decl line vars value =>
      cases value with
      | none =>
          rw [Stmt.Alike] at h
          exact h.symm
      | some value => simp [Stmt.Alike] at h
  | loop line pre test post body =>
      rcases pre with ⟨preLine, pre⟩
      simp [Stmt.Alike] at h
  | _ => simp [Stmt.Alike] at h

/-- A statement that has become a loop was one, and its parts have been rewritten. -/
theorem Stmt.Alike.of_loop {s : Stmt} {line : Nat} {pre' : Block} {test' : Expr}
    {post' body' : Block} (h : s.Alike L k (.loop line pre' test' post' body')) :
    ∃ pre test post body, s = .loop line ⟨pre'.line, pre⟩ test post body ∧
      Stmt.BecomesSeq L k pre pre'.stmts ∧
      L.expr (k.atHead L.dialect pre'.stmts post' body') test test' ∧
      post.Becomes L (k.atHead L.dialect pre'.stmts post' body') post' ∧
      body.Becomes L (k.atHead L.dialect pre'.stmts post' body') body' := by
  cases s with
  | loop line pre test post body =>
      rcases pre with ⟨preLine, pre⟩
      simp only [Stmt.Alike, Stmt.loop.injEq] at h
      rcases h with ⟨_, _, _, _, ⟨rfl, rfl, rfl, rfl, rfl⟩, hrest⟩
      exact ⟨pre, test, post, body, rfl, hrest⟩
  | decl line vars value => cases value <;> simp [Stmt.Alike] at h
  | _ => simp [Stmt.Alike] at h

/-- Flattening is a licensed rewriting of a statement. -/
theorem Pass.flattenStmt_becomes (hreshapes : L.reshapes)
    (honce : ∀ x, declared.count x ≤ 1 → L.once x) {s s' : Stmt} (h : s.Alike L k s') :
    s.Becomes L k (flattenStmt declared s') := by
  cases s' with
  | block b' =>
      rw [flattenStmt, Block.inlineOrKeep]
      split
      · rename_i hinline
        rcases h.of_block with ⟨b, rfl, hb⟩
        refine .inr ⟨hreshapes, ?_⟩
        rw [Stmt.GivesWay]
        exact ⟨b', hb, Block.canInline_binds hinline honce, rfl⟩
      · exact .inl ⟨_, h, rfl⟩
  | _ => exact .inl ⟨_, h, rfl⟩

/-- Splitting declarations is a licensed rewriting of a statement. -/
theorem Pass.initializeStmt_becomes (hreshapes : L.reshapes) (hcosts : L.costs) {s s' : Stmt}
    (h : s.Alike L k s') : s.Becomes L k (initializeStmt s') := by
  cases s' with
  | decl line vars value =>
      cases value with
      | none =>
          rw [h.of_decl]
          refine .inr ⟨hreshapes, ?_⟩
          rw [Stmt.GivesWay]
          exact ⟨hcosts, rfl⟩
      | some value => exact .inl ⟨_, h, rfl⟩
  | _ => exact .inl ⟨_, h, rfl⟩

/-- Hoisting init parts is a licensed rewriting of a statement. -/
theorem Pass.hoistLoopInitStmt_becomes (hreshapes : L.reshapes)
    (honce : ∀ x, declared.count x ≤ 1 → L.once x)
    (hcosts : L.costs ∨ ∀ x, declared.count x ≤ 1) {s s' : Stmt} (h : s.Alike L k s') :
    s.Becomes L k (hoistLoopInitStmt declared s') := by
  cases s' with
  | loop line pre' test' post' body' =>
      rcases pre' with ⟨preLine, _ | ⟨p, ps⟩⟩
      · exact .inl ⟨_, h, rfl⟩
      · rcases h.of_loop with ⟨pre, test, post, body, rfl, hpre, htest, hpost, hbody⟩
        refine .inr ⟨hreshapes, ?_⟩
        rw [Stmt.GivesWay]
        exact .inr ⟨p :: ps, test', post', body', hpre, htest, hpost, hbody,
          .inl ⟨Block.inlineOrKeep_opens honce, hcosts.imp_right (Block.inlineOrKeep_eq _)⟩⟩
  | _ => exact .inl ⟨_, h, rfl⟩

/-- Moving loop conditions is a licensed rewriting of a statement. -/
theorem Pass.moveLoopConditionStmt_becomes (hreshapes : L.reshapes) (hguards : L.guards)
    {s s' : Stmt} (h : s.Alike L k s') : s.Becomes L k (moveLoopConditionStmt s') := by
  cases s' with
  | loop line pre' test' post' body' =>
      rcases pre' with ⟨preLine, pre'⟩
      rcases body' with ⟨bodyLine, body'⟩
      have hmoved : s.Becomes L k [.loop line ⟨preLine, pre'⟩ (.number test'.line 1) post'
          ⟨bodyLine, guard test' :: body'⟩] := by
        rcases h.of_loop with ⟨pre, test, post, body, rfl, hpre, htest, hpost, hbody⟩
        refine .inr ⟨hreshapes, ?_⟩
        rw [Stmt.GivesWay]
        exact .inr ⟨pre', test', post', ⟨bodyLine, body'⟩, hpre, htest, hpost, hbody,
          .inr ⟨hguards, rfl⟩⟩
      cases test' with
      | literal l => exact .inl ⟨_, h, rfl⟩
      | _ => exact hmoved
  | _ => exact .inl ⟨_, h, rfl⟩

end Statements

section Structure

variable {declared : List String} {k : Known}

/-- Rewritten statements bind only names declared once, if the statements did. -/
theorem Stmt.BecomesSeq.bindIn : ∀ {stmts out : List Stmt} {k : Known},
    Stmt.BecomesSeq L k stmts out → Stmt.BindIn L.once stmts → Stmt.BindIn L.once out
  | [], out, k, h, _ => by
      rw [Stmt.becomesSeq_nil.mp h]
      exact fun _ hs => absurd hs List.not_mem_nil
  | s :: rest, out, k, h, hbind => by
      rcases Stmt.becomesSeq_cons.mp h with ⟨first, more, k₁, rfl, hs, _, hmore⟩
      rw [Stmt.BindIn, List.forall_mem_cons] at hbind
      refine List.forall_mem_append.mpr ⟨?_, Stmt.BecomesSeq.bindIn hmore hbind.2⟩
      rcases hs with ⟨s', hs, rfl⟩ | ⟨_, hs⟩
      · refine List.forall_mem_singleton.mpr ?_
        rw [hs.sameNames.binds]
        exact hbind.1
      -- What a statement gives way to binds such names, or is the declaration split.
      · rcases hs.bindIn with hfirst | ⟨line, vars, rfl, rfl⟩
        · exact hfirst
        · intro t ht x hx
          have hmem : x ∈ (Pass.initializeStmt (.decl line vars none)).flatMap Stmt.bindsHere :=
            List.mem_flatMap.mpr ⟨t, ht, hx⟩
          rw [Stmt.flatMap_split _ fun _ _ _ => rfl] at hmem
          exact hbind.1 x hmem

/-- What a block that was put in place of a statement becomes. -/
theorem Block.inlineOrKeep_becomes {b : Block} {out : List Stmt}
    (honce : ∀ x, declared.count x ≤ 1 → L.once x)
    (h : Stmt.BecomesSeq L k (b.inlineOrKeep declared) out) :
    ∃ b', b.Becomes L k b' ∧ b'.Opens L.once out := by
  rw [inlineOrKeep] at h
  split at h
  · rename_i hinline
    refine ⟨⟨b.line, out⟩, Block.becomes_iff.mpr ⟨rfl, k, .refl k, h⟩, .inr ⟨?_, rfl⟩⟩
    exact h.bindIn (canInline_binds hinline honce)
  · rcases Stmt.becomesSeq_singleton.mp h with ⟨s', hs, rfl⟩ | ⟨_, hs⟩
    · rw [Stmt.Alike] at hs
      rcases hs with ⟨b', rfl, hb⟩
      exact ⟨b', hb, .inl rfl⟩
    · rw [Stmt.GivesWay] at hs
      rcases hs with ⟨b', hb, hbind, rfl⟩
      exact ⟨b', hb, .inr ⟨hbind, rfl⟩⟩

theorem Case.selects_none {line : Nat} {body : Block} {w : Word} :
    Case.selects w ⟨line, none, body⟩ = false := rfl

theorem Case.selects_some {line : Nat} {l : Literal} {body : Block} {w : Word} :
    Case.selects w ⟨line, some l, body⟩ = true ↔ l.value.toOption = some w := by
  rw [selects, Option.any_some, beq_iff_eq]

/-- The selected case is the one that a run takes. -/
theorem selectCase?_selected (honce : ∀ x, declared.count x ≤ 1 → L.once x) {w : Word} :
    ∀ {cases : List Case} {out : List Stmt},
      Stmt.BecomesSeq L k (match selectCase? w cases with
        | some c => c.body.inlineOrKeep declared
        | none => []) out → Case.Selected L k w cases out
  | [], out, h => by
      rw [Case.Selected]
      exact Stmt.becomesSeq_nil.mp h
  | ⟨line, none, body⟩ :: rest, out, h => by
      rw [Case.Selected]
      rw [selectCase?, List.find?_cons_of_neg (by rw [Case.selects_none]; exact Bool.false_ne_true),
        List.find?_cons_of_pos rfl] at h
      split
      -- A case behind the default is selected.
      · rename_i hany
        refine selectCase?_selected honce ?_
        rcases List.any_eq_true.mp hany with ⟨c, hc, hselects⟩
        have hsome : (rest.find? (Case.selects w)).isSome = true :=
          List.find?_isSome.mpr ⟨c, hc, hselects⟩
        rcases Option.isSome_iff_exists.mp hsome with ⟨c', hc'⟩
        rw [selectCase?, hc', Option.some_or]
        rw [hc', Option.some_or] at h
        exact h
      -- No other case is selected, so that the default is taken.
      · rename_i hany
        have hnone : rest.find? (Case.selects w) = none := by
          rw [List.find?_eq_none]
          exact fun c hc hselects => hany (List.any_eq_true.mpr ⟨c, hc, hselects⟩)
        rw [hnone, Option.none_or] at h
        exact Block.inlineOrKeep_becomes honce h
  | ⟨line, some l, body⟩ :: rest, out, h => by
      rw [Case.Selected]
      -- This case is the first with the value.
      split
      · rename_i hvalue
        rw [selectCase?, List.find?_cons_of_pos (Case.selects_some.mpr hvalue),
          Option.some_or] at h
        exact Block.inlineOrKeep_becomes honce h
      · rename_i hvalue
        refine selectCase?_selected honce ?_
        rw [selectCase?, List.find?_cons_of_neg fun hs => hvalue (Case.selects_some.mp hs),
          List.find?_cons_of_neg Bool.false_ne_true] at h
        exact h

/-- An inlined block weighs no more than the block as a statement. -/
theorem Block.weight_inlineOrKeep (b : Block) (declared : List String) :
    Stmt.weightSeq (b.inlineOrKeep declared) ≤ 4 + b.weight := by
  rcases b with ⟨line, stmts⟩
  rw [inlineOrKeep]
  split
  · rw [Block.weight]
    show Stmt.weightSeq stmts ≤ 4 + (1 + Stmt.weightSeq stmts)
    omega
  · rw [Stmt.weightSeq, Stmt.weightSeq, Stmt.weight]
    exact Nat.le_refl _

/-- The selected case is one of the cases. -/
theorem selectCase?_mem {w : Word} {cases : List Case} {c : Case}
    (h : selectCase? w cases = some c) : c ∈ cases := by
  rw [selectCase?, Option.or_eq_some_iff] at h
  rcases h with h | ⟨_, h⟩
  · exact List.mem_of_find?_eq_some h
  · exact List.mem_of_find?_eq_some h

/-- The body of a case weighs no more than the cases. -/
theorem Case.weight_le {c : Case} : ∀ {cases : List Case}, c ∈ cases →
    c.body.weight ≤ Case.weightSeq cases
  | [], h => absurd h List.not_mem_nil
  | ⟨line, value, body⟩ :: rest, h => by
      rw [Case.weightSeq]
      rcases List.mem_cons.mp h with rfl | h
      · show body.weight ≤ _
        omega
      · have := Case.weight_le h
        omega

mutual

/-- What an expression reads it refers to. -/
theorem Expr.reads_references : ∀ e : Expr, e.reads ⊆ e.references
  | .literal _ => by
      rw [reads, references]
      exact List.Subset.refl _
  | .ident _ _ => by
      rw [reads, references]
      exact List.Subset.refl _
  | .instr _ _ args => by
      rw [reads, references]
      exact Expr.readsAll_references args
  | .call _ _ args => by
      rw [reads, references]
      exact List.Subset.trans (Expr.readsAll_references args) (List.subset_cons_self _ _)

/-- What arguments read they refer to. -/
theorem Expr.readsAll_references : ∀ es : List Expr, Expr.readsAll es ⊆ Expr.referencesAll es
  | [] => by
      rw [readsAll, referencesAll]
      exact List.Subset.refl _
  | e :: rest => by
      rw [readsAll, referencesAll]
      exact List.append_subset.mpr
        ⟨List.Subset.trans (Expr.reads_references e) (List.subset_append_left _ _),
          List.Subset.trans (Expr.readsAll_references rest) (List.subset_append_right _ _)⟩

end

/-- An initialisation that does not touch what a condition refers to does not touch what it
    reads. -/
theorem Pass.unchanged_reads {line : Nat} {pre : List Stmt} {test : Expr}
    (h : ¬changedByInit ⟨line, pre⟩ test = true) :
    ∀ x ∈ test.reads, x ∉ Stmt.assignedSeq pre ∧ x ∉ Stmt.declaredSeq pre := by
  intro x hx
  rw [changedByInit, Bool.and_eq_true, not_and, Bool.not_eq_true', List.any_eq_true] at h
  rcases pre with _ | ⟨p, ps⟩
  · exact ⟨List.not_mem_nil, List.not_mem_nil⟩
  · have hfree := h rfl
    simp only [Bool.or_eq_true, List.contains_iff_mem, not_exists, not_and, not_or] at hfree
    rcases hfree x (Expr.reads_references test hx) with ⟨hassigned, hdeclared⟩
    refine ⟨hassigned, fun hmem => hdeclared ?_⟩
    rcases List.mem_flatMap.mp hmem with ⟨s, hs, hx⟩
    refine List.mem_flatMap.mpr ⟨s, Stmt.mem_allStmtsSeq.mpr ⟨s, hs, .inl rfl⟩, ?_⟩
    cases s with
    | decl line vars value => exact hx
    | _ => exact absurd hx List.not_mem_nil

/-- A loop gives way to its initialisation if it is never entered. -/
theorem Pass.simplifyStructureStmt_loop {line : Nat} {pre post body : Block} {test : Expr}
    {stmts : List Stmt}
    (h : simplifyStructureStmt declared k (.loop line pre test post body) = some stmts) :
    ¬changedByInit pre test = true ∧ k.constant? test = some 0 ∧
      stmts = pre.inlineOrKeep declared := by
  rw [simplifyStructureStmt] at h
  split at h
  -- The init part changes the test, and nothing is done.
  · exact absurd h (by rintro ⟨⟩)
  rename_i hchanged
  split at h
  · rename_i w hw
    by_cases hzero : w = 0
    · subst hzero
      rw [if_pos rfl, Option.some.injEq] at h
      exact ⟨hchanged, hw, h.symm⟩
    · rw [if_neg hzero] at h
      exact absurd h (by rintro ⟨⟩)
  · exact absurd h (by rintro ⟨⟩)

/-- What takes the place of a statement weighs less. -/
theorem Pass.simplifyStructureStmt_weight {s : Stmt} {stmts : List Stmt}
    (h : simplifyStructureStmt declared k s = some stmts) : Stmt.weightSeq stmts < s.weight := by
  cases s with
  | cond line test body =>
      rcases Option.map_eq_some_iff.mp h with ⟨w, _, rfl⟩
      rw [Stmt.weight]
      split
      · rw [Stmt.weightSeq]
        omega
      · have := body.weight_inlineOrKeep declared
        omega
  | switch line subject cases =>
      rcases Option.map_eq_some_iff.mp h with ⟨w, _, rfl⟩
      rw [Stmt.weight]
      rcases hcase : selectCase? w cases with _ | c
      · rw [Stmt.weightSeq]
        omega
      · have := c.body.weight_inlineOrKeep declared
        have := Case.weight_le (selectCase?_mem hcase)
        show Stmt.weightSeq (c.body.inlineOrKeep declared) < _
        omega
  | loop line pre test post body =>
      rcases simplifyStructureStmt_loop h with ⟨_, _, rfl⟩
      have := pre.weight_inlineOrKeep declared
      rw [Stmt.weight]
      omega
  | _ => exact absurd h (by rintro ⟨⟩)

/-- The policy that removes statements is licensed. -/
theorem Pass.structurePolicy_licensed (hL : L.Closed) (hreshapes : L.reshapes)
    (honce : ∀ x, declared.count x ≤ 1 → L.once x)
    (hconstant : ∀ {k : Known} {e : Expr} {w : Word}, k.constant? e = some w → L.constant k e w) :
    (structurePolicy declared).Licensed L where
  enter k e _ := hL.refl k e
  leave k e _ := hL.refl k e
  replace k s _ stmts h := by
    change simplifyStructureStmt declared k s = some stmts at h
    refine ⟨simplifyStructureStmt_weight h, hreshapes, fun out hout => ?_⟩
    cases s with
    | cond line test body =>
        rcases Option.map_eq_some_iff.mp h with ⟨w, hw, rfl⟩
        rw [Stmt.GivesWay]
        -- The test is zero, or it holds and the body opens.
        by_cases hzero : w = 0
        · subst hzero
          rw [if_pos rfl, Stmt.becomesSeq_nil] at hout
          exact .inl ⟨hconstant hw, hout⟩
        · rw [if_neg hzero] at hout
          rcases Block.inlineOrKeep_becomes honce hout with ⟨b', hb, hopens⟩
          exact .inr ⟨w, b', hconstant hw, hzero, hb, hopens⟩
    | switch line subject cases =>
        rcases Option.map_eq_some_iff.mp h with ⟨w, hw, rfl⟩
        rw [Stmt.GivesWay]
        exact ⟨w, hconstant hw, selectCase?_selected honce hout⟩
    | loop line pre test post body =>
        rcases pre with ⟨preLine, pre⟩
        rcases simplifyStructureStmt_loop h with ⟨hchanged, hw, rfl⟩
        -- The init part opens, rewritten or not.
        rcases Block.inlineOrKeep_becomes honce hout with ⟨⟨line', pre'⟩, hb, hopens⟩
        rw [Block.becomes_iff] at hb
        rcases hb with ⟨rfl, k₁, hk₁, hb⟩
        rw [Stmt.GivesWay]
        exact .inl ⟨pre', k₁, hconstant hw, unchanged_reads hchanged, hk₁, hb, hopens⟩
    | _ => exact absurd h (by rintro ⟨⟩)

end Structure

/-- The licence covers what the passes do to a program. -/
structure Licence.Serves (L : Licence) (code : Block) : Prop where
  closed : L.Closed
  copies : L.Copies
  simplifies : L.Simplifies
  constant : ∀ {k : Known} {e : Expr} {w : Word}, k.constant? e = some w → L.constant k e w
  reshapes : L.reshapes
  once : ∀ x, code.declared.count x ≤ 1 → L.once x

/-- A block may stay as it is. -/
theorem Block.becomes_refl (hL : L.Closed) (code : Block) : code.Becomes L .nothing code := by
  have hidle : (Policy.idle Unit).Licensed L := ⟨fun k e _ => hL.refl k e,
    fun k e _ => hL.refl k e, fun _ _ _ _ h => absurd h (by rintro ⟨⟩)⟩
  have hstill : (Policy.idle Unit).Still := ⟨fun _ _ _ => rfl, fun _ _ _ => rfl, fun _ _ _ => rfl⟩
  have h := Flow.run_becomes hL hidle () code
  rw [Flow.run_still hstill] at h
  exact h

/-- A program becomes what a step makes of it. Moving the conditions of loops takes a
    licence of its own, and code gets no more steps to take unless declarations are split
    up or an initialisation stays a block in front of its loop. -/
theorem Step.run_becomes {code : Block} (h : L.Serves code) (s : Step)
    (hguards : s = .moveLoopCondition → L.guards)
    (hcosts : L.costs ∨ s ≠ .initializeVars ∧ code.declared.Nodup) :
    code.Becomes L .nothing (s.run L.dialect code) := by
  have hid : ∀ (k : Known) (e : Expr), L.expr k e (id e) := fun k e => h.closed.refl k e
  cases s with
  -- Four steps rewrite from the inside, each by its lemma for one statement.
  | flatten =>
      exact Block.bottomUp_becomes hid
        (fun _ _ _ hs => Pass.flattenStmt_becomes h.reshapes h.once hs) code .nothing
  | initializeVars =>
      exact Block.bottomUp_becomes hid
        (fun _ _ _ hs => Pass.initializeStmt_becomes h.reshapes
          (hcosts.resolve_right fun hs => hs.1 rfl) hs) code .nothing
  | hoistLoopInit =>
      exact Block.bottomUp_becomes hid
        (fun _ _ _ hs => Pass.hoistLoopInitStmt_becomes h.reshapes h.once
          (hcosts.imp_right fun hs => List.nodup_iff_count_le_one.mp hs.2) hs) code .nothing
  | moveLoopCondition =>
      exact Block.bottomUp_becomes hid
        (fun _ _ _ hs => Pass.moveLoopConditionStmt_becomes h.reshapes (hguards rfl) hs) code
        .nothing
  -- The others are walks with what is known, or rewrite expressions only.
  | rematerialize => exact Pass.rematerialize_becomes h.closed h.copies code
  | reuse => exact Pass.reuse_becomes h.closed h.copies code
  | simplify => exact Pass.simplify_becomes h.closed h.simplifies code
  | simplifyStructure =>
      show code.Becomes L .nothing (Pass.simplifyStructure L.dialect code)
      rw [Pass.simplifyStructure]
      split
      · exact Flow.run_becomes h.closed
          (Pass.structurePolicy_licensed h.closed h.reshapes h.once h.constant) () code
      · exact Block.becomes_refl h.closed code

end YulToolchain
