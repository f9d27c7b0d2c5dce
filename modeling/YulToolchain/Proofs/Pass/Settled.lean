import YulToolchain.Proofs.Pass.Becomes

/-!
# Changes That Settle

A change from the inside to the outside has nothing left to do in its own result.

The walk does not look at what it puts in place of a statement, so a second walk could
find something that the first one brought about. It does not if whatever takes the
place of a statement is settled: the change leaves it and everything inside it
alone. That is a condition on one statement at a time, and the parts of the statement may
be taken as settled, since they were walked before.

Two of the passes look at the declarations of the whole program before they start. They
move declarations and never drop one, so the second walk goes by the same
declarations as the first.

## Main definitions

* `Stmt.Settled`: A change leaves some statements and all that is inside them alone.
* `Stmt.Settles`: What takes the place of a statement is settled.

## Theorems

* `Block.bottomUp_settled`: Settled code is left alone.
* `Block.bottomUp_settles`: The result of a change is settled.
* `Block.declared_bottomUp`: A change that drops no declaration keeps all of them.
* `bottomUp_passes_idempotent`: The passes change nothing when they are applied again.
-/

namespace YulToolchain

/-- A change leaves some statements and all that is inside them alone. -/
def Stmt.Settled (onStmt : Stmt → List Stmt) (stmts : List Stmt) : Prop :=
  ∀ s ∈ Stmt.allStmtsSeq stmts, onStmt s = [s]

/-- What takes the place of a statement is settled if the parts of the statement are. -/
def Stmt.Settles (onStmt : Stmt → List Stmt) : Prop :=
  ∀ s : Stmt, (∀ t ∈ s.allInner, onStmt t = [t]) → Stmt.Settled onStmt (onStmt s)

/-- A change puts no declaration in place of another one, adds none and drops none. -/
def Stmt.KeepsDeclared (onStmt : Stmt → List Stmt) : Prop :=
  ∀ s : Stmt, (Stmt.allStmtsSeq (onStmt s)).flatMap Stmt.declaresHere
    = s.declaresHere ++ s.allInner.flatMap Stmt.declaresHere

theorem Stmt.allStmtsSeq_singleton (s : Stmt) : Stmt.allStmtsSeq [s] = s :: s.allInner := by
  rw [Stmt.allStmtsSeq, Stmt.allStmtsSeq, List.append_nil]

section Walk

variable {onStmt : Stmt → List Stmt}

/-- Settled statements in a row are settled. -/
theorem Stmt.settled_append {stmts rest : List Stmt} (h : Stmt.Settled onStmt stmts)
    (hrest : Stmt.Settled onStmt rest) : Stmt.Settled onStmt (stmts ++ rest) := by
  intro s hs
  rw [Stmt.allStmtsSeq_append] at hs
  rcases List.mem_append.mp hs with hs | hs
  · exact h s hs
  · exact hrest s hs

/-- A statement that stays as it is, for one reason or another. -/
theorem Stmt.settled_singleton {s : Stmt} (hs : onStmt s = [s])
    (h : ∀ t ∈ s.allInner, onStmt t = [t]) : Stmt.Settled onStmt [s] := by
  intro t ht
  rw [Stmt.allStmtsSeq_singleton] at ht
  rcases List.mem_cons.mp ht with rfl | ht
  · exact hs
  · exact h t ht

mutual

/-- Settled code is left alone. -/
theorem Block.bottomUp_settled : ∀ {b : Block}, (∀ s ∈ b.allStmts, onStmt s = [s]) →
    b.bottomUp id onStmt = b
  | ⟨line, stmts⟩, h => by
      rw [Block.bottomUp, Stmt.bottomUpSeq_settled h]

/-- Settled statements stay as they are. -/
theorem Stmt.bottomUpSeq_settled : ∀ {stmts : List Stmt}, Stmt.Settled onStmt stmts →
    Stmt.bottomUpSeq id onStmt stmts = stmts
  | [], _ => by rw [Stmt.bottomUpSeq]
  | s :: rest, h => by
      have hs : onStmt s = [s] := h s (by rw [Stmt.allStmtsSeq]; exact List.mem_cons_self)
      have hinner : ∀ t ∈ s.allInner, onStmt t = [t] := fun t ht => h t (by
        rw [Stmt.allStmtsSeq]
        exact List.mem_cons_of_mem _ (List.mem_append_left _ ht))
      have hrest : Stmt.Settled onStmt rest := fun t ht => h t (by
        rw [Stmt.allStmtsSeq]
        exact List.mem_cons_of_mem _ (List.mem_append_right _ ht))
      rw [Stmt.bottomUpSeq, Stmt.bottomUpInner_settled hinner, hs, Stmt.bottomUpSeq_settled hrest,
        List.singleton_append]

/-- A statement whose inside is settled stays as it is. -/
theorem Stmt.bottomUpInner_settled : ∀ {s : Stmt}, (∀ t ∈ s.allInner, onStmt t = [t]) →
    s.bottomUpInner id onStmt = s
  | .expr _ _, _ => by rw [Stmt.bottomUpInner, id]
  | .assign _ _ _, _ => by rw [Stmt.bottomUpInner, id]
  | .decl _ _ _, _ => by rw [Stmt.bottomUpInner, Option.map_id, id]
  | .func _ _ _ _ body, h => by rw [Stmt.bottomUpInner, Block.bottomUp_settled h]
  | .cond _ _ body, h => by rw [Stmt.bottomUpInner, Block.bottomUp_settled h, id]
  | .switch _ _ cases, h => by rw [Stmt.bottomUpInner, Case.bottomUpSeq_settled h, id]
  | .loop _ pre _ post body, h => by
      simp only [Stmt.allInner, List.mem_append] at h
      rw [Stmt.bottomUpInner, Block.bottomUp_settled fun s hs => h s (.inl (.inl hs)),
        Block.bottomUp_settled fun s hs => h s (.inr hs),
        Block.bottomUp_settled fun s hs => h s (.inl (.inr hs)), id]
  | .block b, h => by rw [Stmt.bottomUpInner, Block.bottomUp_settled h]
  | .brk _, _ => by rw [Stmt.bottomUpInner]
  | .cont _, _ => by rw [Stmt.bottomUpInner]
  | .label _ _, _ => by rw [Stmt.bottomUpInner]
  | .stackAssign _ _, _ => by rw [Stmt.bottomUpInner]

/-- Settled cases stay as they are. -/
theorem Case.bottomUpSeq_settled : ∀ {cases : List Case},
    (∀ s ∈ Case.allStmtsSeq cases, onStmt s = [s]) → Case.bottomUpSeq id onStmt cases = cases
  | [], _ => by rw [Case.bottomUpSeq]
  | ⟨_, _, body⟩ :: rest, h => by
      simp only [Case.allStmtsSeq, List.mem_append] at h
      rw [Case.bottomUpSeq, Block.bottomUp_settled fun s hs => h s (.inl hs),
        Case.bottomUpSeq_settled fun s hs => h s (.inr hs)]

end

mutual

/-- The result of a change is settled. -/
theorem Block.bottomUp_settles (h : Stmt.Settles onStmt) : ∀ b : Block,
    ∀ s ∈ (b.bottomUp id onStmt).allStmts, onStmt s = [s]
  | ⟨_, stmts⟩ => by
      rw [Block.bottomUp, Block.allStmts]
      exact Stmt.bottomUpSeq_settles h stmts

/-- Rewriting from the inside settles statements, if it settles one of them. -/
theorem Stmt.bottomUpSeq_settles (h : Stmt.Settles onStmt) : ∀ stmts : List Stmt,
    Stmt.Settled onStmt (Stmt.bottomUpSeq id onStmt stmts)
  | [] => by
      rw [Stmt.bottomUpSeq]
      exact fun s hs => absurd hs List.not_mem_nil
  | s :: rest => by
      rw [Stmt.bottomUpSeq]
      exact Stmt.settled_append (h _ (Stmt.bottomUpInner_settles h s))
        (Stmt.bottomUpSeq_settles h rest)

/-- Rewriting from the inside settles what is inside of a statement. -/
theorem Stmt.bottomUpInner_settles (h : Stmt.Settles onStmt) : ∀ s : Stmt,
    ∀ t ∈ (s.bottomUpInner id onStmt).allInner, onStmt t = [t]
  | .func _ _ _ _ body => by
      rw [Stmt.bottomUpInner, Stmt.allInner]
      exact Block.bottomUp_settles h body
  | .cond _ _ body => by
      rw [Stmt.bottomUpInner, Stmt.allInner]
      exact Block.bottomUp_settles h body
  | .switch _ _ cases => by
      rw [Stmt.bottomUpInner, Stmt.allInner]
      exact Case.bottomUpSeq_settles h cases
  | .loop _ pre _ post body => by
      intro t ht
      simp only [Stmt.bottomUpInner, Stmt.allInner, List.mem_append] at ht
      rcases ht with (ht | ht) | ht
      · exact Block.bottomUp_settles h pre t ht
      · exact Block.bottomUp_settles h body t ht
      · exact Block.bottomUp_settles h post t ht
  | .block b => by
      rw [Stmt.bottomUpInner, Stmt.allInner]
      exact Block.bottomUp_settles h b
  | .expr _ _ => fun t ht => absurd ht List.not_mem_nil
  | .assign _ _ _ => fun t ht => absurd ht List.not_mem_nil
  | .decl _ _ _ => fun t ht => absurd ht List.not_mem_nil
  | .brk _ => fun t ht => absurd ht List.not_mem_nil
  | .cont _ => fun t ht => absurd ht List.not_mem_nil
  | .label _ _ => fun t ht => absurd ht List.not_mem_nil
  | .stackAssign _ _ => fun t ht => absurd ht List.not_mem_nil

/-- Rewriting from the inside settles cases. -/
theorem Case.bottomUpSeq_settles (h : Stmt.Settles onStmt) : ∀ cases : List Case,
    ∀ s ∈ Case.allStmtsSeq (Case.bottomUpSeq id onStmt cases), onStmt s = [s]
  | [] => fun s hs => absurd hs List.not_mem_nil
  | ⟨_, _, body⟩ :: rest => by
      intro s hs
      rw [Case.bottomUpSeq, Case.allStmtsSeq] at hs
      rcases List.mem_append.mp hs with hs | hs
      · exact Block.bottomUp_settles h body s hs
      · exact Case.bottomUpSeq_settles h rest s hs

end

/-- A change whose results are settled changes nothing when it is made again. -/
theorem Block.bottomUp_bottomUp (h : Stmt.Settles onStmt) (b : Block) :
    (b.bottomUp id onStmt).bottomUp id onStmt = b.bottomUp id onStmt :=
  Block.bottomUp_settled (Block.bottomUp_settles h b)

mutual

/-- A change that drops no declaration keeps all of them, in their order. -/
theorem Block.declared_bottomUp (h : Stmt.KeepsDeclared onStmt) : ∀ b : Block,
    (b.bottomUp id onStmt).declared = b.declared
  | ⟨_, stmts⟩ => by
      rw [Block.bottomUp]
      exact Stmt.declared_bottomUpSeq h stmts

/-- Rewriting from the inside keeps declared names, if it keeps those of one statement. -/
theorem Stmt.declared_bottomUpSeq (h : Stmt.KeepsDeclared onStmt) : ∀ stmts : List Stmt,
    (Stmt.allStmtsSeq (Stmt.bottomUpSeq id onStmt stmts)).flatMap Stmt.declaresHere
      = (Stmt.allStmtsSeq stmts).flatMap Stmt.declaresHere
  | [] => by rw [Stmt.bottomUpSeq]
  | s :: rest => by
      rw [Stmt.bottomUpSeq, Stmt.allStmtsSeq_append, List.flatMap_append, h,
        Stmt.declared_bottomUpInner h s, Stmt.declared_bottomUpSeq h rest, Stmt.allStmtsSeq,
        List.flatMap_cons, List.flatMap_append, List.append_assoc]

/-- Rewriting from the inside keeps the names declared in a statement. -/
theorem Stmt.declared_bottomUpInner (h : Stmt.KeepsDeclared onStmt) : ∀ s : Stmt,
    (s.bottomUpInner id onStmt).declaresHere
        ++ (s.bottomUpInner id onStmt).allInner.flatMap Stmt.declaresHere
      = s.declaresHere ++ s.allInner.flatMap Stmt.declaresHere
  | .func _ name params returns body => by
      rw [Stmt.bottomUpInner, Stmt.allInner, Stmt.allInner]
      exact congrArg (_ ++ ·) (Block.declared_bottomUp h body)
  | .cond _ _ body => by
      rw [Stmt.bottomUpInner, Stmt.allInner, Stmt.allInner]
      exact congrArg (_ ++ ·) (Block.declared_bottomUp h body)
  | .switch _ _ cases => by
      rw [Stmt.bottomUpInner, Stmt.allInner, Stmt.allInner]
      exact congrArg (_ ++ ·) (Case.declared_bottomUpSeq h cases)
  | .loop _ pre _ post body => by
      have hpre := Block.declared_bottomUp h pre
      have hpost := Block.declared_bottomUp h post
      have hbody := Block.declared_bottomUp h body
      rw [Block.declared, Block.declared] at hpre hpost hbody
      simp only [Stmt.bottomUpInner, Stmt.allInner, List.flatMap_append, hpre, hpost, hbody]
      rfl
  | .block b => by
      rw [Stmt.bottomUpInner, Stmt.allInner, Stmt.allInner]
      exact congrArg (_ ++ ·) (Block.declared_bottomUp h b)
  | .expr _ _ => rfl
  | .assign _ _ _ => rfl
  | .decl _ _ _ => rfl
  | .brk _ => rfl
  | .cont _ => rfl
  | .label _ _ => rfl
  | .stackAssign _ _ => rfl

/-- Rewriting from the inside keeps the names declared in cases. -/
theorem Case.declared_bottomUpSeq (h : Stmt.KeepsDeclared onStmt) : ∀ cases : List Case,
    (Case.allStmtsSeq (Case.bottomUpSeq id onStmt cases)).flatMap Stmt.declaresHere
      = (Case.allStmtsSeq cases).flatMap Stmt.declaresHere
  | [] => rfl
  | ⟨_, _, body⟩ :: rest => by
      have hbody := Block.declared_bottomUp h body
      rw [Block.declared, Block.declared] at hbody
      rw [Case.bottomUpSeq, Case.allStmtsSeq, Case.allStmtsSeq, List.flatMap_append,
        List.flatMap_append, hbody, Case.declared_bottomUpSeq h rest]

end

end Walk

section Passes

variable {declared : List String}

/-- Both ways to let a block stand in the code around it have the same declarations. -/
theorem Block.declared_inlineOrKeep (b : Block) :
    (Stmt.allStmtsSeq (b.inlineOrKeep declared)).flatMap Stmt.declaresHere = b.declared := by
  rcases b with ⟨line, stmts⟩
  rw [Block.inlineOrKeep]
  split
  · rfl
  · rw [Stmt.allStmtsSeq_singleton, List.flatMap_cons]
    rfl

/-- What a spliced block leaves has no block at its top level that could be spliced. -/
theorem Pass.flattenStmt_settles : Stmt.Settles (flattenStmt declared) := by
  intro s hinner
  cases s with
  | block b =>
      rcases b with ⟨line, stmts⟩
      rw [Pass.flattenStmt, Block.inlineOrKeep]
      by_cases hinline : (⟨line, stmts⟩ : Block).canInline declared = true
      · rw [if_pos hinline]
        exact hinner
      · rw [if_neg hinline]
        refine Stmt.settled_singleton ?_ hinner
        rw [Pass.flattenStmt, Block.inlineOrKeep, if_neg hinline]
  | _ => exact Stmt.settled_singleton rfl hinner

/-- Flattening keeps declared names. -/
theorem Pass.flattenStmt_keepsDeclared : Stmt.KeepsDeclared (flattenStmt declared) := by
  intro s
  cases s with
  | block b => exact b.declared_inlineOrKeep
  | _ => exact congrArg (·.flatMap Stmt.declaresHere) (Stmt.allStmtsSeq_singleton _)

/-- A loop without initialisation stays, and so do the statements in front of it. -/
theorem Pass.hoistLoopInitStmt_settles : Stmt.Settles (hoistLoopInitStmt declared) := by
  intro s hinner
  cases s with
  | loop line pre test post body =>
      rcases pre with ⟨preLine, _ | ⟨p, ps⟩⟩
      · exact Stmt.settled_singleton rfl hinner
      · simp only [Stmt.allInner, List.mem_append] at hinner
        -- The moved statements and the loop that is left are settled each.
        have hpre : Stmt.Settled (hoistLoopInitStmt declared) (p :: ps) :=
          fun t ht => hinner t (.inl (.inl ht))
        have hloop : Stmt.Settled (hoistLoopInitStmt declared)
            [.loop line ⟨preLine, []⟩ test post body] := by
          refine Stmt.settled_singleton rfl fun t ht => ?_
          simp only [Stmt.allInner, Block.allStmts, Stmt.allStmtsSeq, List.nil_append,
            List.mem_append] at ht
          exact hinner t (ht.elim (fun ht => .inl (.inr ht)) .inr)
        have hmoved := Stmt.settled_append hpre hloop
        rw [Pass.hoistLoopInitStmt, Block.inlineOrKeep]
        split
        · exact hmoved
        · exact Stmt.settled_singleton rfl hmoved
  | _ => exact Stmt.settled_singleton rfl hinner

/-- Hoisting init parts keeps declared names. -/
theorem Pass.hoistLoopInitStmt_keepsDeclared : Stmt.KeepsDeclared (hoistLoopInitStmt declared) := by
  intro s
  cases s with
  | loop line pre test post body =>
      rcases pre with ⟨preLine, _ | ⟨p, ps⟩⟩
      · exact congrArg (·.flatMap Stmt.declaresHere) (Stmt.allStmtsSeq_singleton _)
      · rw [Pass.hoistLoopInitStmt, Block.declared_inlineOrKeep, Block.declared, Block.allStmts,
          Stmt.allStmtsSeq_append, Stmt.allStmtsSeq_singleton]
        simp only [Stmt.allInner, Block.allStmts, Stmt.declaresHere, Stmt.allStmtsSeq,
          List.flatMap_append, List.flatMap_cons, List.nil_append, List.append_assoc]
  | _ => exact congrArg (·.flatMap Stmt.declaresHere) (Stmt.allStmtsSeq_singleton _)

/-- The condition that is left behind is a literal, and nothing in the check that takes its place is
    a loop. -/
theorem Pass.moveLoopConditionStmt_settles : Stmt.Settles moveLoopConditionStmt := by
  intro s hinner
  cases s with
  | loop line pre test post body =>
      rcases body with ⟨bodyLine, stmts⟩
      cases test with
      | literal l => exact Stmt.settled_singleton rfl hinner
      | _ =>
          refine Stmt.settled_singleton rfl fun t ht => ?_
          simp only [Stmt.allInner, Block.allStmts, Stmt.allStmtsSeq, Pass.guard, List.mem_append,
            List.mem_cons, List.not_mem_nil, or_false] at ht hinner
          -- The statements inside of the new loop are the old ones and the two of the guard.
          rcases ht with (ht | rfl | rfl | ht) | ht
          · exact hinner t (.inl (.inl ht))
          · rfl
          · rfl
          · exact hinner t (.inl (.inr ht))
          · exact hinner t (.inr ht)
  | _ => exact Stmt.settled_singleton rfl hinner

/-- Every new declaration has a value. -/
theorem Pass.initializeStmt_settles : Stmt.Settles initializeStmt := by
  intro s hinner
  cases s with
  | decl line vars value =>
      cases value with
      | none =>
          intro t ht
          rw [Stmt.allStmtsSeq_split] at ht
          rcases List.mem_map.mp ht with ⟨v, _, rfl⟩
          rfl
      | some value => exact Stmt.settled_singleton rfl hinner
  | _ => exact Stmt.settled_singleton rfl hinner

/-- A block that splicing leaves alone can not be spliced. -/
theorem Pass.canInline_of_flattenStmt {b : Block}
    (h : flattenStmt declared (.block b) = [.block b]) : b.canInline declared = false := by
  rcases b with ⟨line, stmts⟩
  rw [Bool.eq_false_iff]
  intro hinline
  rw [Pass.flattenStmt, Block.inlineOrKeep, if_pos hinline] at h
  -- A block is not its own only statement.
  have hweight : Stmt.weightSeq stmts = Stmt.weightSeq [.block ⟨line, stmts⟩] :=
    congrArg Stmt.weightSeq h
  simp only [Stmt.weightSeq, Stmt.weight, Block.weight] at hweight
  omega

/-- A loop that hoisting leaves alone has no init part. -/
theorem Pass.init_of_hoistLoopInitStmt {line : Nat} {pre : Block} {test : Expr} {post body : Block}
    (h : hoistLoopInitStmt declared (.loop line pre test post body)
      = [.loop line pre test post body]) : pre.stmts = [] := by
  rcases pre with ⟨preLine, _ | ⟨p, ps⟩⟩
  · rfl
  · rw [Pass.hoistLoopInitStmt, Block.inlineOrKeep] at h
    split at h
    · have hlength := congrArg List.length h
      rw [List.length_append, List.length_cons, List.length_singleton, List.length_singleton]
        at hlength
      omega
    · exact absurd (List.cons.inj h).1 (by rintro ⟨⟩)

/-- A loop that moving its condition leaves alone has a literal test. -/
theorem Pass.condition_of_moveLoopConditionStmt {line : Nat} {pre : Block} {test : Expr}
    {post body : Block} (h : moveLoopConditionStmt (.loop line pre test post body)
      = [.loop line pre test post body]) : ∃ l, test = .literal l := by
  rcases body with ⟨bodyLine, stmts⟩
  cases test with
  | literal l => exact ⟨l, rfl⟩
  | _ =>
      rw [Pass.moveLoopConditionStmt] at h
      · injection (List.cons.inj h).1 with _ _ htest
        exact ⟨_, htest.symm⟩
      · rintro l ⟨⟩

/-- A declaration that splitting leaves alone has a value. -/
theorem Pass.value_of_initializeStmt {line : Nat} {vars : List TypedName} {value : Option Expr}
    (h : initializeStmt (.decl line vars value) = [.decl line vars value]) :
    value.isSome = true := by
  cases value with
  | some value => rfl
  | none =>
      have hmem : Stmt.decl line vars none ∈ initializeStmt (.decl line vars none) := by
        rw [h]
        exact List.mem_singleton_self _
      rcases List.mem_map.mp hmem with ⟨v, _, hv⟩
      injection hv with _ _ hvalue
      exact absurd hvalue (by rintro ⟨⟩)

end Passes

/-- Splicing blocks, hoisting the initialisation of loops, moving the conditions of loops and
    initialising declarations do all their work at once, whatever the code is: no block is left
    that could be spliced, no loop with an initialisation, no condition of a loop other than
    a literal, and no declaration without a value. So a second application changes nothing. -/
theorem bottomUp_passes_idempotent (code : Block) :
    ((∀ b, .block b ∈ (Pass.flatten code).allStmts → b.canInline code.declared = false) ∧
      Pass.flatten (Pass.flatten code) = Pass.flatten code) ∧
    ((∀ line pre test post body,
        .loop line pre test post body ∈ (Pass.hoistLoopInit code).allStmts →
        pre.stmts = []) ∧
      Pass.hoistLoopInit (Pass.hoistLoopInit code) = Pass.hoistLoopInit code) ∧
    ((∀ line pre test post body,
        .loop line pre test post body ∈ (Pass.moveLoopCondition code).allStmts →
          ∃ l, test = .literal l) ∧
      Pass.moveLoopCondition (Pass.moveLoopCondition code) = Pass.moveLoopCondition code) ∧
    ((∀ line vars value, .decl line vars value ∈ (Pass.initializeVars code).allStmts →
        value.isSome = true) ∧
      Pass.initializeVars (Pass.initializeVars code) = Pass.initializeVars code) := by
  -- For each pass the normal form, then that a second run has nothing left to do.
  refine ⟨⟨?_, ?_⟩, ⟨?_, ?_⟩, ⟨?_, ?_⟩, ?_, ?_⟩
  · intro b hb
    exact Pass.canInline_of_flattenStmt (Block.bottomUp_settles Pass.flattenStmt_settles code _ hb)
  · have hdeclared : (Pass.flatten code).declared = code.declared :=
      Block.declared_bottomUp Pass.flattenStmt_keepsDeclared code
    rw [Pass.flatten, hdeclared]
    exact Block.bottomUp_bottomUp Pass.flattenStmt_settles code
  · intro line pre test post body hloop
    exact Pass.init_of_hoistLoopInitStmt
      (Block.bottomUp_settles Pass.hoistLoopInitStmt_settles code _ hloop)
  · have hdeclared : (Pass.hoistLoopInit code).declared = code.declared :=
      Block.declared_bottomUp Pass.hoistLoopInitStmt_keepsDeclared code
    rw [Pass.hoistLoopInit, hdeclared]
    exact Block.bottomUp_bottomUp Pass.hoistLoopInitStmt_settles code
  · intro line pre test post body hloop
    exact Pass.condition_of_moveLoopConditionStmt
      (Block.bottomUp_settles Pass.moveLoopConditionStmt_settles code _ hloop)
  · exact Block.bottomUp_bottomUp Pass.moveLoopConditionStmt_settles code
  · intro line vars value hdecl
    exact Pass.value_of_initializeStmt
      (Block.bottomUp_settles Pass.initializeStmt_settles code _ hdecl)
  · exact Block.bottomUp_bottomUp Pass.initializeStmt_settles code

end YulToolchain
