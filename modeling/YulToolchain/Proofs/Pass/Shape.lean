import YulToolchain.Proofs.Pass.Widening

/-!
# New Code Is Well Formed

What well-formed code becomes is well formed.

The proof goes along the old code and keeps the sight in the new code wider than
the one in the old. A block that is kept opens a scope on both sides, and a block
that is opened does so in the old code only. Whatever is declared is free: in the old
code, if its name may occur several times, and because there is room for it
otherwise.

## Theorems

* `Stmt.FitsSeq.pending_allows`: Names declared in well-formed code may be declared.
* `Block.Opens.fits`: A block that may be opened.
* `Block.Becomes.fits`, `Stmt.BecomesSeq.fits`: What well-formed code becomes is well
  formed.
-/

namespace YulToolchain

open Sight

/-- A name that may be declared as far as the dialect is concerned. -/
def Dialect.Allows (d : Dialect) (x : String) : Prop := d.reserved x = false ∧ x ≠ ""

theorem Sight.Free.allows {d : Dialect} {v : Sight} {names : List String} (h : v.Free d names)
    {x : String} (hx : x ∈ names) : d.Allows x := ⟨(h.2 x hx).1, (h.2 x hx).2.1⟩

/-- A block declares its functions and what is pending in its statements. -/
theorem Block.mem_declared {line : Nat} {stmts : List Stmt} {x : String} :
    x ∈ (⟨line, stmts⟩ : Block).declared ↔
      x ∈ (stmts.filterMap Stmt.function?).map (·.name) ∨ x ∈ Stmt.pendingSeq stmts := by
  rw [← List.one_le_count_iff, ← List.one_le_count_iff, ← List.one_le_count_iff,
    Block.count_declared]
  omega

section Valid

variable {d : Dialect}

mutual

/-- The names declared in a block that fits are allowed. -/
theorem Block.Fits.declared_allows : ∀ {b : Block} {v : Sight} {inLoop : Bool},
    b.Fits d v inLoop → ∀ x ∈ b.declared, d.Allows x
  | ⟨line, stmts⟩, v, inLoop, h, x, hx => by
      rw [Block.Fits] at h
      rcases Block.mem_declared.mp hx with hx | hx
      · exact h.1.allows hx
      · exact Stmt.FitsSeq.pending_allows h.2 x hx

/-- Names declared in well-formed code may be declared. -/
theorem Stmt.FitsSeq.pending_allows : ∀ {stmts : List Stmt} {v : Sight} {inLoop : Bool},
    Stmt.FitsSeq d v inLoop stmts → ∀ x ∈ Stmt.pendingSeq stmts, d.Allows x
  | [], v, inLoop, _, x, hx => absurd hx List.not_mem_nil
  | s :: rest, v, inLoop, h, x, hx => by
      rw [Stmt.FitsSeq] at h
      rw [Stmt.pendingSeq_cons] at hx
      rcases List.mem_append.mp hx with hx | hx
      · exact Stmt.Fits.pending_allows h.1 x hx
      · exact Stmt.FitsSeq.pending_allows h.2 x hx

/-- The names pending in a statement that fits are allowed. -/
theorem Stmt.Fits.pending_allows : ∀ {s : Stmt} {v : Sight} {inLoop : Bool},
    s.Fits d v inLoop → ∀ x ∈ s.pending, d.Allows x
  | .decl _ _ _, v, inLoop, h, x, hx => by
      rw [Stmt.Fits] at h
      simp only [Stmt.pending, Stmt.declaresHere, Stmt.allInner, List.flatMap_nil,
        List.append_nil] at hx
      exact h.2.allows hx
  | .func _ _ _ _ body, v, inLoop, h, x, hx => by
      rw [Stmt.Fits] at h
      simp only [Stmt.pending, Stmt.allInner] at hx
      rcases List.mem_append.mp hx with hx | hx
      · exact h.1.allows hx
      · exact Block.Fits.declared_allows h.2 x hx
  | .cond _ _ body, v, inLoop, h, x, hx => by
      rw [Stmt.Fits] at h
      simp only [Stmt.pending, Stmt.allInner, Stmt.declaresHere, List.nil_append] at hx
      exact Block.Fits.declared_allows h.2 x hx
  | .switch _ _ cases, v, inLoop, h, x, hx => by
      rw [Stmt.Fits] at h
      simp only [Stmt.pending, Stmt.allInner, Stmt.declaresHere, List.nil_append] at hx
      exact Case.FitsSeq.declared_allows h.2 x hx
  | .loop _ ⟨preLine, pre⟩ _ post body, v, inLoop, h, x, hx => by
      rw [Stmt.Fits] at h
      simp only [Stmt.pending, Stmt.allInner, Stmt.declaresHere, List.nil_append,
        List.flatMap_append, List.mem_append] at hx
      -- The names of the init part, of the body and of the post part.
      rcases hx with (hx | hx) | hx
      · rcases Block.mem_declared.mp hx with hx | hx
        · exact h.1.allows hx
        · exact Stmt.FitsSeq.pending_allows h.2.1 x hx
      · exact Block.Fits.declared_allows h.2.2.2.1 x hx
      · exact Block.Fits.declared_allows h.2.2.2.2 x hx
  | .block b, v, inLoop, h, x, hx => by
      rw [Stmt.Fits] at h
      simp only [Stmt.pending, Stmt.allInner, Stmt.declaresHere, List.nil_append] at hx
      exact Block.Fits.declared_allows h x hx
  | .expr _ _, v, inLoop, _, x, hx => absurd hx List.not_mem_nil
  | .assign _ _ _, v, inLoop, _, x, hx => absurd hx List.not_mem_nil
  | .brk _, v, inLoop, _, x, hx => absurd hx List.not_mem_nil
  | .cont _, v, inLoop, _, x, hx => absurd hx List.not_mem_nil
  | .label _ _, v, inLoop, h, x, hx => by
      rw [Stmt.Fits] at h
      exact False.elim h
  | .stackAssign _ _, v, inLoop, h, x, hx => by
      rw [Stmt.Fits] at h
      exact False.elim h

/-- The names declared in cases that fit are allowed. -/
theorem Case.FitsSeq.declared_allows : ∀ {cases : List Case} {v : Sight} {inLoop : Bool}
    {seen : List Word}, Case.FitsSeq d v inLoop seen cases →
      ∀ x ∈ (Case.allStmtsSeq cases).flatMap Stmt.declaresHere, d.Allows x
  | [], v, inLoop, seen, _, x, hx => absurd hx List.not_mem_nil
  | ⟨_, none, body⟩ :: rest, v, inLoop, seen, h, x, hx => by
      rw [Case.FitsSeq] at h
      rcases h with ⟨hbody, rfl⟩
      simp only [Case.allStmtsSeq, List.append_nil] at hx
      exact Block.Fits.declared_allows hbody x hx
  | ⟨_, some l, body⟩ :: rest, v, inLoop, seen, h, x, hx => by
      rw [Case.FitsSeq] at h
      rcases h with ⟨w, _, _, hbody, hrest⟩
      simp only [Case.allStmtsSeq, List.flatMap_append] at hx
      rcases List.mem_append.mp hx with hx | hx
      · exact Block.Fits.declared_allows hbody x hx
      · exact Case.FitsSeq.declared_allows hrest x hx

end

end Valid

/-- Lists in a row fit one behind the other. -/
theorem Stmt.FitsSeq.append {d : Dialect} {inLoop : Bool} {rest : List Stmt} :
    ∀ {stmts : List Stmt} {v : Sight}, Stmt.FitsSeq d v inLoop (stmts ++ rest) ↔
      Stmt.FitsSeq d v inLoop stmts ∧ Stmt.FitsSeq d (v.afterSeq stmts) inLoop rest
  | [], v => by
      rw [List.nil_append, afterSeq_nil, Stmt.FitsSeq]
      exact (and_iff_right trivial).symm
  | s :: stmts, v => by
      rw [List.cons_append, Stmt.FitsSeq, Stmt.FitsSeq, afterSeq_cons, Stmt.FitsSeq.append,
        and_assoc]

theorem Stmt.fitsSeq_singleton {d : Dialect} {inLoop : Bool} {s : Stmt} {v : Sight} :
    Stmt.FitsSeq d v inLoop [s] ↔ s.Fits d v inLoop := by
  rw [Stmt.FitsSeq, Stmt.FitsSeq]
  exact and_iff_left trivial

-- Code that does not leave a loop may stand in one.
section Loosen

variable {d : Dialect}

mutual

/-- A block that fits outside of loops fits inside of one. -/
theorem Block.Fits.loosen : ∀ {b : Block} {v : Sight}, b.Fits d v false →
    ∀ inLoop, b.Fits d v inLoop
  | ⟨_, stmts⟩, v, h, inLoop => by
      rw [Block.Fits] at h ⊢
      exact ⟨h.1, Stmt.FitsSeq.loosen h.2 inLoop⟩

/-- Statements that fit outside of loops fit inside of one. -/
theorem Stmt.FitsSeq.loosen : ∀ {stmts : List Stmt} {v : Sight},
    Stmt.FitsSeq d v false stmts → ∀ inLoop, Stmt.FitsSeq d v inLoop stmts
  | [], v, _, inLoop => by
      rw [Stmt.FitsSeq]
      trivial
  | s :: rest, v, h, inLoop => by
      rw [Stmt.FitsSeq] at h ⊢
      exact ⟨Stmt.Fits.loosen h.1 inLoop, Stmt.FitsSeq.loosen h.2 inLoop⟩

/-- A statement that fits outside of loops fits inside of one. -/
theorem Stmt.Fits.loosen : ∀ {s : Stmt} {v : Sight}, s.Fits d v false →
    ∀ inLoop, s.Fits d v inLoop
  | .cond _ _ body, v, h, inLoop => by
      rw [Stmt.Fits] at h ⊢
      exact ⟨h.1, Block.Fits.loosen h.2 inLoop⟩
  | .switch _ _ cases, v, h, inLoop => by
      rw [Stmt.Fits] at h ⊢
      exact ⟨h.1, Case.FitsSeq.loosen h.2 inLoop⟩
  | .block b, v, h, inLoop => by
      rw [Stmt.Fits] at h ⊢
      exact Block.Fits.loosen h inLoop
  | .loop _ ⟨_, _⟩ _ _ _, v, h, inLoop => by
      rw [Stmt.Fits] at h ⊢
      exact h
  | .expr _ _, v, h, inLoop => by
      rw [Stmt.Fits] at h ⊢
      exact h
  | .assign _ _ _, v, h, inLoop => by
      rw [Stmt.Fits] at h ⊢
      exact h
  | .decl _ _ _, v, h, inLoop => by
      rw [Stmt.Fits] at h ⊢
      exact h
  | .func _ _ _ _ _, v, h, inLoop => by
      rw [Stmt.Fits] at h ⊢
      exact h
  | .brk _, v, h, inLoop => by
      rw [Stmt.Fits] at h
      exact absurd h Bool.false_ne_true
  | .cont _, v, h, inLoop => by
      rw [Stmt.Fits] at h
      exact absurd h Bool.false_ne_true
  | .label _ _, v, h, inLoop => by
      rw [Stmt.Fits] at h
      exact False.elim h
  | .stackAssign _ _, v, h, inLoop => by
      rw [Stmt.Fits] at h
      exact False.elim h

/-- Cases that fit outside of loops fit inside of one. -/
theorem Case.FitsSeq.loosen : ∀ {cases : List Case} {v : Sight} {seen : List Word},
    Case.FitsSeq d v false seen cases → ∀ inLoop, Case.FitsSeq d v inLoop seen cases
  | [], v, seen, _, inLoop => by
      rw [Case.FitsSeq]
      trivial
  | ⟨_, none, body⟩ :: rest, v, seen, h, inLoop => by
      rw [Case.FitsSeq] at h ⊢
      exact ⟨Block.Fits.loosen h.1 inLoop, h.2⟩
  | ⟨_, some l, body⟩ :: rest, v, seen, h, inLoop => by
      rw [Case.FitsSeq] at h ⊢
      rcases h with ⟨w, hvalue, hseen, hbody, hrest⟩
      exact ⟨w, hvalue, hseen, Block.Fits.loosen hbody inLoop, Case.FitsSeq.loosen hrest inLoop⟩

end

end Loosen

section Targets

variable {d : Dialect} {v : Sight}

/-- A declaration that is split up. -/
theorem Stmt.split_fits {inLoop : Bool} {line : Nat} : ∀ {vars : List TypedName} {v : Sight},
    v.vars ≠ [] → v.Free d (vars.map (·.name)) →
      Stmt.FitsSeq d v inLoop (Pass.initializeStmt (.decl line vars none))
  | [], v, _, _ => by
      rw [Pass.initializeStmt, List.map_nil, Stmt.FitsSeq]
      trivial
  | var :: rest, v, hne, hfree => by
      -- The first name is taken for the declarations behind it.
      have htaken : ∀ y, y ∈ (v.declare [var.name]).taken ↔ y = var.name ∨ y ∈ v.taken := by
        intro y
        rw [mem_taken_declare hne, List.mem_singleton]
      rcases (free_cons htaken).mp hfree with ⟨hfirst, hrest⟩
      have hne' := vars_after_ne hne (.decl line [var] none)
      have htail : Stmt.FitsSeq d (v.declare [var.name]) inLoop
          (Pass.initializeStmt (.decl line rest none)) := Stmt.split_fits hne' hrest
      rw [Pass.initializeStmt] at htail ⊢
      rw [List.map_cons, Stmt.FitsSeq, Stmt.Fits]
      refine ⟨⟨fun e he => ?_, hfirst⟩, htail⟩
      rw [← Option.some.inj he]
      exact Expr.yields_zero v line var.type

theorem Literal.value_one (line : Nat) : (Literal.number line 1).value = .ok 1 := by
  have hone : readNumber (Literal.numberText 1) = .ok 1 := by decide +kernel
  exact hone

theorem Expr.yields_one (line : Nat) : (Expr.number line 1).Yields d v 1 := by
  rw [Expr.number, Expr.Yields]
  exact ⟨⟨1, Literal.value_one line⟩, rfl⟩

/-- A body that starts with leaving the loop. -/
theorem Block.Fits.guarded {line : Nat} {stmts : List Stmt} {test : Expr}
    (h : (⟨line, stmts⟩ : Block).Fits d v true) (htest : test.Yields d v 1) :
    (⟨line, Pass.guard test :: stmts⟩ : Block).Fits d v true := by
  rw [Block.Fits] at h ⊢
  have hfunctions : (Pass.guard test :: stmts).filterMap Stmt.function?
      = stmts.filterMap Stmt.function? := rfl
  have henter : v.enter (Pass.guard test :: stmts) = v.enter stmts := rfl
  have hvisible : v.visible ⊆ (v.enter stmts).visible := List.Subset.refl _
  have htest' := htest.widen hvisible h.1.within.resolve
  rw [hfunctions, henter, Stmt.FitsSeq]
  refine ⟨h.1, ?_, h.2⟩
  simp only [Pass.guard, Stmt.Fits, Expr.Yields, Expr.YieldOnes, Block.Fits, Stmt.FitsSeq]
  exact ⟨⟨rfl, rfl, rfl, htest', trivial⟩, free_nil d _, trivial, trivial⟩

end Targets

section Opened

variable {d : Dialect} {U : String → Prop} {v v' : Sight} {inLoop : Bool} {k : Known}

/-- The functions of a block that stays a block are free where they were free before. -/
theorem Sight.Widens.free_functions {line : Nat} {stmts out : List Stmt}
    (h : Widens U v v' (⟨line, out⟩ : Block).declared) (hmirrors : Stmt.Mirrors U stmts out)
    (hfree : v.Free d ((stmts.filterMap Stmt.function?).map (·.name)))
    (hallows : ∀ x ∈ (out.filterMap Stmt.function?).map (·.name), d.Allows x) :
    v'.Free d ((out.filterMap Stmt.function?).map (·.name)) := by
  refine ⟨List.nodup_iff_count_le_one.mpr fun x => ?_, fun x hx => ?_⟩
  -- Names declared once have room for one declaration in the new place.
  · by_cases hU : U x
    · have hroom := h.room x hU
      rw [Block.count_declared] at hroom
      omega
    · exact Nat.le_trans (hmirrors.names x hU) (List.nodup_iff_count_le_one.mp hfree.1 x)
  · refine ⟨(hallows x hx).1, (hallows x hx).2, fun hmem => ?_⟩
    by_cases hU : U x
    · have hroom := h.room x hU
      rw [Block.count_declared] at hroom
      rw [mem_taken_iff_count] at hmem
      rw [← List.one_le_count_iff] at hx
      omega
    · -- A name that may occur several times was declared by the old block as well.
      have hold := (h.taken x hmem).resolve_right hU
      rw [← List.one_le_count_iff] at hx
      have hx' := List.one_le_count_iff.mp (Nat.le_trans hx (hmirrors.names x hU))
      exact (hfree.2 x hx').2.2 hold

/-- A block is well formed if its statements are in every sight that is wide enough. -/
theorem Block.fits_of_seq {line : Nat} {stmts out : List Stmt}
    (h : Widens U v v' (⟨line, out⟩ : Block).declared) (hmirrors : Stmt.Mirrors U stmts out)
    (hfree : v.Free d ((stmts.filterMap Stmt.function?).map (·.name)))
    (hallows : ∀ x ∈ (out.filterMap Stmt.function?).map (·.name), d.Allows x)
    (hk : k.Fits d v')
    (hseq : ∀ v₁ : Sight, v₁.vars ≠ [] → Widens U (v.enter stmts) v₁ (Stmt.pendingSeq out) →
      v₁.Offers out → k.Fits d v₁ → Stmt.FitsSeq d v₁ inLoop out) :
    (⟨line, out⟩ : Block).Fits d v' inLoop := by
  have hfree' := h.free_functions hmirrors hfree hallows
  have hnames : Widens U v v' ((⟨line, out⟩ : Block).declared ++ []) := by
    rw [List.append_nil]
    exact h
  have henter := hnames.enter hmirrors hfree'
  rw [List.append_nil] at henter
  rw [Block.Fits]
  exact ⟨hfree', hseq _ (List.cons_ne_nil _ _) henter (Offers.enter hfree'.1)
    (hk.mono (List.Subset.refl _))⟩

/-- So is what may stand for the block. -/
theorem Block.Opens.fits {line : Nat} {stmts out result : List Stmt}
    (hopens : (⟨line, out⟩ : Block).Opens U result) (hne : v'.vars ≠ [])
    (h : Widens U v v' (Stmt.pendingSeq result)) (hoffers : v'.Offers result)
    (hmirrors : Stmt.Mirrors U stmts out)
    (hfree : v.Free d ((stmts.filterMap Stmt.function?).map (·.name)))
    (hallows : ∀ x ∈ (out.filterMap Stmt.function?).map (·.name), d.Allows x)
    (hk : k.Fits d v')
    (hseq : ∀ v₁ : Sight, v₁.vars ≠ [] → Widens U (v.enter stmts) v₁ (Stmt.pendingSeq out) →
      v₁.Offers out → k.Fits d v₁ → Stmt.FitsSeq d v₁ inLoop out) :
    Stmt.FitsSeq d v' inLoop result := by
  -- The block stays a block, or its statements stand in its place.
  rcases hopens with rfl | ⟨_, rfl⟩
  · have hpending : Stmt.pendingSeq [.block ⟨line, out⟩] = (⟨line, out⟩ : Block).declared := by
      simp only [Stmt.pendingSeq_cons, Stmt.pendingSeq_nil, Stmt.pending, Stmt.declaresHere,
        Stmt.allInner, List.append_nil, List.nil_append, Block.declared]
    rw [hpending] at h
    rw [Stmt.fitsSeq_singleton, Stmt.Fits]
    exact Block.fits_of_seq h hmirrors hfree hallows hk hseq
  · exact hseq v' hne (h.splice hmirrors hoffers) hoffers hk

end Opened

section Code

variable {c : RunContext} {U : String → Prop} {r : Liberty}

/-- The functions of rewritten statements have allowed names. -/
theorem Stmt.BecomesSeq.allows {stmts out : List Stmt} {k : Known} {v v₁ : Sight} {inLoop : Bool}
    (h : Stmt.BecomesSeq (.running c U r) k stmts out)
    (hfree : v.Free c.dialect ((stmts.filterMap Stmt.function?).map (·.name)))
    (hfits : Stmt.FitsSeq c.dialect v₁ inLoop stmts) :
    ∀ x ∈ (out.filterMap Stmt.function?).map (·.name), c.dialect.Allows x := by
  intro x hx
  have hmem : x ∈ (⟨0, out⟩ : Block).declared := Block.mem_declared.mpr (Or.inl hx)
  have hcount := h.count_le Stmt.declaresHere_role (x := x)
  have hold : x ∈ (⟨0, stmts⟩ : Block).declared := by
    rw [← List.one_le_count_iff] at hmem ⊢
    exact Nat.le_trans hmem hcount
  rcases Block.mem_declared.mp hold with hold | hold
  · exact hfree.allows hold
  · exact Stmt.FitsSeq.pending_allows hfits x hold

/-- The parts of a loop, in every sight that is wide enough. Recursion comes in through the
    hypotheses about the parts. -/
theorem Stmt.loop_fits {v : Sight} {k : Known} {pre pre' : List Stmt} {test test' : Expr}
    {post' body' : Block}
    (htest : test.Becomes c (k.atHead c.dialect pre' post' body') test')
    (hyields : test.Yields c.dialect ((v.enter pre).afterSeq pre) 1)
    (hpreFits : ∀ v₁ : Sight, v₁.vars ≠ [] → Widens U (v.enter pre) v₁ (Stmt.pendingSeq pre') →
      v₁.Offers pre' → k.Fits c.dialect v₁ → Stmt.FitsSeq c.dialect v₁ false pre')
    (hbodyFits : ∀ v₂ : Sight, Widens U ((v.enter pre).afterSeq pre) v₂ body'.declared →
      (k.atHead c.dialect pre' post' body').Fits c.dialect v₂ → body'.Fits c.dialect v₂ true)
    (hpostFits : ∀ v₂ : Sight, Widens U ((v.enter pre).afterSeq pre) v₂ post'.declared →
      (k.atHead c.dialect pre' post' body').Fits c.dialect v₂ → post'.Fits c.dialect v₂ false)
    (v₁ : Sight) (hne : v₁.vars ≠ [])
    (h : Widens U (v.enter pre) v₁
      (Stmt.pendingSeq pre' ++ (body'.declared ++ post'.declared)))
    (hoffers : v₁.Offers pre') (hk : k.Fits c.dialect v₁) :
    Stmt.FitsSeq c.dialect v₁ false pre' ∧ ∀ v₂ : Sight,
      Widens U ((v.enter pre).afterSeq pre) v₂ (body'.declared ++ post'.declared) →
      (v₁.afterSeq pre').visible ⊆ v₂.visible →
        test'.Yields c.dialect v₂ 1 ∧ body'.Fits c.dialect v₂ true ∧
          post'.Fits c.dialect v₂ false := by
  have hfits := hpreFits v₁ hne h.left hoffers hk
  refine ⟨hfits, fun v₂ h₂ hvisible => ?_⟩
  -- What is known at the head of the loop fits there.
  have hhead : (k.atHead c.dialect pre' post' body').Fits c.dialect v₂ :=
    ((Stmt.flowSeq_fits hne hfits hk).sub (Known.forget_sub _ _)).mono hvisible
  exact ⟨htest.yields hhead (hyields.widen h₂.visible h₂.functions),
    hbodyFits v₂ h₂.left hhead, hpostFits v₂ h₂.right hhead⟩

/-- The names pending in a loop are those of its three parts. -/
theorem Stmt.pending_loop (line preLine : Nat) (pre : List Stmt) (test : Expr)
    (post body : Block) (x : String) :
    (Stmt.loop line ⟨preLine, pre⟩ test post body).pending.count x
      = ((⟨preLine, pre⟩ : Block).declared ++ (body.declared ++ post.declared)).count x := by
  simp only [Stmt.pending, Stmt.declaresHere, Stmt.allInner, List.nil_append,
    List.flatMap_append, List.append_assoc, Block.declared]

mutual

/-- What a well-formed block becomes is well formed. -/
theorem Block.Becomes.fits : ∀ {b b' : Block} {v v' : Sight} {inLoop : Bool} {k : Known},
    b.Fits c.dialect v inLoop → b.Becomes (.running c U r) k b' → Widens U v v' b'.declared →
    k.Fits c.dialect v' → b'.Fits c.dialect v' inLoop
  | ⟨line, stmts⟩, ⟨line', out⟩, v, v', inLoop, k, hfits, h, hw, hk => by
      rw [Block.Fits] at hfits
      rw [Block.Becomes] at h
      rcases h with ⟨_, k₁, hk₁, h⟩
      refine Block.fits_of_seq hw h.mirrors hfits.1 (h.allows hfits.1 hfits.2) (hk.sub hk₁) ?_
      intro v₁ hne hw₁ hoffers hk₁
      exact Stmt.BecomesSeq.fits hfits.2 h (List.cons_ne_nil _ _) hne hw₁ hoffers hk₁
termination_by structural code => code

/-- Rewritten statements fit. -/
theorem Stmt.BecomesSeq.fits : ∀ {stmts out : List Stmt} {v v' : Sight} {inLoop : Bool}
    {k : Known}, Stmt.FitsSeq c.dialect v inLoop stmts →
      Stmt.BecomesSeq (.running c U r) k stmts out →
    v.vars ≠ [] → v'.vars ≠ [] → Widens U v v' (Stmt.pendingSeq out) → v'.Offers out →
    k.Fits c.dialect v' → Stmt.FitsSeq c.dialect v' inLoop out
  | [], out, v, v', inLoop, k, _, h, _, _, _, _, _ => by
      rw [Stmt.becomesSeq_nil.mp h, Stmt.FitsSeq]
      trivial
  | s :: rest, out, v, v', inLoop, k, hfits, h, hne, hne', hw, hoffers, hk => by
      rw [Stmt.FitsSeq] at hfits
      rcases Stmt.becomesSeq_cons.mp h with ⟨first, more, k₁, rfl, hs, hk₁, hmore⟩
      rw [Stmt.pendingSeq_append] at hw
      rcases Offers.append.mp hoffers with ⟨hofirst, homore⟩
      -- The first statements fit by the form they have.
      have hfirst : Stmt.FitsSeq c.dialect v' inLoop first := by
        rcases hs with ⟨s', hs', rfl⟩ | ⟨_, hs⟩
        · rw [Stmt.fitsSeq_singleton]
          refine Stmt.Alike.fits hfits.1 hs' hne' ?_ hk
          simpa only [Stmt.pendingSeq_cons, Stmt.pendingSeq_nil, List.append_nil] using hw.left
        · exact Stmt.GivesWay.fits hfits.1 hs hne' hw.left hofirst hk
      rw [Stmt.FitsSeq.append]
      refine ⟨hfirst, ?_⟩
      -- The others fit behind them, with what is known there.
      exact Stmt.BecomesSeq.fits hfits.2 hmore (Sight.vars_after_ne hne s)
        (Sight.vars_afterSeq_ne hne' first) (hw.after hs hne hne') homore.after
        ((Stmt.flowSeq_fits hne' hfirst hk).sub hk₁)
termination_by structural code => code

/-- A statement that keeps its form fits. -/
theorem Stmt.Alike.fits : ∀ {s s' : Stmt} {v v' : Sight} {inLoop : Bool} {k : Known},
    s.Fits c.dialect v inLoop → s.Alike (.running c U r) k s' → v'.vars ≠ [] →
      Widens U v v' s'.pending →
    k.Fits c.dialect v' → s'.Fits c.dialect v' inLoop
  | .expr _ e, s', v, v', inLoop, k, hfits, h, _, hw, hk => by
      rw [Stmt.Fits] at hfits
      rw [Stmt.Alike] at h
      rcases h with ⟨e', rfl, he⟩
      rw [Stmt.Fits]
      exact he.yields hk (hfits.widen hw.visible hw.functions)
  | .assign _ targets value, s', v, v', inLoop, k, hfits, h, _, hw, hk => by
      rw [Stmt.Fits] at hfits
      rw [Stmt.Alike] at h
      rcases h with ⟨value', rfl, hvalue⟩
      rw [Stmt.Fits]
      exact ⟨hvalue.yields hk (hfits.1.widen hw.visible hw.functions),
        fun t ht => hw.visible (hfits.2 t ht)⟩
  | .decl _ vars none, s', v, v', inLoop, k, hfits, h, _, hw, hk => by
      rw [Stmt.Fits] at hfits
      rw [Stmt.Alike] at h
      subst h
      rw [Stmt.Fits]
      exact ⟨nofun, hw.left.free hfits.2⟩
  | .decl _ vars (some value), s', v, v', inLoop, k, hfits, h, _, hw, hk => by
      rw [Stmt.Fits] at hfits
      rw [Stmt.Alike] at h
      rcases h with ⟨value', rfl, hvalue⟩
      rw [Stmt.Fits]
      refine ⟨fun e he => ?_, hw.left.free hfits.2⟩
      obtain rfl := Option.some.inj he
      exact hvalue.yields hk ((hfits.1 value rfl).widen hw.visible hw.functions)
  | .func _ _ params returns body, s', v, v', inLoop, k, hfits, h, _, hw, hk => by
      rw [Stmt.Fits] at hfits
      rw [Stmt.Alike] at h
      rcases h with ⟨body', rfl, hbody⟩
      rw [Stmt.Fits]
      exact ⟨hw.left.free hfits.1, Block.Becomes.fits hfits.2 hbody hw.enterFunction
        (Known.fits_nothing _ _)⟩
  | .cond _ test body, s', v, v', inLoop, k, hfits, h, _, hw, hk => by
      rw [Stmt.Fits] at hfits
      rw [Stmt.Alike] at h
      rcases h with ⟨test', body', rfl, htest, hbody⟩
      rw [Stmt.Fits]
      exact ⟨htest.yields hk (hfits.1.widen hw.visible hw.functions),
        Block.Becomes.fits hfits.2 hbody hw hk⟩
  | .switch _ subject cases, s', v, v', inLoop, k, hfits, h, _, hw, hk => by
      rw [Stmt.Fits] at hfits
      rw [Stmt.Alike] at h
      rcases h with ⟨subject', cases', rfl, hsubject, hcases⟩
      rw [Stmt.Fits]
      exact ⟨hsubject.yields hk (hfits.1.widen hw.visible hw.functions),
        Case.AlikeSeq.fits hfits.2 hcases hw hk⟩
  | .loop _ ⟨_, pre⟩ test post body, s', v, v', inLoop, k, hfits, h, _, hw, hk => by
      rw [Stmt.Fits] at hfits
      rw [Stmt.Alike] at h
      rcases h with ⟨pre', test', post', body', rfl, hpre, htest, hpost, hbody⟩
      -- The names of the three parts are pending one behind the other.
      have hnames := hw.fewer fun x => Nat.le_of_eq (Stmt.pending_loop _ _ _ _ _ _ x).symm
      have hfree := hnames.left.free_functions hpre.mirrors hfits.1 (hpre.allows hfits.1 hfits.2.1)
      have henter := hnames.enter hpre.mirrors hfree
      -- The init part, and then the test with body and post part behind it.
      have hparts := Stmt.loop_fits htest hfits.2.2.1
        (fun v₁ hne hw₁ ho hk₁ =>
          Stmt.BecomesSeq.fits hfits.2.1 hpre (List.cons_ne_nil _ _) hne hw₁ ho hk₁)
        (fun v₂ hw₂ hk₂ => Block.Becomes.fits hfits.2.2.2.1 hbody hw₂ hk₂)
        (fun v₂ hw₂ hk₂ => Block.Becomes.fits hfits.2.2.2.2 hpost hw₂ hk₂) _
        (List.cons_ne_nil _ _) henter (Offers.enter hfree.1) (hk.mono (List.Subset.refl _))
      rw [Stmt.Fits]
      exact ⟨hfree, hparts.1, hparts.2 _
        (henter.afterSeq hpre (List.cons_ne_nil _ _) (List.cons_ne_nil _ _)) (List.Subset.refl _)⟩
  | .brk _, s', v, v', inLoop, k, hfits, h, _, _, _ => by
      rw [Stmt.Alike] at h
      subst h
      rw [Stmt.Fits] at hfits ⊢
      exact hfits
  | .cont _, s', v, v', inLoop, k, hfits, h, _, _, _ => by
      rw [Stmt.Alike] at h
      subst h
      rw [Stmt.Fits] at hfits ⊢
      exact hfits
  | .block b, s', v, v', inLoop, k, hfits, h, _, hw, hk => by
      rw [Stmt.Fits] at hfits
      rw [Stmt.Alike] at h
      rcases h with ⟨b', rfl, hb⟩
      rw [Stmt.Fits]
      exact Block.Becomes.fits hfits hb hw hk
  | .label _ _, s', v, v', inLoop, k, hfits, _, _, _, _ => by
      rw [Stmt.Fits] at hfits
      exact False.elim hfits
  | .stackAssign _ _, s', v, v', inLoop, k, hfits, _, _, _, _ => by
      rw [Stmt.Fits] at hfits
      exact False.elim hfits
termination_by structural code => code

/-- What a statement gives way to fits. -/
theorem Stmt.GivesWay.fits : ∀ {s : Stmt} {out : List Stmt} {v v' : Sight} {inLoop : Bool}
    {k : Known}, s.Fits c.dialect v inLoop → s.GivesWay (.running c U r) k out → v'.vars ≠ [] →
    Widens U v v' (Stmt.pendingSeq out) → v'.Offers out → k.Fits c.dialect v' →
      Stmt.FitsSeq c.dialect v' inLoop out
  | .decl line vars none, out, v, v', inLoop, k, hfits, h, hne, hw, _, _ => by
      rw [Stmt.Fits] at hfits
      simp only [Stmt.GivesWay] at h
      rcases h with ⟨_, rfl⟩
      refine Stmt.split_fits hne ((hw.fewer fun x => ?_).free hfits.2)
      rw [← Stmt.flatMap_split Stmt.declaresVars (fun _ _ _ => rfl) line vars]
      exact Stmt.count_declaredSeq_le _ x
  | .cond _ test ⟨_, stmts⟩, out, v, v', inLoop, k, hfits, h, hne, hw, ho, hk => by
      rw [Stmt.Fits, Block.Fits] at hfits
      simp only [Stmt.GivesWay, Block.Becomes] at h
      rcases h with ⟨_, rfl⟩ | ⟨w, ⟨_, stmts'⟩, _, _, ⟨_, k₁, hk₁, hbody⟩, hopens⟩
      -- The conditional is dropped.
      · rw [Stmt.FitsSeq]
        trivial
      -- Its body opens.
      · refine hopens.fits hne hw ho hbody.mirrors hfits.2.1 (hbody.allows hfits.2.1 hfits.2.2)
          (hk.sub hk₁) ?_
        intro v₁ hne₁ hw₁ ho₁ hk₁
        exact Stmt.BecomesSeq.fits hfits.2.2 hbody (List.cons_ne_nil _ _) hne₁ hw₁ ho₁ hk₁
  | .switch _ subject cases, out, v, v', inLoop, k, hfits, h, hne, hw, ho, hk => by
      rw [Stmt.Fits] at hfits
      simp only [Stmt.GivesWay] at h
      rcases h with ⟨w, _, hselected⟩
      exact Case.Selected.fits hfits.2 hselected hne hw ho hk
  | .loop line ⟨preLine, pre⟩ test post body, out, v, v', inLoop, k, hfits, h, hne, hw, ho, hk => by
      rw [Stmt.Fits] at hfits
      simp only [Stmt.GivesWay] at h
      -- The init part fits wherever its names have room.
      have hpreFits : ∀ (pre' : List Stmt) (k' : Known),
          Stmt.BecomesSeq (.running c U r) k' pre pre' → ∀ v₁ : Sight, v₁.vars ≠ [] →
          Widens U (v.enter pre) v₁ (Stmt.pendingSeq pre') → v₁.Offers pre' →
          k'.Fits c.dialect v₁ → Stmt.FitsSeq c.dialect v₁ false pre' :=
        fun _ _ hpre v₁ hne₁ hw₁ ho₁ hk₁ =>
          Stmt.BecomesSeq.fits hfits.2.1 hpre (List.cons_ne_nil _ _) hne₁ hw₁ ho₁ hk₁
      rcases h with ⟨pre', k₁, _, _, hk₁, hpre, hopens⟩ |
        ⟨pre', test', post', body', hpre, htest, hpost, hbody, h⟩
      -- Only the init part is left, and it may now stand inside of a loop.
      · refine hopens.fits hne hw ho hpre.mirrors hfits.1 (hpre.allows hfits.1 hfits.2.1)
          (hk.sub hk₁) ?_
        intro v₁ hne₁ hw₁ ho₁ hk₁
        exact (hpreFits pre' k₁ hpre v₁ hne₁ hw₁ ho₁ hk₁).loosen inLoop
      · have hparts := fun v₁ : Sight => Stmt.loop_fits htest hfits.2.2.1
          (hpreFits pre' k hpre)
          (fun v₂ hw₂ hk₂ => Block.Becomes.fits hfits.2.2.2.1 hbody hw₂ hk₂)
          (fun v₂ hw₂ hk₂ => Block.Becomes.fits hfits.2.2.2.2 hpost hw₂ hk₂) v₁
        have hallows := hpre.allows hfits.1 hfits.2.1
        rcases h with ⟨hopens, _⟩ | ⟨_, rfl⟩
        · -- The loop stands behind its initialisation.
          have hmirrors : Stmt.Mirrors U (pre ++ [])
              (pre' ++ [.loop line ⟨preLine, []⟩ test' post' body']) :=
            hpre.mirrors.append (.of_none rfl fun f hf => absurd hf List.not_mem_nil)
          rw [List.append_nil] at hmirrors
          refine hopens.fits hne hw ho hmirrors hfits.1 ?_ hk ?_
          · simpa only [List.filterMap_append, List.filterMap_cons, List.filterMap_nil,
              Stmt.function?, List.append_nil] using hallows
          · intro v₁ hne₁ hw₁ ho₁ hk₁
            have hw₁' : Widens U (v.enter pre) v₁
                (Stmt.pendingSeq pre' ++ (body'.declared ++ post'.declared)) := by
              refine hw₁.fewer fun x => ?_
              simp only [Stmt.pendingSeq_append, Stmt.pendingSeq_cons, Stmt.pendingSeq_nil,
                List.append_nil, List.count_append, Stmt.pending_loop]
              omega
            rcases hparts v₁ hne₁ hw₁' (Offers.append.mp ho₁).1 hk₁ with ⟨hpre₁, hrest⟩
            have hw₂ := (hw₁'.afterSeq hpre (List.cons_ne_nil _ _) hne₁).enter_nil
            rw [Stmt.FitsSeq.append, Stmt.fitsSeq_singleton, Stmt.Fits]
            exact ⟨hpre₁.loosen inLoop, free_nil _ _, by rw [Stmt.FitsSeq]; trivial,
              hrest _ hw₂ (List.Subset.refl _)⟩
        · -- The condition is checked inside.
          rcases body' with ⟨bodyLine, stmts⟩
          have hnames : Widens U v v' ((⟨preLine, pre'⟩ : Block).declared ++
              ((⟨bodyLine, stmts⟩ : Block).declared ++ post'.declared)) := by
            refine hw.fewer fun x => ?_
            simp only [Stmt.pendingSeq_cons, Stmt.pendingSeq_nil, List.append_nil,
              Stmt.pending_loop]
            exact Nat.le_refl _
          have hfree := hnames.left.free_functions hpre.mirrors hfits.1 hallows
          have henter := hnames.enter hpre.mirrors hfree
          rcases hparts _ (List.cons_ne_nil _ _) henter (Offers.enter hfree.1)
            (hk.mono (List.Subset.refl _)) with ⟨hpre₁, hrest⟩
          have hafter := henter.afterSeq hpre (List.cons_ne_nil _ _) (List.cons_ne_nil _ _)
          rcases hrest _ hafter (List.Subset.refl _) with ⟨htest₁, hbody₁, hpost₁⟩
          rw [Stmt.fitsSeq_singleton, Stmt.Fits]
          exact ⟨hfree, hpre₁, Expr.yields_one _, hbody₁.guarded htest₁, hpost₁⟩
  | .block ⟨_, stmts⟩, out, v, v', inLoop, k, hfits, h, hne, hw, ho, hk => by
      rw [Stmt.Fits, Block.Fits] at hfits
      simp only [Stmt.GivesWay, Block.Becomes] at h
      rcases h with ⟨⟨line, _⟩, ⟨_, k₁, hk₁, hb⟩, hbind, rfl⟩
      have hopens : (⟨line, out⟩ : Block).Opens U out := Or.inr ⟨hbind, rfl⟩
      refine hopens.fits hne hw ho hb.mirrors hfits.1 (hb.allows hfits.1 hfits.2) (hk.sub hk₁) ?_
      intro v₁ hne₁ hw₁ ho₁ hk₁
      exact Stmt.BecomesSeq.fits hfits.2 hb (List.cons_ne_nil _ _) hne₁ hw₁ ho₁ hk₁
  | .expr _ _, out, _, _, _, _, _, h, _, _, _, _ => by simp only [Stmt.GivesWay] at h
  | .assign _ _ _, out, _, _, _, _, _, h, _, _, _, _ => by simp only [Stmt.GivesWay] at h
  | .decl _ _ (some _), out, _, _, _, _, _, h, _, _, _, _ => by simp only [Stmt.GivesWay] at h
  | .func _ _ _ _ _, out, _, _, _, _, _, h, _, _, _, _ => by simp only [Stmt.GivesWay] at h
  | .brk _, out, _, _, _, _, _, h, _, _, _, _ => by simp only [Stmt.GivesWay] at h
  | .cont _, out, _, _, _, _, _, h, _, _, _, _ => by simp only [Stmt.GivesWay] at h
  | .label _ _, out, _, _, _, _, _, h, _, _, _, _ => by simp only [Stmt.GivesWay] at h
  | .stackAssign _ _, out, _, _, _, _, _, h, _, _, _, _ => by simp only [Stmt.GivesWay] at h
termination_by structural code => code

/-- Rewritten cases fit. -/
theorem Case.AlikeSeq.fits : ∀ {cases out : List Case} {v v' : Sight} {inLoop : Bool}
    {seen : List Word} {k : Known}, Case.FitsSeq c.dialect v inLoop seen cases →
    Case.AlikeSeq (.running c U r) k cases out →
    Widens U v v' ((Case.allStmtsSeq out).flatMap Stmt.declaresHere) → k.Fits c.dialect v' →
      Case.FitsSeq c.dialect v' inLoop seen out
  | [], out, v, v', inLoop, seen, k, hfits, h, _, _ => by
      rw [Case.AlikeSeq] at h
      rw [h, Case.FitsSeq]
      trivial
  | ⟨_, none, body⟩ :: rest, out, v, v', inLoop, seen, k, hfits, h, hw, hk => by
      rw [Case.FitsSeq] at hfits
      rw [Case.AlikeSeq] at h
      rcases h with ⟨body', rest', rfl, hbody, hrest⟩
      simp only [Case.allStmtsSeq, List.flatMap_append] at hw
      -- A default case is the last one.
      rcases hfits with ⟨hbodyFits, rfl⟩
      rw [Case.AlikeSeq] at hrest
      rw [Case.FitsSeq]
      exact ⟨Block.Becomes.fits hbodyFits hbody hw.left hk, hrest⟩
  | ⟨_, some l, body⟩ :: rest, out, v, v', inLoop, seen, k, hfits, h, hw, hk => by
      rw [Case.FitsSeq] at hfits
      rw [Case.AlikeSeq] at h
      rcases h with ⟨body', rest', rfl, hbody, hrest⟩
      rcases hfits with ⟨w, hvalue, hseen, hbodyFits, hrestFits⟩
      simp only [Case.allStmtsSeq, List.flatMap_append] at hw
      rw [Case.FitsSeq]
      exact ⟨w, hvalue, hseen, Block.Becomes.fits hbodyFits hbody hw.left hk,
        Case.AlikeSeq.fits hrestFits hrest hw.right hk⟩
termination_by structural code => code

/-- What the selected case leaves fits. -/
theorem Case.Selected.fits {w : Word} : ∀ {cases : List Case} {out : List Stmt} {v v' : Sight}
    {inLoop : Bool} {seen : List Word} {k : Known}, Case.FitsSeq c.dialect v inLoop seen cases →
    Case.Selected (.running c U r) k w cases out → v'.vars ≠ [] →
      Widens U v v' (Stmt.pendingSeq out) →
    v'.Offers out → k.Fits c.dialect v' → Stmt.FitsSeq c.dialect v' inLoop out
  | [], out, v, v', inLoop, seen, k, _, h, _, _, _, _ => by
      rw [Case.Selected] at h
      rw [h, Stmt.FitsSeq]
      trivial
  | ⟨_, none, ⟨_, stmts⟩⟩ :: rest, out, v, v', inLoop, seen, k, hfits, h, hne, hw, ho, hk => by
      rw [Case.FitsSeq, Block.Fits] at hfits
      rcases hfits with ⟨hbodyFits, rfl⟩
      simp only [Case.Selected, Block.Becomes, List.any_nil, Bool.false_eq_true, if_false] at h
      rcases h with ⟨⟨_, stmts'⟩, ⟨_, k₁, hk₁, hbody⟩, hopens⟩
      refine hopens.fits hne hw ho hbody.mirrors hbodyFits.1 (hbody.allows hbodyFits.1 hbodyFits.2)
        (hk.sub hk₁) ?_
      intro v₁ hne₁ hw₁ ho₁ hk₁
      exact Stmt.BecomesSeq.fits hbodyFits.2 hbody (List.cons_ne_nil _ _) hne₁ hw₁ ho₁ hk₁
  | ⟨_, some l, ⟨_, stmts⟩⟩ :: rest, out, v, v', inLoop, seen, k, hfits, h, hne, hw, ho, hk => by
      rw [Case.FitsSeq, Block.Fits] at hfits
      rcases hfits with ⟨_, _, _, hbodyFits, hrestFits⟩
      simp only [Case.Selected, Block.Becomes] at h
      -- Either this case is selected or one of the others.
      split at h
      · rcases h with ⟨⟨_, stmts'⟩, ⟨_, k₁, hk₁, hbody⟩, hopens⟩
        refine hopens.fits hne hw ho hbody.mirrors hbodyFits.1
          (hbody.allows hbodyFits.1 hbodyFits.2) (hk.sub hk₁) ?_
        intro v₁ hne₁ hw₁ ho₁ hk₁
        exact Stmt.BecomesSeq.fits hbodyFits.2 hbody (List.cons_ne_nil _ _) hne₁ hw₁ ho₁ hk₁
      · exact Case.Selected.fits hrestFits h hne hw ho hk
termination_by structural code => code

end

end Code

end YulToolchain
