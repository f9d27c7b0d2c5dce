import YulToolchain.Proofs.Pass.Becomes
import YulToolchain.Proofs.Static.Acceptance

/-!
# New Code Can Stand at Its Place

What code becomes can stand where the code could.

The proof goes along the old code. The new code sees at least what the old code sees, since
what the old code declares is declared by the new code as well, and a declaration
that has moved outwards can only be seen from more places. What is known comes from the new
code, so it can stand wherever it is used.

Nothing is said about the meaning of expressions here. It is enough that an expression
is replaced by one that has the same number of values on every ground that bears it and
what is known.

## Main definitions

* `Known.Grounded`: What is known can be used on some ground.
* `Licence.standing`: Replacing expressions by others that can be used in their place.

## Theorems

* `Stmt.BecomesSeq.hoists`, `Stmt.Becomes.adds`: What the old code declares is declared by the
  new code.
* `Block.Becomes.stands`: What code becomes can stand where the code could.
* `Block.Becomes.accepted`: It is accepted if the names that the code declares are different.
-/

namespace YulToolchain

open Known

/-- What is known can be used on some ground. -/
def Known.Grounded (d : Dialect) (g : Ground) (k : Known) : Prop :=
  ∀ x e, (x, e) ∈ k.entries → e.movable d = true ∧ e.Counts d g 1 ∧ IsName x ∧ g.reads x

/-- Expressions may be replaced by others that can be used in their place, and statements by
    any others that come from them. -/
def Licence.standing (S : Setting) : Licence where
  dialect := S.dialect
  expr k e e' := ∀ g n, k.Grounded S.dialect g → e.Counts S.dialect g n → e'.Counts S.dialect g n
  constant _ _ _ := True
  once _ := True
  reshapes := True
  guards := S.ops .iszero
  costs := True

section Outlooks

variable {S : Setting} {o o' : Outlook} {k k' : Known}

theorem Known.Grounded.sub {d : Dialect} {g : Ground} (h : k.Grounded d g) (hsub : k'.Sub k) :
    k'.Grounded d g := fun x e hx => h x e (hsub x e hx)

theorem Known.Stands.lasting (h : k.Stands S o) : k.Grounded S.dialect (o.lasting S) := by
  intro x e hx
  rcases h x e hx with ⟨hmovable, hcounts, hname, hvar⟩
  exact ⟨hmovable, hcounts, hname, .inl hvar⟩

/-- Standing knowledge is grounded in everything at the top of the stack as well. -/
theorem Known.Stands.ground (h : k.Stands S o) (htops : o.Tops S) :
    k.Grounded S.dialect (o.ground S) := by
  intro x e hx
  rcases h x e hx with ⟨hmovable, hcounts, hname, hvar⟩
  exact ⟨hmovable, hcounts.ground htops, hname, .inl hvar⟩

/-- Lists in a row stand one behind the other. -/
theorem Stmt.StandSeq.append {inLoop : Bool} {rest : List Stmt} : ∀ {stmts : List Stmt}
    {o : Outlook}, Stmt.StandSeq S o inLoop (stmts ++ rest) ↔ Stmt.StandSeq S o inLoop stmts ∧
      Stmt.StandSeq S (o ++ stmts.flatMap Stmt.adds) inLoop rest
  | [], o => by
      rw [List.nil_append, List.flatMap_nil, List.append_nil, Stmt.StandSeq]
      exact (and_iff_right trivial).symm
  | s :: stmts, o => by
      rw [List.cons_append, Stmt.StandSeq, Stmt.StandSeq, Stmt.StandSeq.append, List.flatMap_cons,
        ← List.append_assoc, and_assoc]

theorem Stmt.standSeq_singleton {inLoop : Bool} {s : Stmt} :
    Stmt.StandSeq S o inLoop [s] ↔ s.Stands S o inLoop := by
  rw [Stmt.StandSeq, Stmt.StandSeq]
  exact and_iff_left trivial

/-- A block that is opened leaves its declarations to the block around it. -/
theorem Block.Opens.stands {U : String → Prop} {inLoop : Bool} {b : Block} {out : List Stmt}
    (h : b.Opens U out) (hb : b.Stands S o inLoop) (hhoists : out.flatMap Stmt.hoists ⊆ o) :
    Stmt.StandSeq S o inLoop out := by
  rcases h with rfl | ⟨_, rfl⟩
  · rw [Stmt.standSeq_singleton, Stmt.Stands]
    exact hb
  · rcases b with ⟨line, stmts⟩
    rw [Block.Stands] at hb
    exact hb.mono (List.append_subset.mpr ⟨List.Subset.refl _, hhoists⟩)

/-- A split declaration stands. -/
theorem Stmt.initialize_stands {inLoop : Bool} {line : Nat} : ∀ {vars : List TypedName}
    {o : Outlook}, (∀ v ∈ vars, v.Written ∧ S.dialect.reserved v.name = false) →
      Stmt.StandSeq S o inLoop (Pass.initializeStmt (.decl line vars none))
  | [], o, _ => by
      rw [Pass.initializeStmt, List.map_nil, Stmt.StandSeq]
      trivial
  | v :: rest, o, h => by
      rw [List.forall_mem_cons] at h
      rw [Pass.initializeStmt, List.map_cons, Stmt.StandSeq, Stmt.Stands]
      refine ⟨⟨List.cons_ne_nil _ _, List.forall_mem_singleton.mpr h.1, fun e he => ?_⟩,
        Stmt.initialize_stands h.2⟩
      obtain rfl := Option.some.inj he
      exact Expr.counts_zero h.1.1.2

end Outlooks

section Declarations

variable {L : Licence} {k : Known}

/-- A statement that keeps its form offers the same functions and adds the same variables. -/
theorem Stmt.Alike.hoists_adds {s s' : Stmt} (h : s.Alike L k s') :
    s'.hoists = s.hoists ∧ s'.adds = s.adds := by
  cases s with
  | expr line e =>
      rw [Stmt.Alike] at h
      rcases h with ⟨e', rfl, _⟩
      exact ⟨rfl, rfl⟩
  | assign line targets value =>
      rw [Stmt.Alike] at h
      rcases h with ⟨value', rfl, _⟩
      exact ⟨rfl, rfl⟩
  | decl line vars value =>
      cases value with
      | none =>
          rw [Stmt.Alike] at h
          exact h ▸ ⟨rfl, rfl⟩
      | some value =>
          rw [Stmt.Alike] at h
          rcases h with ⟨value', rfl, _⟩
          exact ⟨rfl, rfl⟩
  | func line name params returns body =>
      rw [Stmt.Alike] at h
      rcases h with ⟨body', rfl, _⟩
      exact ⟨rfl, rfl⟩
  | cond line test body =>
      rw [Stmt.Alike] at h
      rcases h with ⟨test', body', rfl, _⟩
      exact ⟨rfl, rfl⟩
  | switch line subject cases =>
      rw [Stmt.Alike] at h
      rcases h with ⟨subject', cases', rfl, _⟩
      exact ⟨rfl, rfl⟩
  | loop line pre test post body =>
      rcases pre with ⟨preLine, pre⟩
      rw [Stmt.Alike] at h
      rcases h with ⟨pre', test', post', body', rfl, _⟩
      exact ⟨rfl, rfl⟩
  | block b =>
      rw [Stmt.Alike] at h
      rcases h with ⟨b', rfl, _⟩
      exact ⟨rfl, rfl⟩
  | brk line =>
      rw [Stmt.Alike] at h
      exact h ▸ ⟨rfl, rfl⟩
  | cont line =>
      rw [Stmt.Alike] at h
      exact h ▸ ⟨rfl, rfl⟩
  | label line name =>
      rw [Stmt.Alike] at h
      exact h ▸ ⟨rfl, rfl⟩
  | stackAssign line target =>
      rw [Stmt.Alike] at h
      exact h ▸ ⟨rfl, rfl⟩

/-- A split declaration adds the variables of the declaration. -/
theorem Stmt.adds_initialize (line : Nat) (vars : List TypedName) :
    (Pass.initializeStmt (.decl line vars none)).flatMap Stmt.adds = TypedName.symbols vars := by
  induction vars with
  | nil => rfl
  | cons v rest ih =>
      rw [Pass.initializeStmt] at ih ⊢
      rw [List.map_cons, List.flatMap_cons, ih]
      rfl

/-- Only a declaration gives way to declarations of its own. What the others leave behind is more
    than was there. -/
theorem Stmt.GivesWay.hoists_adds {s : Stmt} {out : List Stmt} (h : s.GivesWay L k out) :
    s.hoists = [] ∧ s.adds ⊆ out.flatMap Stmt.adds := by
  cases s with
  | decl line vars value =>
      cases value with
      | none =>
          rw [Stmt.GivesWay] at h
          rw [h.2, Stmt.adds_initialize]
          exact ⟨rfl, List.Subset.refl _⟩
      | some value => simp only [Stmt.GivesWay] at h
  | func line name params returns body => simp only [Stmt.GivesWay] at h
  | label line name => simp only [Stmt.GivesWay] at h
  | _ => exact ⟨rfl, List.nil_subset _⟩

/-- Nothing that a statement adds is lost. -/
theorem Stmt.Becomes.adds {s : Stmt} {out : List Stmt} (h : s.Becomes L k out) :
    s.adds ⊆ out.flatMap Stmt.adds := by
  rcases h with ⟨s', h, rfl⟩ | ⟨_, h⟩
  · rw [List.flatMap_singleton, h.hoists_adds.2]
    exact List.Subset.refl _
  · exact h.hoists_adds.2

/-- No function that a statement offers is lost. -/
theorem Stmt.Becomes.hoists {s : Stmt} {out : List Stmt} (h : s.Becomes L k out) :
    s.hoists ⊆ out.flatMap Stmt.hoists := by
  rcases h with ⟨s', h, rfl⟩ | ⟨_, h⟩
  · rw [List.flatMap_singleton, h.hoists_adds.1]
    exact List.Subset.refl _
  · rw [h.hoists_adds.1]
    exact List.nil_subset _

/-- The functions and labels of a block are still there. -/
theorem Stmt.BecomesSeq.hoists {stmts out : List Stmt} {k : Known}
    (h : Stmt.BecomesSeq L k stmts out) : stmts.flatMap Stmt.hoists ⊆ out.flatMap Stmt.hoists := by
  induction stmts generalizing out k with
  | nil => exact List.nil_subset _
  | cons s rest ih =>
      rcases Stmt.becomesSeq_cons.mp h with ⟨first, more, k₁, rfl, hs, _, hmore⟩
      rw [List.flatMap_cons, List.flatMap_append]
      exact List.append_subset.mpr
        ⟨List.Subset.trans hs.hoists (List.subset_append_left _ _),
          List.Subset.trans (ih hmore) (List.subset_append_right _ _)⟩

/-- Nothing that statements add is lost. -/
theorem Stmt.BecomesSeq.adds {stmts out : List Stmt} {k : Known}
    (h : Stmt.BecomesSeq L k stmts out) : stmts.flatMap Stmt.adds ⊆ out.flatMap Stmt.adds := by
  induction stmts generalizing out k with
  | nil => exact List.nil_subset _
  | cons s rest ih =>
      rcases Stmt.becomesSeq_cons.mp h with ⟨first, more, k₁, rfl, hs, _, hmore⟩
      rw [List.flatMap_cons, List.flatMap_append]
      exact List.append_subset.mpr
        ⟨List.Subset.trans hs.adds (List.subset_append_left _ _),
          List.Subset.trans (ih hmore) (List.subset_append_right _ _)⟩

end Declarations

theorem Outlook.append_subset {o o' added added' : Outlook} (h : o ⊆ o') (h' : added ⊆ added') :
    o ++ added ⊆ o' ++ added' :=
  List.append_subset.mpr ⟨List.Subset.trans h (List.subset_append_left _ _),
    List.Subset.trans h' (List.subset_append_right _ _)⟩

section Code

variable {S : Setting}

/-- The parts of a loop, once its initialisation is known to stand. -/
theorem Stmt.loop_stands {o : Outlook} {inLoop : Bool} {k : Known} {pre : List Stmt}
    (hpre : Stmt.StandSeq S (o ++ pre.flatMap Stmt.hoists) inLoop pre)
    (hk : k.Stands S o) (post body : Block) : (k.atHead S.dialect pre post body).Stands S
      (o ++ pre.flatMap Stmt.hoists ++ pre.flatMap Stmt.adds) :=
  (Stmt.flowSeq_stands hpre (hk.mono (List.subset_append_left _ _))).sub (forget_sub _ _)

/-- The condition in front of the body of a loop. -/
theorem Block.Stands.guarded {o : Outlook} {b : Block} {test : Expr} (hb : b.Stands S o true)
    (htest : test.Counts S.dialect (o.ground S) 1) (hop : S.ops .iszero) :
    Block.Stands S o true ⟨b.line, Pass.guard test :: b.stmts⟩ := by
  rcases b with ⟨line, stmts⟩
  rw [Block.Stands] at hb ⊢
  rw [List.flatMap_cons, Stmt.StandSeq, Pass.guard, Stmt.Stands, Block.Stands,
    Stmt.standSeq_singleton, Stmt.Stands, Expr.Counts, Expr.CountOnes, Expr.CountOnes]
  refine ⟨⟨⟨hop, rfl, rfl, htest.ground_mono (List.subset_append_left _ _), trivial⟩, rfl⟩, ?_⟩
  exact (List.append_nil (o ++ stmts.flatMap Stmt.hoists)).symm ▸ hb

mutual

/-- What a block becomes can stand where more is seen. -/
theorem Block.Becomes.stands : ∀ {b b' : Block} {o o' : Outlook} {inLoop : Bool} {k : Known},
    b.Stands S o inLoop → b.Becomes (.standing S) k b' → o ⊆ o' → o'.Tops S → k.Stands S o' →
      b'.Stands S o' inLoop
  | ⟨_, stmts⟩, ⟨_, out⟩, o, o', inLoop, k, h, hb, hsub, htops, hk => by
      rw [Block.Stands] at h ⊢
      rw [Block.Becomes] at hb
      rcases hb with ⟨_, k₁, hk₁, hb⟩
      exact Stmt.BecomesSeq.stands h hb (Outlook.append_subset hsub hb.hoists) (htops.append _)
        ((hk.sub hk₁).mono (List.subset_append_left _ _)) (List.subset_append_right _ _)
termination_by structural code => code

/-- Rewritten statements stand. -/
theorem Stmt.BecomesSeq.stands : ∀ {stmts out : List Stmt} {o o' : Outlook} {inLoop : Bool}
    {k : Known}, Stmt.StandSeq S o inLoop stmts → Stmt.BecomesSeq (.standing S) k stmts out →
    o ⊆ o' → o'.Tops S → k.Stands S o' → out.flatMap Stmt.hoists ⊆ o' →
      Stmt.StandSeq S o' inLoop out
  | [], out, o, o', inLoop, k, _, hs, _, _, _, _ => by
      rw [Stmt.becomesSeq_nil.mp hs, Stmt.StandSeq]
      trivial
  | s :: rest, out, o, o', inLoop, k, h, hs, hsub, htops, hk, hhoists => by
      rw [Stmt.StandSeq] at h
      rw [Stmt.BecomesSeq] at hs
      rcases hs with ⟨first, more, k₁, rfl, hfirst, hk₁, hmore⟩
      rw [List.flatMap_append, List.append_subset] at hhoists
      -- What the first statement adds is there for the others.
      have hadds : s.adds ⊆ first.flatMap Stmt.adds := Stmt.Becomes.adds hfirst
      have hstands : Stmt.StandSeq S o' inLoop first := by
        rcases hfirst with ⟨s', hs, rfl⟩ | ⟨_, hs⟩
        · exact Stmt.standSeq_singleton.mpr (Stmt.Alike.stands h.1 hs hsub htops hk)
        · exact Stmt.GivesWay.stands h.1 hs hsub htops hk hhoists.1
      refine Stmt.StandSeq.append.mpr ⟨hstands, ?_⟩
      exact Stmt.BecomesSeq.stands h.2 hmore (Outlook.append_subset hsub hadds) (htops.append _)
        ((Stmt.flowSeq_stands hstands hk).sub hk₁)
        (List.Subset.trans hhoists.2 (List.subset_append_left _ _))
termination_by structural code => code

/-- A statement that keeps its form stands. -/
theorem Stmt.Alike.stands : ∀ {s s' : Stmt} {o o' : Outlook} {inLoop : Bool} {k : Known},
    s.Stands S o inLoop → s.Alike (.standing S) k s' → o ⊆ o' → o'.Tops S → k.Stands S o' →
      s'.Stands S o' inLoop
  | .expr _ _, s', o, o', inLoop, k, h, hs, hsub, htops, hk => by
      rw [Stmt.Alike] at hs
      rcases hs with ⟨e', rfl, he⟩
      rw [Stmt.Stands] at h ⊢
      rcases h with ⟨n, hn, hzero⟩
      -- The new expression counts as many values, in the wider outlook.
      exact ⟨n, he _ _ (hk.ground htops) (hn.ground_mono hsub), hzero⟩
  | .assign _ _ _, s', o, o', inLoop, k, h, hs, hsub, htops, hk => by
      rw [Stmt.Alike] at hs
      rcases hs with ⟨value', rfl, he⟩
      rw [Stmt.Stands] at h ⊢
      exact ⟨h.1, fun t ht => ⟨(h.2.1 t ht).1, (h.2.1 t ht).2.mono hsub⟩,
        he _ _ hk.lasting (h.2.2.lasting_mono hsub)⟩
  | .decl _ _ none, s', o, o', inLoop, k, h, hs, hsub, htops, hk => by
      rw [Stmt.Alike] at hs
      exact hs ▸ h.mono hsub
  | .decl _ _ (some value), s', o, o', inLoop, k, h, hs, hsub, htops, hk => by
      rw [Stmt.Alike] at hs
      rcases hs with ⟨value', rfl, he⟩
      rw [Stmt.Stands] at h ⊢
      refine ⟨h.1, h.2.1, fun e he' => ?_⟩
      obtain rfl := Option.some.inj he'
      exact he _ _ hk.lasting ((h.2.2 value rfl).lasting_mono hsub)
  | .func _ _ params returns body, s', o, o', inLoop, k, h, hs, hsub, htops, hk => by
      rw [Stmt.Alike] at hs
      rcases hs with ⟨body', rfl, hbody⟩
      rw [Stmt.Stands] at h ⊢
      -- The body stands behind a new function, with nothing known.
      exact ⟨h.1, h.2.1, Block.Becomes.stands h.2.2 hbody
        (Outlook.append_mono (Outlook.behind_mono hsub) _) (htops.behind.append _)
        (stands_nothing S _)⟩
  | .cond _ _ body, s', o, o', inLoop, k, h, hs, hsub, htops, hk => by
      rw [Stmt.Alike] at hs
      rcases hs with ⟨test', body', rfl, htest, hbody⟩
      rw [Stmt.Stands] at h ⊢
      exact ⟨htest _ _ (hk.ground htops) (h.1.ground_mono hsub),
        Block.Becomes.stands h.2 hbody hsub htops hk⟩
  | .switch _ _ cases, s', o, o', inLoop, k, h, hs, hsub, htops, hk => by
      rw [Stmt.Alike] at hs
      rcases hs with ⟨subject', cases', rfl, hsubject, hcases⟩
      rw [Stmt.Stands] at h ⊢
      refine ⟨hsubject _ _ (hk.ground htops) (h.1.ground_mono hsub), ?_,
        Case.AlikeSeq.stands h.2.2 hcases hsub htops hk⟩
      -- A switch with cases keeps its cases.
      rcases cases with _ | ⟨⟨_, _, _⟩, _⟩
      · exact absurd rfl h.2.1
      · rw [Case.AlikeSeq] at hcases
        rcases hcases with ⟨_, _, rfl, _⟩
        exact List.cons_ne_nil _ _
  | .loop _ ⟨_, pre⟩ test post body, s', o, o', inLoop, k, h, hs, hsub, htops, hk => by
      rw [Stmt.Alike] at hs
      rcases hs with ⟨pre', test', post', body', rfl, hpre, htest, hpost, hbody⟩
      rw [Stmt.Stands] at h ⊢
      -- First the init part; then the test, the body and the post part see what it adds.
      have hpre' := Stmt.BecomesSeq.stands h.1 hpre (Outlook.append_subset hsub hpre.hoists)
        (htops.append _) (hk.mono (List.subset_append_left _ _)) (List.subset_append_right _ _)
      have hin := Outlook.append_subset (Outlook.append_subset hsub hpre.hoists) hpre.adds
      have hhead := Stmt.loop_stands hpre' hk post' body'
      have htops' := (htops.append (pre'.flatMap Stmt.hoists)).append (pre'.flatMap Stmt.adds)
      exact ⟨hpre', htest _ _ (hhead.ground htops') (h.2.1.ground_mono hin),
        Block.Becomes.stands h.2.2.1 hbody hin htops' hhead,
        Block.Becomes.stands h.2.2.2 hpost hin htops' hhead⟩
  | .brk _, s', o, o', inLoop, k, h, hs, hsub, _, _ => by
      rw [Stmt.Alike] at hs
      exact hs ▸ h.mono hsub
  | .cont _, s', o, o', inLoop, k, h, hs, hsub, _, _ => by
      rw [Stmt.Alike] at hs
      exact hs ▸ h.mono hsub
  | .block b, s', o, o', inLoop, k, h, hs, hsub, htops, hk => by
      rw [Stmt.Alike] at hs
      rcases hs with ⟨b', rfl, hb⟩
      rw [Stmt.Stands] at h ⊢
      exact Block.Becomes.stands h hb hsub htops hk
  | .label _ _, s', o, o', inLoop, k, h, hs, hsub, _, _ => by
      rw [Stmt.Alike] at hs
      exact hs ▸ h.mono hsub
  | .stackAssign _ _, s', o, o', inLoop, k, h, hs, hsub, _, _ => by
      rw [Stmt.Alike] at hs
      exact hs ▸ h.mono hsub
termination_by structural code => code

/-- What a statement gives way to stands. -/
theorem Stmt.GivesWay.stands : ∀ {s : Stmt} {out : List Stmt} {o o' : Outlook} {inLoop : Bool}
    {k : Known}, s.Stands S o inLoop → s.GivesWay (.standing S) k out → o ⊆ o' → o'.Tops S →
    k.Stands S o' → out.flatMap Stmt.hoists ⊆ o' → Stmt.StandSeq S o' inLoop out
  | .decl _ vars none, out, o, o', inLoop, k, h, hs, _, _, _, _ => by
      rw [Stmt.GivesWay] at hs
      rw [Stmt.Stands] at h
      exact hs.2 ▸ Stmt.initialize_stands h.2.1
  | .cond _ test body, out, o, o', inLoop, k, h, hs, hsub, htops, hk, hhoists => by
      rw [Stmt.GivesWay] at hs
      rw [Stmt.Stands] at h
      -- The conditional is dropped, or its body opens.
      rcases hs with ⟨_, rfl⟩ | ⟨w, b', _, _, hbody, hopens⟩
      · rw [Stmt.StandSeq]
        trivial
      · exact hopens.stands (Block.Becomes.stands h.2 hbody hsub htops hk) hhoists
  | .switch _ subject cases, out, o, o', inLoop, k, h, hs, hsub, htops, hk, hhoists => by
      rw [Stmt.GivesWay] at hs
      rw [Stmt.Stands] at h
      rcases hs with ⟨w, _, hselected⟩
      exact Case.Selected.stands h.2.2 hselected hsub htops hk hhoists
  | .loop line ⟨preLine, pre⟩ test post body, out, o, o', inLoop, k, h, hs, hsub, htops, hk,
      hhoists => by
      rw [Stmt.GivesWay] at hs
      rw [Stmt.Stands] at h
      have hinit : ∀ {pre' k'}, k'.Sub k → Stmt.BecomesSeq (.standing S) k' pre pre' →
          Stmt.StandSeq S (o' ++ pre'.flatMap Stmt.hoists) inLoop pre' := fun hk' hpre =>
        Stmt.BecomesSeq.stands h.1 hpre (Outlook.append_subset hsub hpre.hoists) (htops.append _)
          ((hk.sub hk').mono (List.subset_append_left _ _)) (List.subset_append_right _ _)
      rcases hs with ⟨pre', k₁, _, _, hk₁, hpre, hopens⟩ |
        ⟨pre', test', post', body', hpre, htest, hpost, hbody, hs⟩
      -- Only the init part is left.
      · refine hopens.stands ?_ hhoists
        rw [Block.Stands]
        exact hinit hk₁ hpre
      · have hpre' := hinit (.refl k) hpre
        have hin := Outlook.append_subset (Outlook.append_subset hsub hpre.hoists) hpre.adds
        have hhead := Stmt.loop_stands hpre' hk post' body'
        have htops' := (htops.append (pre'.flatMap Stmt.hoists)).append (pre'.flatMap Stmt.adds)
        have htest' := htest _ _ (hhead.ground htops') (h.2.1.ground_mono hin)
        have hbody' := Block.Becomes.stands h.2.2.1 hbody hin htops' hhead
        have hpost' := Block.Becomes.stands h.2.2.2 hpost hin htops' hhead
        rcases hs with ⟨hopens, _⟩ | ⟨hop, rfl⟩
        · -- The loop stands behind its initialisation.
          refine hopens.stands ?_ hhoists
          simp only [Block.Stands, List.flatMap_append, List.flatMap_cons, List.flatMap_nil,
            Stmt.hoists, List.append_nil, Stmt.StandSeq.append, Stmt.StandSeq, Stmt.Stands,
            true_and, and_true]
          exact ⟨hpre', htest', hbody', hpost'⟩
        · -- The condition is checked inside.
          rw [Stmt.standSeq_singleton, Stmt.Stands]
          refine ⟨hpre', ?_, hbody'.guarded htest' hop, hpost'⟩
          rw [Expr.number, Expr.Counts]
          exact ⟨Literal.written_number (.inl rfl), ⟨1, Literal.value_number _ 1⟩, rfl⟩
  | .block b, out, o, o', inLoop, k, h, hs, hsub, htops, hk, hhoists => by
      rw [Stmt.GivesWay] at hs
      rw [Stmt.Stands] at h
      rcases hs with ⟨b', hb, hbind, rfl⟩
      exact Block.Opens.stands (.inr ⟨hbind, rfl⟩) (Block.Becomes.stands h hb hsub htops hk) hhoists
  | .expr _ _, out, _, _, _, _, _, h, _, _, _, _ => by simp only [Stmt.GivesWay] at h
  | .assign _ _ _, out, _, _, _, _, _, h, _, _, _, _ => by simp only [Stmt.GivesWay] at h
  | .decl _ _ (some _), out, _, _, _, _, _, h, _, _, _, _ => by simp only [Stmt.GivesWay] at h
  | .func _ _ _ _ _, out, _, _, _, _, _, h, _, _, _, _ => by simp only [Stmt.GivesWay] at h
  | .brk _, out, _, _, _, _, _, h, _, _, _, _ => by simp only [Stmt.GivesWay] at h
  | .cont _, out, _, _, _, _, _, h, _, _, _, _ => by simp only [Stmt.GivesWay] at h
  | .label _ _, out, _, _, _, _, _, h, _, _, _, _ => by simp only [Stmt.GivesWay] at h
  | .stackAssign _ _, out, _, _, _, _, _, h, _, _, _, _ => by simp only [Stmt.GivesWay] at h
termination_by structural code => code

/-- Rewritten cases stand. -/
theorem Case.AlikeSeq.stands : ∀ {cases out : List Case} {o o' : Outlook} {inLoop : Bool}
    {seen : List Word} {k : Known}, Case.StandSeq S o inLoop seen cases →
    Case.AlikeSeq (.standing S) k cases out → o ⊆ o' → o'.Tops S → k.Stands S o' →
      Case.StandSeq S o' inLoop seen out
  | [], out, o, o', inLoop, seen, k, _, hs, _, _, _ => by
      rw [Case.AlikeSeq] at hs
      rw [hs, Case.StandSeq]
      trivial
  | ⟨_, none, body⟩ :: rest, out, o, o', inLoop, seen, k, h, hs, hsub, htops, hk => by
      rw [Case.StandSeq] at h
      rw [Case.AlikeSeq] at hs
      rcases hs with ⟨body', rest', rfl, hbody, hrest⟩
      -- A default case is the last one.
      rcases h with ⟨hstands, rfl⟩
      rw [Case.AlikeSeq] at hrest
      rw [Case.StandSeq]
      exact ⟨Block.Becomes.stands hstands hbody hsub htops hk, hrest⟩
  | ⟨_, some l, body⟩ :: rest, out, o, o', inLoop, seen, k, h, hs, hsub, htops, hk => by
      rw [Case.StandSeq] at h
      rw [Case.AlikeSeq] at hs
      rcases hs with ⟨body', rest', rfl, hbody, hrest⟩
      rcases h with ⟨hl, w, hw, hseen, hstands, hstandsRest⟩
      rw [Case.StandSeq]
      exact ⟨hl, w, hw, hseen, Block.Becomes.stands hstands hbody hsub htops hk,
        Case.AlikeSeq.stands hstandsRest hrest hsub htops hk⟩
termination_by structural code => code

/-- What the selected case leaves stands. -/
theorem Case.Selected.stands {w : Word} : ∀ {cases : List Case} {out : List Stmt}
    {o o' : Outlook} {inLoop : Bool} {seen : List Word} {k : Known},
    Case.StandSeq S o inLoop seen cases → Case.Selected (.standing S) k w cases out → o ⊆ o' →
    o'.Tops S → k.Stands S o' → out.flatMap Stmt.hoists ⊆ o' → Stmt.StandSeq S o' inLoop out
  | [], out, o, o', inLoop, seen, k, _, hs, _, _, _, _ => by
      rw [Case.Selected] at hs
      rw [hs, Stmt.StandSeq]
      trivial
  | ⟨_, none, body⟩ :: rest, out, o, o', inLoop, seen, k, h, hs, hsub, htops, hk, hhoists => by
      rw [Case.StandSeq] at h
      rcases h with ⟨hstands, rfl⟩
      simp only [Case.Selected, List.any_nil, Bool.false_eq_true, if_false] at hs
      rcases hs with ⟨b', hbody, hopens⟩
      exact hopens.stands (Block.Becomes.stands hstands hbody hsub htops hk) hhoists
  | ⟨_, some l, body⟩ :: rest, out, o, o', inLoop, seen, k, h, hs, hsub, htops, hk, hhoists => by
      rw [Case.StandSeq] at h
      rcases h with ⟨_, _, _, _, hstands, hrest⟩
      rw [Case.Selected] at hs
      -- Either this case is selected or one of the others.
      split at hs
      · rcases hs with ⟨b', hbody, hopens⟩
        exact hopens.stands (Block.Becomes.stands hstands hbody hsub htops hk) hhoists
      · exact Case.Selected.stands hrest hs hsub htops hk hhoists
termination_by structural code => code

end

end Code

end YulToolchain
