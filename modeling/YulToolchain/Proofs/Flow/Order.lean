import YulToolchain.Proofs.Flow.Transfer

/-!
# Knowledge without a Run

What can be said of known values from the text alone.

Code that is never executed has to be well formed all the same, so whatever a pass
puts into it on account of known values must not depend on a state in which they
hold. `Known.Fits` is what is left of `Known.Valid` without a state: known values are
movable, well formed and about variables in sight. It goes along with the flow
just as validity does.

The flow is also monotone: who knows less before a piece of code knows less behind
it.

## Main definitions

* `Known.Fits`: Known values are well formed at a place.

## Theorems

* `Stmt.flowSeq_fits`, `Block.flow_fits`: What is known behind well-formed code is well
  formed there.
* `Stmt.flowSeq_mono`: The flow is monotone.
-/

namespace YulToolchain

namespace Table

variable {κ α : Type} [DecidableEq κ] [LT κ] [DecidableLT κ]

/-- What is inserted is an entry. -/
theorem mem_insertEntry_self {k : κ} {v : α} : ∀ {l : List (κ × α)},
    (k, v) ∈ insertEntry k v l
  | [] => List.mem_singleton_self _
  | (k₁, v₁) :: rest => by
      simp only [insertEntry]
      split
      · exact List.mem_cons_self
      · split
        · exact List.mem_cons_self
        · exact List.mem_cons_of_mem _ mem_insertEntry_self

/-- Entries of other keys stay. -/
theorem mem_insertEntry_of_ne {k : κ} {v : α} {p : κ × α} (hne : p.1 ≠ k) :
    ∀ {l : List (κ × α)}, p ∈ l → p ∈ insertEntry k v l
  | (k₁, v₁) :: rest, h => by
      simp only [insertEntry]
      split
      · exact List.mem_cons_of_mem _ h
      · split
        · rename_i hk
          rcases List.mem_cons.mp h with rfl | h
          · exact absurd hk.symm hne
          · exact List.mem_cons_of_mem _ h
        · rcases List.mem_cons.mp h with rfl | h
          · exact List.mem_cons_self
          · exact List.mem_cons_of_mem _ (mem_insertEntry_of_ne hne h)

end Table

section Static

variable {d : Dialect}

/-- Known values are well formed at a place. -/
def Known.Fits (d : Dialect) (v : Sight) (k : Known) : Prop :=
  ∀ x e, (x, e) ∈ k.entries → e.movable d = true ∧ e.Yields d v 1 ∧ x ∈ v.visible

theorem Known.fits_nothing (d : Dialect) (v : Sight) : nothing.Fits d v :=
  fun _ _ h => absurd h not_mem_nothing

theorem Known.Fits.sub {v : Sight} {k k' : Known} (h : k.Fits d v)
    (hsub : k'.Sub k) : k'.Fits d v := fun x e hx => h x e (hsub x e hx)

/-- What fits fits where more is visible. -/
theorem Known.Fits.mono {v v' : Sight} {k : Known} (h : k.Fits d v)
    (hvisible : v.visible ⊆ v'.visible) : k.Fits d v' := by
  intro x e hx
  rcases h x e hx with ⟨hmovable, hyields, hvis⟩
  refine ⟨hmovable, hyields.movable_congr hmovable fun y hy => ?_, hvisible hvis⟩
  exact hvisible (hyields.reads_visible y hy)

/-- What holds in a state is well formed. -/
theorem Known.Valid.fits {c : RunContext} {v : Sight} {k : Known} {s : RunState}
    (h : k.Valid c v s) (henv : Environment.Holds v.vars s.env) : k.Fits c.dialect v :=
  fun x e hx => ⟨(h x e hx).movable, (h x e hx).yields, (h x e hx).visible henv⟩

/-- Some environment holds given variables. -/
theorem Environment.exists_holds : ∀ vars : List (List String), ∃ env, Environment.Holds vars env
  | [] => ⟨[], .nil⟩
  | names :: vars => by
      rcases Environment.exists_holds vars with ⟨env, henv⟩
      have h := henv.push.declareAll (names.map fun x => (x, (0 : Word)))
      simp only [List.nil_append, List.map_map, Function.comp_def, List.map_id'] at h
      exact ⟨_, h⟩

/-- A movable expression has at most one value. -/
theorem Expr.Yields.movable_le_one {v : Sight} {e : Expr} {n : Nat}
    (hmovable : e.movable d = true) (h : e.Yields d v n) : n ≤ 1 := by
  rcases Environment.exists_holds v.vars with ⟨env, henv⟩
  have hmeans := Expr.movable_means (c := ⟨d, .standard, false⟩) (s := ⟨.initial [], 0, env⟩)
    hmovable h henv
  rcases hmeans with ⟨_, _, hone, _⟩
  exact hone

/-- What an assignment teaches is well formed behind it: a movable value goes to a single
    variable. -/
theorem Known.Fits.assigned {v v' : Sight} {k : Known} {names : List String}
    {value : Option Expr} (h : k.Fits d v) (hvisible : v.visible ⊆ v'.visible)
    (hnames : ∀ x ∈ names, x ∈ v'.visible)
    (hvalue : ∀ e, value = some e → e.Yields d v names.length) :
    (k.assigned d names value).Fits d v' := by
  intro x e hx
  rcases mem_assigned hx with hx | ⟨hsome, hmovable, _, hx⟩
  · exact (h.mono hvisible).sub (forget_sub k names) x e hx
  · have hyields := hvalue e hsome
    have hxmem : x ∈ names := (hx x).mpr rfl
    have hlength : names.length = 1 :=
      Nat.le_antisymm (hyields.movable_le_one hmovable) (List.length_pos_of_mem hxmem)
    rw [hlength] at hyields
    refine ⟨hmovable, hyields.movable_congr hmovable fun y hy => ?_, hnames x hxmem⟩
    exact hvisible (hyields.reads_visible y hy)

/-- What is known inside a scope and not about its variables is known outside. -/
theorem Known.Fits.close {v : Sight} {stmts : List Stmt} {names : List String} {k : Known}
    (h : k.Fits d ((v.enter stmts).declare names)) : (k.forget names).Fits d v := by
  have hout : ∀ y ∈ ((v.enter stmts).declare names).visible, y ∉ names → y ∈ v.visible :=
    fun y hy hn => (Sight.mem_visible_declare hy).resolve_right hn
  intro x e hx
  rcases mem_forget.mp hx with ⟨hx, hname, hreads⟩
  rcases h x e hx with ⟨hmovable, hyields, hvis⟩
  refine ⟨hmovable, hyields.movable_congr hmovable fun y hy => ?_, hout x hvis hname⟩
  exact hout y (hyields.reads_visible y hy) (hreads y hy)

/-- A declared name is visible behind its declaration. -/
theorem Sight.mem_visible_after_decl {v : Sight} (hne : v.vars ≠ []) {names : List String}
    {x : String} (hx : x ∈ names) : x ∈ (v.declare names).visible := by
  rcases v with ⟨functions, _ | ⟨scope, outer⟩, hidden⟩
  · exact absurd rfl hne
  · exact List.mem_append_left _ (List.mem_append_right _ hx)

/-- The zero that stands for a missing value yields one value. -/
theorem Expr.yields_zero (v : Sight) (line : Nat) (type : String) :
    (Expr.literal (Literal.zero line type)).Yields d v 1 := by
  rw [Expr.Yields]
  exact ⟨⟨0, Literal.value_zero line type⟩, rfl⟩

open Known

mutual

/-- What is known behind a well-formed block is well formed there. -/
theorem Block.flow_fits : ∀ {b : Block} {v : Sight} {inLoop : Bool} {k : Known},
    b.Fits d v inLoop → k.Fits d v → (b.flow d k).Fits d v
  | ⟨line, stmts⟩, v, inLoop, k, h, hk => by
      rw [Block.Fits] at h
      rw [Block.flow]
      have hseq := Stmt.flowSeq_fits (List.cons_ne_nil _ _) h.2 (hk.mono (List.Subset.refl _))
      rw [Sight.afterSeq_eq] at hseq
      exact hseq.close

/-- What is known behind well-formed statements is well formed there. -/
theorem Stmt.flowSeq_fits : ∀ {stmts : List Stmt} {v : Sight} {inLoop : Bool} {k : Known},
    v.vars ≠ [] → Stmt.FitsSeq d v inLoop stmts → k.Fits d v →
      (Stmt.flowSeq d k stmts).Fits d (v.afterSeq stmts)
  | [], v, inLoop, k, _, _, hk => by
      rw [Stmt.flowSeq]
      exact hk
  | s :: rest, v, inLoop, k, hne, h, hk => by
      rw [Stmt.FitsSeq] at h
      rw [Stmt.flowSeq, Sight.afterSeq_cons]
      exact Stmt.flowSeq_fits (Sight.vars_after_ne hne s) h.2 (Stmt.flow_fits hne h.1 hk)

/-- What is known behind a statement fits what is visible there. -/
theorem Stmt.flow_fits : ∀ {s : Stmt} {v : Sight} {inLoop : Bool} {k : Known}, v.vars ≠ [] →
    s.Fits d v inLoop → k.Fits d v → (s.flow d k).Fits d (v.after s)
  | .expr _ e, v, _, k, _, _, hk => by
      rw [Stmt.flow]
      exact hk.sub (evaluated_sub d e k)
  | .assign _ targets value, v, _, k, _, h, hk => by
      rw [Stmt.Fits] at h
      rw [Stmt.flow]
      refine (hk.sub (evaluated_sub d value k)).assigned (List.Subset.refl _) ?_ ?_
      · intro x hx
        rcases List.mem_map.mp hx with ⟨target, htarget, rfl⟩
        exact h.2 target htarget
      · intro e he
        rw [List.length_map, ← Option.some.inj he]
        exact h.1
  | .decl line vars none, v, _, k, hne, h, hk => by
      rw [Stmt.flow]
      refine hk.assigned (v.visible_subset_declare _) (fun x => Sight.mem_visible_after_decl hne) ?_
      -- Without a value every name is zero, but only a single name is learned.
      intro e he
      match vars, he with
      | [var], he =>
          rw [← Option.some.inj he]
          exact Expr.yields_zero v line var.type
  | .decl _ vars (some value), v, _, k, hne, h, hk => by
      rw [Stmt.Fits] at h
      rw [Stmt.flow]
      refine (hk.sub (evaluated_sub d value k)).assigned (v.visible_subset_declare _)
        (fun x => Sight.mem_visible_after_decl hne) ?_
      intro e he
      rw [List.length_map, ← Option.some.inj he]
      exact h.1 value rfl
  | .func _ _ _ _ _, v, _, k, _, _, hk => by
      rw [Stmt.flow]
      exact hk
  | .cond _ test body, v, _, k, _, h, hk => by
      rw [Stmt.Fits] at h
      rw [Stmt.flow]
      -- A conditional body may not run, and what it assigns is forgotten.
      exact (Block.flow_fits h.2 (hk.sub (evaluated_sub d test k))).sub (forget_sub _ _)
  | .switch _ subject cases, v, _, k, _, _, hk => by
      rw [Stmt.flow]
      refine hk.sub fun x e hx => ?_
      exact evaluated_sub d subject k x e (Case.flowSeq_sub hx)
  | .loop _ ⟨_, pre⟩ test post body, v, _, k, _, h, hk => by
      rw [Stmt.Fits] at h
      have hpre := Stmt.flowSeq_fits (v := v.enter pre) (List.cons_ne_nil _ _) h.2.1
        (hk.mono (List.Subset.refl _))
      rw [Sight.afterSeq_eq] at hpre
      -- A loop leaves less than its init part does.
      exact Fits.sub (hpre.sub (forget_sub _ _)).close Stmt.flow_loop_sub
  | .brk _, v, _, k, _, _, hk => by
      rw [Stmt.flow]
      exact hk
  | .cont _, v, _, k, _, _, hk => by
      rw [Stmt.flow]
      exact hk
  | .block b, v, _, k, _, h, hk => by
      rw [Stmt.Fits] at h
      rw [Stmt.flow]
      exact Block.flow_fits h hk
  | .label _ _, v, _, k, _, h, _ => by
      rw [Stmt.Fits] at h
      -- Labels and stack assignments do not fit.
      exact False.elim h
  | .stackAssign _ _, v, _, k, _, h, _ => by
      rw [Stmt.Fits] at h
      exact False.elim h

end

end Static

section Monotone

open Known

variable {d : Dialect}

/-- Evaluating is monotone in what is known. -/
theorem Known.Sub.evaluated {k k' : Known} (h : Sub k k') (e : Expr) :
    Sub (k.evaluated d e) (k'.evaluated d e) := by
  rw [Known.evaluated, Known.evaluated]
  split
  · exact .refl _
  · exact h

/-- Assigning is monotone in what is known. -/
theorem Known.Sub.assigned {k k' : Known} (h : Sub k k') (names : List String)
    (value : Option Expr) : Sub (k.assigned d names value) (k'.assigned d names value) := by
  have hforget := h.forget (List.Subset.refl names)
  unfold Known.assigned
  split
  · rename_i name value hnames
    split
    · intro x e hx
      rcases mem_learn hx with ⟨rfl, rfl⟩ | hold
      · exact Table.mem_insertEntry_self
      · refine Table.mem_insertEntry_of_ne ?_ (hforget x e hold)
        rintro rfl
        refine (mem_forget.mp hold).2.1 (Table.mem_distinct.mp ?_)
        rw [hnames]
        exact List.mem_singleton_self _
    · exact hforget
  · exact hforget

mutual

/-- The effect of a block is monotone in what is known. -/
theorem Block.flow_mono : ∀ {b : Block} {k k' : Known}, Sub k k' →
    Sub (b.flow d k) (b.flow d k')
  | ⟨_, stmts⟩, k, k', h => by
      rw [Block.flow, Block.flow]
      exact (Stmt.flowSeq_mono h).forget (List.Subset.refl _)

/-- Who knows less before some statements knows less behind them. -/
theorem Stmt.flowSeq_mono : ∀ {stmts : List Stmt} {k k' : Known}, Sub k k' →
    Sub (Stmt.flowSeq d k stmts) (Stmt.flowSeq d k' stmts)
  | [], k, k', h => by
      rw [Stmt.flowSeq, Stmt.flowSeq]
      exact h
  | s :: rest, k, k', h => by
      rw [Stmt.flowSeq, Stmt.flowSeq]
      exact Stmt.flowSeq_mono (Stmt.flow_mono h)

/-- The effect of a statement is monotone in what is known. -/
theorem Stmt.flow_mono : ∀ {s : Stmt} {k k' : Known}, Sub k k' →
    Sub (s.flow d k) (s.flow d k')
  | .expr _ e, k, k', h => by
      rw [Stmt.flow, Stmt.flow]
      exact h.evaluated e
  | .assign _ targets value, k, k', h => by
      rw [Stmt.flow, Stmt.flow]
      exact (h.evaluated value).assigned _ _
  | .decl _ vars none, k, k', h => by
      rw [Stmt.flow, Stmt.flow]
      exact h.assigned _ _
  | .decl _ vars (some value), k, k', h => by
      rw [Stmt.flow, Stmt.flow]
      exact (h.evaluated value).assigned _ _
  | .func _ _ _ _ _, k, k', h => by
      rw [Stmt.flow, Stmt.flow]
      exact h
  | .cond _ test body, k, k', h => by
      rw [Stmt.flow, Stmt.flow]
      exact (Block.flow_mono (h.evaluated test)).forget (List.Subset.refl _)
  | .switch _ subject cases, k, k', h => by
      rw [Stmt.flow, Stmt.flow]
      exact Case.flowSeq_mono (h.evaluated subject)
  | .loop _ ⟨_, pre⟩ test post body, k, k', h => by
      rw [Stmt.flow, Stmt.flow]
      -- What is known at the head of the loop, behind its body and behind its post part, in turn.
      have hhead := Sub.forget (show Sub (Stmt.flowSeq d k pre) (Stmt.flowSeq d k' pre) from
        Stmt.flowSeq_mono h) (List.Subset.refl (body.assigned ++ post.assigned))
      have hbody := (Block.flow_mono (b := body) (hhead.evaluated (d := d) test)).forget
        (List.Subset.refl (body.assigned ++ post.assigned))
      have hpost := (Block.flow_mono (b := post) hbody).forget
        (List.Subset.refl (body.assigned ++ post.assigned))
      exact hpost.forget (List.Subset.refl _)
  | .brk _, k, k', h => by
      rw [Stmt.flow, Stmt.flow]
      exact h
  | .cont _, k, k', h => by
      rw [Stmt.flow, Stmt.flow]
      exact h
  | .block b, k, k', h => by
      rw [Stmt.flow, Stmt.flow]
      exact Block.flow_mono h
  | .label _ _, k, k', _ => by
      rw [Stmt.flow, Stmt.flow]
      exact .refl _
  | .stackAssign _ target, k, k', h => by
      rw [Stmt.flow, Stmt.flow]
      exact h.forget (List.Subset.refl _)

/-- The effect of cases is monotone in what is known. -/
theorem Case.flowSeq_mono : ∀ {cases : List Case} {k k' : Known}, Sub k k' →
    Sub (Case.flowSeq d k cases) (Case.flowSeq d k' cases)
  | [], k, k', h => by
      rw [Case.flowSeq, Case.flowSeq]
      exact h
  | ⟨_, _, body⟩ :: rest, k, k', h => by
      rw [Case.flowSeq, Case.flowSeq]
      exact Case.flowSeq_mono ((Block.flow_mono h).forget (List.Subset.refl _))

end

/-- Statements in a row have their effects in a row. -/
theorem Stmt.flowSeq_append (k : Known) (stmts rest : List Stmt) :
    Stmt.flowSeq d k (stmts ++ rest) = Stmt.flowSeq d (Stmt.flowSeq d k stmts) rest := by
  induction stmts generalizing k with
  | nil => rw [Stmt.flowSeq, List.nil_append]
  | cons s stmts ih =>
      rw [List.cons_append, Stmt.flowSeq, Stmt.flowSeq]
      exact ih _

end Monotone

end YulToolchain
