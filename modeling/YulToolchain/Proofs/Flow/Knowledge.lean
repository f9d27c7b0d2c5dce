import YulToolchain.Flow.Known
import YulToolchain.Flow.Traversal
import YulToolchain.Proofs.Flow.Movable

/-!
# Knowledge in a State

What it means that known values hold in a state of a run, and what keeps them
holding.

`HasValue` is about one pair: the variable has the value that its expression
evaluates to. Since the expression is movable, this stays true as long as the
variable, the variables that the expression reads and the call data stay as they
are. Forgetting is therefore all that is needed when variables change
(`Known.Valid.keeps`), and nothing has to be done when memory or storage does.

## Main definitions

* `HasValue`: A variable has the value of a movable expression.
* `Known.Valid`: All known values hold.
* `Known.Sub`: One knows no more than another.

## Theorems

* `HasValue.congr`: What the value of a variable depends on.
* `Known.Valid.keeps`: Forgetting the variables that change is enough.
* `Known.Valid.close`: Leaving a scope.
* `Known.Valid.assigned`: What is learned from an assignment holds.
-/

namespace YulToolchain

namespace Table

variable {κ α : Type} [DecidableEq κ] [LT κ] [DecidableLT κ]

/-- The keys behind an inserted entry. -/
theorem mem_keys_insertEntry {k : κ} {v : α} {x : κ} : ∀ {l : List (κ × α)},
    x ∈ (insertEntry k v l).map (·.1) ↔ x = k ∨ x ∈ l.map (·.1)
  | [] => by simp only [insertEntry, List.map_cons, List.map_nil, List.mem_cons, List.not_mem_nil]
  | (k₁, v₁) :: rest => by
      have ih := mem_keys_insertEntry (k := k) (v := v) (x := x) (l := rest)
      simp only [insertEntry]
      split
      · simp only [List.map_cons, List.mem_cons]
      · split
        · rename_i h
          subst h
          simp only [List.map_cons, List.mem_cons]
          tauto
        · simp only [List.map_cons, List.mem_cons, ih]
          tauto

/-- Leaving out repeated keys keeps the members. -/
theorem mem_distinct {ks : List κ} {x : κ} : x ∈ distinct ks ↔ x ∈ ks := by
  have hfold : ∀ (ks : List κ) (t : Table κ Nat),
      x ∈ (ks.foldl (fun t k => t.update k 0 (· + 1)) t).keys ↔ x ∈ ks ∨ x ∈ t.keys := by
    intro ks
    induction ks with
    | nil => intro t; simp only [List.foldl_nil, List.not_mem_nil, false_or]
    | cons k rest ih =>
        intro t
        rw [List.foldl_cons, ih, keys, update, insert, mem_keys_insertEntry, List.mem_cons, keys]
        tauto
  have hempty : x ∉ (empty : Table κ Nat).keys := List.not_mem_nil
  rw [distinct, tally, hfold]
  simp only [hempty, or_false]

end Table

namespace Known

/-- The entries that are left: neither the name nor one that its value reads is forgotten. -/
theorem mem_forget {k : Known} {names : List String} {x : String} {e : Expr} :
    (x, e) ∈ (k.forget names).entries ↔
      (x, e) ∈ k.entries ∧ x ∉ names ∧ ∀ y ∈ e.reads, y ∉ names := by
  simp only [forget, Table.filter, List.mem_filter, Bool.not_eq_true', Bool.or_eq_false_iff,
    List.contains_eq_mem, decide_eq_false_iff_not, List.any_eq_false, decide_eq_true_eq]

theorem not_mem_nothing {x : String} {e : Expr} : (x, e) ∉ nothing.entries := List.not_mem_nil

/-- An entry behind learning is the learned one or an old one. -/
theorem mem_learn {k : Known} {x y : String} {e e' : Expr}
    (h : (x, e) ∈ (k.learn y e').entries) : (x = y ∧ e = e') ∨ (x, e) ∈ k.entries := by
  rcases Table.mem_insertEntry h with h | h
  · exact Or.inl (Prod.mk.inj h)
  · exact Or.inr h

/-- A value that is looked up is an entry. -/
theorem mem_of_value? {k : Known} {x : String} {e : Expr} (h : k.value? x = some e) :
    (x, e) ∈ k.entries := by
  rcases List.lookup_eq_some_iff.mp h with ⟨before, behind, hentries, _⟩
  rw [hentries]
  exact List.mem_append_right _ List.mem_cons_self

/-- One knows no more than another. -/
def Sub (k k' : Known) : Prop := ∀ x e, (x, e) ∈ k.entries → (x, e) ∈ k'.entries

theorem Sub.refl (k : Known) : Sub k k := fun _ _ h => h

theorem Sub.trans {a b c : Known} (h : Sub a b) (h' : Sub b c) : Sub a c :=
  fun x e hx => h' x e (h x e hx)

theorem nothing_sub (k : Known) : Sub nothing k := fun _ _ h => absurd h not_mem_nothing

theorem forget_sub (k : Known) (names : List String) : Sub (k.forget names) k :=
  fun _ _ h => (mem_forget.mp h).1

/-- Evaluating an expression leaves less or the same. -/
theorem evaluated_sub (d : Dialect) (e : Expr) (k : Known) : Sub (k.evaluated d e) k := by
  rw [evaluated]
  split
  · exact nothing_sub k
  · exact .refl k

/-- Forgetting more of less leaves less. -/
theorem Sub.forget {k k' : Known} (h : Sub k k') {names names' : List String}
    (hnames : names' ⊆ names) : Sub (k.forget names) (k'.forget names') := by
  intro x e hx
  rw [mem_forget] at hx ⊢
  exact ⟨h x e hx.1, fun hx' => hx.2.1 (hnames hx'), fun y hy hy' => hx.2.2 y hy (hnames hy')⟩

theorem sub_forget_forget (k : Known) (names : List String) :
    Sub (k.forget names) ((k.forget names).forget names) :=
  fun _ _ h => mem_forget.mpr ⟨h, (mem_forget.mp h).2⟩

/-- What can be known after an assignment: what was known of other variables, and
    the value, if there is just one variable. -/
theorem mem_assigned {d : Dialect} {names : List String} {value : Option Expr} {k : Known}
    {x : String} {e : Expr} (h : (x, e) ∈ (k.assigned d names value).entries) :
    (x, e) ∈ (k.forget names).entries ∨
      value = some e ∧ e.movable d = true ∧ x ∉ e.reads ∧ ∀ y, y ∈ names ↔ y = x := by
  -- An entry is learned only for one name, a movable value, and one that does not read the name.
  unfold assigned at h
  split at h
  · rename_i name value hnames
    split at h
    · rename_i hmovable
      rcases mem_learn h with ⟨rfl, rfl⟩ | h
      · right
        rw [Bool.and_eq_true, Bool.not_eq_true', List.contains_eq_mem, decide_eq_false_iff_not]
          at hmovable
        refine ⟨rfl, hmovable.1, hmovable.2, fun y => ?_⟩
        rw [← Table.mem_distinct, hnames, List.mem_singleton]
      · exact Or.inl h
    · exact Or.inl h
  · exact Or.inl h

end Known

/-- A variable has the value of a movable expression. -/
structure HasValue (c : RunContext) (v : Sight) (s : RunState) (x : String) (e : Expr) : Prop where
  movable : e.movable c.dialect = true
  yields : e.Yields c.dialect v 1
  equal : ∃ w, s.env.get? x = some w ∧
    ∀ (call : Caller) (fs : FunctionScopes), e.run c call fs s = .ok [w] s

/-- The value of a variable depends on the variable itself, on the variables that
    the expression reads and on the call data. -/
theorem HasValue.congr {c : RunContext} {v v' : Sight} {s t : RunState} {x : String} {e : Expr}
    (h : HasValue c v s x e) (henv : Environment.Holds v.vars s.env)
    (hdata : t.machine.calldata = s.machine.calldata) (hx : t.env.get? x = s.env.get? x)
    (hreads : ∀ y ∈ e.reads, t.env.get? y = s.env.get? y)
    (hvisible : ∀ y ∈ e.reads, y ∈ v'.visible) : HasValue c v' t x e := by
  rcases h.equal with ⟨w, hw, hrun⟩
  refine ⟨h.movable, h.yields.movable_congr h.movable hvisible, w, hx.trans hw, ?_⟩
  exact Expr.run_movable h.movable h.yields henv (hrun (FunctionDef.call c 0) []) hdata hreads

theorem HasValue.visible {c : RunContext} {v : Sight} {s : RunState} {x : String} {e : Expr}
    (h : HasValue c v s x e) (henv : Environment.Holds v.vars s.env) : x ∈ v.visible := by
  rcases h.equal with ⟨w, hw, _⟩
  exact (henv.isSome_get? x).mp (by rw [hw]; rfl)

/-- All known values hold in a state. -/
def Known.Valid (c : RunContext) (v : Sight) (k : Known) (s : RunState) : Prop :=
  ∀ x e, (x, e) ∈ k.entries → HasValue c v s x e

namespace Known

variable {c : RunContext} {v v' : Sight} {k k' : Known} {s t : RunState}

theorem valid_nothing : Valid c v nothing s := fun _ _ h => absurd h not_mem_nothing

theorem Valid.sub (h : Valid c v k s) (hsub : Sub k' k) : Valid c v k' s :=
  fun x e hx => h x e (hsub x e hx)

/-- What is known goes on to hold if the variables that change are forgotten. -/
theorem Valid.keeps {names : List String} (h : Valid c v k s)
    (henv : Environment.Holds v.vars s.env) (hkeeps : Keeps v.visible names s t)
    (hvisible : v.visible ⊆ v'.visible) : Valid c v' (k.forget names) t := by
  intro x e hx
  rcases mem_forget.mp hx with ⟨hx, hname, hreads⟩
  have hvalue := h x e hx
  refine hvalue.congr henv hkeeps.calldata ?_ ?_ ?_
  · exact hkeeps.same x (hvalue.visible henv) hname
  · exact fun y hy => hkeeps.same y (hvalue.yields.reads_visible y hy) (hreads y hy)
  · exact fun y hy => hvisible (hvalue.yields.reads_visible y hy)

/-- What is valid stays valid while the variables and the input stay. -/
theorem Valid.steady (h : Valid c v k s) (henv : Environment.Holds v.vars s.env)
    (hst : Steady s t) : Valid c v k t := by
  intro x e hx
  have hvalue := h x e hx
  refine hvalue.congr henv hst.calldata (by rw [hst.env]) (fun y _ => by rw [hst.env]) ?_
  exact fun y hy => hvalue.yields.reads_visible y hy

/-- Opening a scope. -/
theorem Valid.enter (h : Valid c v k s) (henv : Environment.Holds v.vars s.env)
    (stmts : List Stmt) : Valid c (v.enter stmts) k { s with env := .empty :: s.env } := by
  intro x e hx
  have hvalue := h x e hx
  exact hvalue.congr henv rfl rfl (fun _ _ => rfl) fun y hy => hvalue.yields.reads_visible y hy

/-- What is known of the variables outside a scope goes on to hold when the scope
    is left. -/
theorem Valid.close {stmts : List Stmt} {names : List String}
    (h : Valid c ((v.enter stmts).declare names) k s)
    (henv : Environment.Holds ((v.enter stmts).declare names).vars s.env) :
    Valid c v (k.forget names) { s with env := s.env.tail } := by
  intro x e hx
  rcases mem_forget.mp hx with ⟨hx, hname, hreads⟩
  have hvalue := h x e hx
  have hvars : ((v.enter stmts).declare names).vars = names :: v.vars := rfl
  have henv' := henv
  rw [hvars] at henv'
  refine hvalue.congr henv rfl (henv'.get?_tail hname) (fun y hy => henv'.get?_tail (hreads y hy))
    fun y hy => ?_
  have hy' := hvalue.yields.reads_visible y hy
  rw [Sight.visible, hvars, List.flatten_cons, List.mem_append] at hy'
  exact hy'.resolve_left (hreads y hy)

/-- What is learned from an assignment holds, provided that the variable got the
    value. -/
theorem Valid.assigned {names : List String} {value : Option Expr} (call : Caller)
    (fs : FunctionScopes) (h : Valid c v k s)
    (henv : Environment.Holds v.vars s.env) (hkeeps : Keeps v.visible names s t)
    (hvisible : v.visible ⊆ v'.visible)
    (hvalue : ∀ x e, value = some e → e.movable c.dialect = true → (∀ y, y ∈ names ↔ y = x) →
      e.Yields c.dialect v 1 ∧ ∃ w, t.env.get? x = some w ∧ e.run c call fs s = .ok [w] s) :
    Valid c v' (k.assigned c.dialect names value) t := by
  intro x e hx
  rcases mem_assigned hx with hx | ⟨hsome, hmovable, hself, hnames⟩
  · exact h.keeps henv hkeeps hvisible x e hx
  · rcases hvalue x e hsome hmovable hnames with ⟨hyields, w, hw, hrun⟩
    refine ⟨hmovable, hyields.movable_congr hmovable fun y hy => ?_, w, hw, ?_⟩
    · exact hvisible (hyields.reads_visible y hy)
    · -- The expression does not read the variable, so it still has that value.
      refine Expr.run_movable hmovable hyields henv hrun hkeeps.calldata fun y hy => ?_
      refine hkeeps.same y (hyields.reads_visible y hy) fun hy' => hself ?_
      exact (hnames y).mp hy' ▸ hy

end Known

end YulToolchain
