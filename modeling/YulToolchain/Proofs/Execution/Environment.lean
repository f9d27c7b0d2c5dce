import YulToolchain.Proofs.Static.Sight
import Mathlib.Data.List.Forall2

/-!
# Variables by Scope

What declarations and assignments do to the variables in sight.

`Environment.Holds` says which variables exist, scope by scope. It is the run-time
side of what a `Sight` says about variables. Values are described by lookups
alone: every change of an environment has an equation that says what a lookup
gives afterwards.

## Main definitions

* `Environment.Holds`: The variables in each scope.

## Theorems

* `Table.get?_insert`: Lookup after an insertion.
* `Environment.Holds.isSome_get?`: Exactly the variables in sight have values.
* `Environment.get?_declareAll`, `Environment.Holds.declareAll`: Declarations.
* `Environment.get?_assign?`, `Environment.Holds.assign?`: Assignments.
* `Environment.Holds.get?_tail`: Leaving a scope.
* `FunctionDef.frame_holds`: The variables a function starts with.
-/

namespace YulToolchain

namespace Table

variable {κ α : Type} [DecidableEq κ] [LT κ] [DecidableLT κ]

/-- The key that is inserted is found, all others as before. -/
theorem lookup_insertEntry (k : κ) (v : α) (k' : κ) : ∀ (l : List (κ × α)),
    (insertEntry k v l).lookup k' = if k' = k then some v else l.lookup k'
  | [] => by
      simp only [insertEntry, List.lookup_cons, List.lookup_nil]
      by_cases h : k' = k
      · simp only [h, beq_self_eq_true, if_true]
      · simp only [beq_eq_false_iff_ne.mpr h, h, if_false]
  | (k₁, v₁) :: rest => by
      have ih := lookup_insertEntry k v k' rest
      -- The new key comes first, replaces the first one or goes behind it.
      simp only [insertEntry]
      split
      · rw [List.lookup_cons]
        by_cases h : k' = k
        · simp only [h, beq_self_eq_true, if_true]
        · simp only [beq_eq_false_iff_ne.mpr h, h, if_false]
      · split
        · rename_i hk
          subst hk
          simp only [List.lookup_cons]
          by_cases h : k' = k
          · simp only [h, beq_self_eq_true, if_true]
          · simp only [beq_eq_false_iff_ne.mpr h, h, if_false]
        · rename_i hk
          simp only [List.lookup_cons, ih]
          by_cases h : k' = k₁
          · subst h
            simp only [beq_self_eq_true, if_neg (Ne.symm hk)]
          · simp only [beq_eq_false_iff_ne.mpr h]

/-- An entry is the new one or an old one. -/
theorem mem_insertEntry {k : κ} {v : α} {p : κ × α} : ∀ {l : List (κ × α)},
    p ∈ insertEntry k v l → p = (k, v) ∨ p ∈ l
  | [], h => Or.inl (List.mem_singleton.mp h)
  | (k₁, v₁) :: rest, h => by
      simp only [insertEntry] at h
      split at h
      · exact List.mem_cons.mp h
      · split at h
        · rcases List.mem_cons.mp h with h | h
          · exact Or.inl h
          · exact Or.inr (List.mem_cons_of_mem _ h)
        · rcases List.mem_cons.mp h with h | h
          · exact Or.inr (h ▸ List.mem_cons_self)
          · exact (mem_insertEntry h).imp_right (List.mem_cons_of_mem _)

@[simp]
theorem get?_insert (t : Table κ α) (k : κ) (v : α) (k' : κ) :
    (t.insert k v).get? k' = if k' = k then some v else t.get? k' :=
  lookup_insertEntry k v k' t.entries

/-- The keys of a table after an insertion. -/
theorem contains_insert (t : Table κ α) (k : κ) (v : α) (k' : κ) :
    (t.insert k v).contains k' = true ↔ k' = k ∨ t.contains k' = true := by
  simp only [contains, get?_insert]
  by_cases h : k' = k
  · simp only [h, if_true, Option.isSome_some, true_or]
  · simp only [h, if_false, false_or]

omit [LT κ] [DecidableLT κ] in
@[simp]
theorem get?_empty (k : κ) : (empty : Table κ α).get? k = none := rfl

end Table

namespace Environment

/-- The variables that exist in each scope. -/
def Holds (vars : List (List String)) (env : Environment) : Prop :=
  List.Forall₂ (fun names scope => ∀ x, scope.contains x = true ↔ x ∈ names) vars env

theorem get?_cons (scope : Table String Word) (env : Environment) (x : String) :
    get? x (scope :: env) = (scope.get? x).or (get? x env) := by
  simp only [get?]
  cases scope.get? x <;> rfl

/-- A name has a value if it is a variable. -/
theorem Holds.isSome_get? {vars : List (List String)} {env : Environment} (h : Holds vars env)
    (x : String) : (env.get? x).isSome = true ↔ x ∈ vars.flatten := by
  induction h with
  | nil => simp only [get?, Option.isSome_none, Bool.false_eq_true, List.flatten_nil,
      List.not_mem_nil]
  | cons hhere _ ih =>
      rw [get?_cons, Option.isSome_or, Bool.or_eq_true, ih, List.flatten_cons, List.mem_append,
        ← hhere x]
      rfl

theorem Holds.get?_some {vars : List (List String)} {env : Environment} (h : Holds vars env)
    {x : String} (hx : x ∈ vars.flatten) : ∃ w, env.get? x = some w :=
  Option.isSome_iff_exists.mp ((h.isSome_get? x).mpr hx)

/-- A scope without variables. -/
theorem Holds.push {vars : List (List String)} {env : Environment} (h : Holds vars env) :
    Holds ([] :: vars) (.empty :: env) := by
  refine List.Forall₂.cons (fun x => ?_) h
  simp only [Table.contains, Table.get?_empty, Option.isSome_none, Bool.false_eq_true,
    List.not_mem_nil]

theorem Holds.tail {names : List String} {vars : List (List String)} {env : Environment}
    (h : Holds (names :: vars) env) : Holds vars env.tail := by
  cases h with
  | cons _ hrest => exact hrest

/-- Leaving a scope does not change what is outside of it. -/
theorem Holds.get?_tail {names : List String} {vars : List (List String)} {env : Environment}
    (h : Holds (names :: vars) env) {x : String} (hx : x ∉ names) :
    get? x env.tail = get? x env := by
  cases h with
  | cons hhere _ =>
      rw [get?_cons]
      have hnone := mt (hhere x).mp hx
      rw [Table.contains, Bool.not_eq_true, Option.isSome_eq_false_iff, Option.isNone_iff_eq_none]
        at hnone
      rw [hnone]
      rfl

section Declare

variable {x y : String} {w : Word}

/-- Declaring changes one name. -/
theorem get?_declare {env : Environment} (hne : env ≠ []) :
    (env.declare x w).get? y = if y = x then some w else env.get? y := by
  cases env with
  | nil => exact absurd rfl hne
  | cons scope outer =>
      simp only [declare, get?_cons, Table.get?_insert]
      by_cases h : y = x
      · simp only [h, if_true, Option.some_or]
      · simp only [h, if_false]

theorem declare_ne_nil {env : Environment} (hne : env ≠ []) : env.declare x w ≠ [] := by
  cases env with
  | nil => exact absurd rfl hne
  | cons scope outer => exact List.cons_ne_nil _ _

/-- A new variable of the innermost scope. -/
theorem Holds.declare {names : List String} {vars : List (List String)} {env : Environment}
    (h : Holds (names :: vars) env) : Holds ((names ++ [x]) :: vars) (env.declare x w) := by
  cases h with
  | cons hhere hrest =>
      refine List.Forall₂.cons (fun y => ?_) hrest
      rw [Table.contains_insert, hhere y, List.mem_append, List.mem_singleton, or_comm]

/-- Of several declarations of a name the last one counts. -/
theorem get?_declareAll : ∀ (pairs : List (String × Word)) {env : Environment}, env ≠ [] →
    (env.declareAll pairs).get? y = (pairs.reverse.lookup y).or (env.get? y)
  | [], env, _ => rfl
  | (x, w) :: rest, env, hne => by
      have ih := get?_declareAll rest (declare_ne_nil (x := x) (w := w) hne)
      show (Environment.declareAll rest (env.declare x w)).get? y = _
      rw [ih, get?_declare hne, List.reverse_cons, List.lookup_append]
      cases List.lookup y rest.reverse with
      | some _ => rfl
      | none =>
          simp only [Option.none_or, List.lookup_cons, List.lookup_nil]
          by_cases h : y = x
          · simp only [h, if_true, beq_self_eq_true, Option.some_or]
          · simp only [h, if_false, beq_eq_false_iff_ne.mpr h, Option.none_or]

/-- Several new variables of it. -/
theorem Holds.declareAll {vars : List (List String)} :
    ∀ (pairs : List (String × Word)) {names : List String} {env : Environment},
      Holds (names :: vars) env →
      Holds ((names ++ pairs.map (·.1)) :: vars) (env.declareAll pairs)
  | [], names, env, h => by
      rw [List.map_nil, List.append_nil]
      exact h
  | (x, w) :: rest, names, env, h => by
      have := Holds.declareAll rest (h.declare (x := x) (w := w))
      rw [List.append_assoc, List.singleton_append] at this
      exact this

end Declare

section Assign

variable {x y : String} {w : Word}

/-- Assigning changes one name, in the scope that has it. -/
theorem get?_assign? : ∀ {env env' : Environment}, env.assign? x w = some env' →
    env'.get? y = if y = x then some w else env.get? y
  | [], env', h => absurd h (by rintro ⟨⟩)
  | scope :: outer, env', h => by
      simp only [assign?] at h
      -- The innermost scope has the name, or an outer one does.
      split at h
      · rename_i hscope
        obtain rfl := Option.some.inj h
        simp only [get?_cons, Table.get?_insert]
        by_cases hy : y = x
        · simp only [hy, if_true, Option.some_or]
        · simp only [hy, if_false]
      · rename_i hscope
        rcases Option.map_eq_some_iff.mp h with ⟨outer', houter, rfl⟩
        rw [get?_cons, get?_cons, get?_assign? houter]
        by_cases hy : y = x
        · subst hy
          rw [Table.contains, Option.not_isSome_iff_eq_none] at hscope
          simp only [hscope, if_true, Option.none_or]
        · simp only [hy, if_false]

/-- A variable can be assigned. -/
theorem Holds.assign? {vars : List (List String)} {env : Environment} (h : Holds vars env)
    (hx : x ∈ vars.flatten) : ∃ env', env.assign? x w = some env' ∧ Holds vars env' := by
  induction h with
  | nil => exact absurd hx (List.not_mem_nil)
  | @cons names scope vars outer hhere hrest ih =>
      simp only [Environment.assign?]
      split
      · rename_i hscope
        refine ⟨_, rfl, List.Forall₂.cons (fun y => ?_) hrest⟩
        rw [Table.contains_insert, hhere y]
        refine or_iff_right_of_imp ?_
        rintro rfl
        exact (hhere y).mp hscope
      · rename_i hscope
        rw [List.flatten_cons, List.mem_append, ← hhere x] at hx
        rcases ih (hx.resolve_left hscope) with ⟨outer', houter, hholds⟩
        exact ⟨scope :: outer', by rw [houter]; rfl, List.Forall₂.cons hhere hholds⟩

end Assign

end Environment

/-- A name that is not among the pairs is not found in them. -/
theorem lookup_reverse_eq_none {x : String} {pairs : List (String × Word)}
    (h : x ∉ pairs.map (·.1)) : pairs.reverse.lookup x = none := by
  rw [List.lookup_eq_none_iff]
  intro p hp
  rw [bne_iff_ne]
  rintro rfl
  exact h (List.mem_map_of_mem (List.mem_reverse.mp hp))

/-- The variables a function starts with are declared one after the other. -/
theorem FunctionDef.frame_eq (f : FunctionDef) {args : List Word}
    (h : args.length = f.params.length) :
    [f.frame args] = Environment.declareAll
      (f.names.zip (args ++ List.replicate f.returns.length 0)) [.empty] := by
  have hfold : ∀ (pairs : List (String × Word)) (t : Table String Word),
      [pairs.foldl (fun scope p => scope.insert p.1 p.2) t] = Environment.declareAll pairs [t] := by
    intro pairs
    induction pairs with
    | nil => exact fun _ => rfl
    | cons q rest ih => exact fun _ => ih _
  rw [FunctionDef.names, List.map_append, List.zip_append (by rw [List.length_map, h]),
    ← List.map_const', List.zip_map']
  exact hfold _ _

/-- The frame has the names of the function. -/
theorem FunctionDef.map_fst_frame (f : FunctionDef) {args : List Word}
    (h : args.length = f.params.length) :
    (f.names.zip (args ++ List.replicate f.returns.length 0)).map (·.1) = f.names := by
  refine List.map_fst_zip (Nat.le_of_eq ?_)
  rw [FunctionDef.names, List.length_map, List.length_append, List.length_append,
    List.length_replicate, h]

/-- The variables a function starts with are its parameters and its return
    variables. -/
theorem FunctionDef.frame_holds (f : FunctionDef) {args : List Word}
    (h : args.length = f.params.length) : Environment.Holds [f.names] [f.frame args] := by
  have hempty : Environment.Holds [[]] [.empty] := Environment.Holds.push .nil
  have hall := hempty.declareAll (f.names.zip (args ++ List.replicate f.returns.length 0))
  rwa [← f.frame_eq h, List.nil_append, f.map_fst_frame h] at hall

end YulToolchain
