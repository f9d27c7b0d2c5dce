import Mathlib.Data.List.Perm.Subperm
import Mathlib.Logic.Relation
import YulToolchain.Proofs.Flow.Knowledge

/-!
# Known Values and What They Read

A known value may read variables that have known values themselves. Whoever follows known
values from variable to variable comes to an end, though nothing bounds the number of steps:
one never comes back to a variable.

That holds because of when a value is learned. Its variable was forgotten just before, and
with it every value that reads the variable, so nothing known leads into the variable, and
the value that is learned does not read it either. A new cycle would have to lead through
the variable. In other words a known value reads only what was learned before it; but the
times are not kept, so the proof is about paths.

The walk along the flow also keeps, beside each value, the variables that it reads, and
forgets by looking there. `Slate` is what is known in this form. The entries beside a value
are never out of date, so a slate is always that of some known values, and what is done to
it can be told of them.

## Main definitions

* `Known.Reads`, `Known.WellKept`: Values read variables, and they form no cycle.
* `Known.LeadsTo`: What is found by following known values, with no bound on the steps.
* `Known.Affords`: A bound has room for what a walk that copies known values has before it.
* `Slate`: Known values and, for each of them, what it reads.
* `Slate.Sound`: What is kept beside the values belongs to them, and they form no cycle.
* `Slate.ofKnown`: The slate of known values.

## Theorems

* `Known.WellKept.forget`, `Known.WellKept.learn`, `Known.WellKept.assigned`: What a walk does
  to known values brings no cycle about.
* `Known.WellKept.leadsTo`: Following known values ends where the bounded search ends.
* `Known.Affords.copied`: A value takes no more than what was set aside for it.
* `Slate.sound_ofKnown`: The slate of well kept values is sound.
* `Slate.clear_ofKnown`, `Slate.assign_ofKnown`: Striking out is forgetting, and entering
  is learning.
-/

namespace YulToolchain

namespace Table

variable {κ α β : Type}

/-- The table with every value changed. -/
def mapValues (f : α → β) (t : Table κ α) : Table κ β := ⟨t.entries.map fun (k, v) => (k, f v)⟩

theorem keys_mapValues (f : α → β) (t : Table κ α) : (t.mapValues f).keys = t.keys := by
  rw [keys, mapValues, List.map_map]
  rfl

/-- Filtering behind a map is mapping behind a filter. -/
theorem filter_mapValues (f : α → β) (t : Table κ α) (p : κ → β → Bool) :
    (t.mapValues f).filter p = (t.filter fun k v => p k (f v)).mapValues f := by
  rw [filter, mapValues, List.filter_map]
  rfl

theorem filter_congr {t : Table κ α} {p q : κ → α → Bool}
    (h : ∀ k v, (k, v) ∈ t.entries → p k v = q k v) : t.filter p = t.filter q :=
  congrArg Table.mk (List.filter_congr fun e he => h e.1 e.2 he)

theorem filter_true {t : Table κ α} {p : κ → α → Bool}
    (h : ∀ k v, (k, v) ∈ t.entries → p k v = true) : t.filter p = t :=
  congrArg Table.mk (List.filter_eq_self.mpr fun e he => h e.1 e.2 he)

theorem nodup_keys_filter {t : Table κ α} (h : t.keys.Nodup) (p : κ → α → Bool) :
    (t.filter p).keys.Nodup :=
  h.sublist (List.filter_sublist.map _)

/-- A key has one entry. -/
theorem value_unique {t : Table κ α} (h : t.keys.Nodup) {k : κ} {v v' : α}
    (hv : (k, v) ∈ t.entries) (hv' : (k, v') ∈ t.entries) : v = v' :=
  congrArg Prod.snd (List.inj_on_of_nodup_map h hv hv' rfl)

/-- If a key has one entry, it is among the keys of the entries that satisfy a condition just if
    its own does. -/
theorem mem_keys_filter {t : Table κ α} (h : t.keys.Nodup) {p : κ → α → Bool} {k : κ} {v : α}
    (hv : (k, v) ∈ t.entries) : k ∈ (t.filter p).keys ↔ p k v = true := by
  constructor
  · intro hk
    rcases List.mem_map.mp hk with ⟨⟨k', v'⟩, hv', rfl⟩
    rcases List.mem_filter.mp hv' with ⟨hmem, hp⟩
    obtain rfl := value_unique h hv hmem
    exact hp
  · exact fun hp => List.mem_map_of_mem (List.mem_filter.mpr ⟨hv, hp⟩)

variable [DecidableEq κ]

/-- Erasing keys one by one is one filter. -/
theorem foldl_erase : ∀ (ks : List κ) (t : Table κ α),
    ks.foldl erase t = t.filter fun k _ => !ks.contains k
  | [], t => (filter_true fun _ _ _ => rfl).symm
  | k :: rest, t => by
      rw [List.foldl_cons, foldl_erase rest, erase, filter, filter, List.filter_filter]
      refine congrArg Table.mk (List.filter_congr fun e _ => ?_)
      simp only [List.contains_cons, Bool.not_or, ne_eq, decide_not, beq_eq_decide, Bool.and_comm]

/-- Looking up a mapped value. -/
theorem get?_mapValues (f : α → β) (t : Table κ α) (k : κ) :
    (t.mapValues f).get? k = (t.get? k).map f := by
  have hlookup : ∀ l : List (κ × α),
      (l.map fun (k, v) => (k, f v)).lookup k = (l.lookup k).map f := by
    intro l
    induction l with
    | nil => rfl
    | cons p rest ih =>
        rw [List.map_cons, List.lookup_cons, List.lookup_cons, ih]
        cases k == p.1 <;> rfl
  exact hlookup t.entries

variable [LT κ] [DecidableLT κ]

/-- Inserting commutes with mapping. -/
theorem insert_mapValues (f : α → β) (t : Table κ α) (k : κ) (v : α) :
    (t.mapValues f).insert k (f v) = (t.insert k v).mapValues f := by
  have hentries : ∀ l : List (κ × α), insertEntry k (f v) (l.map fun (k, v) => (k, f v))
      = (insertEntry k v l).map fun (k, v) => (k, f v) := by
    intro l
    induction l with
    | nil => rfl
    | cons p rest ih =>
        simp only [List.map_cons, insertEntry, ih]
        split
        · rfl
        · split <;> rfl
  exact congrArg Table.mk (hentries t.entries)

/-- A new key comes to the others. -/
theorem keys_insert_perm {t : Table κ α} {k : κ} {v : α} (hk : k ∉ t.keys) :
    (t.insert k v).keys.Perm (k :: t.keys) := by
  have hentries : ∀ l : List (κ × α), k ∉ l.map (·.1) →
      ((insertEntry k v l).map (·.1)).Perm (k :: l.map (·.1)) := by
    intro l
    induction l with
    | nil => exact fun _ => .refl _
    | cons p rest ih =>
        rw [List.map_cons, List.mem_cons, not_or]
        rintro ⟨hne, hrest⟩
        simp only [insertEntry]
        split
        · exact .refl _
        · exact ((ih hrest).cons p.1).trans (.swap k p.1 _)
  exact hentries t.entries hk

end Table

namespace Known

/-- A variable is known to have a value that reads another one. -/
def Reads (k : Known) (x y : String) : Prop := ∃ e, (x, e) ∈ k.entries ∧ y ∈ e.reads

/-- No variable has two values, and from no variable one comes back to it by reading. -/
structure WellKept (k : Known) : Prop where
  keys : k.keys.Nodup
  acyclic : ∀ x, ¬ Relation.TransGen k.Reads x x

variable {k : Known}

theorem wellKept_nothing : nothing.WellKept := by
  refine ⟨List.nodup_nil, fun x h => ?_⟩
  rcases Relation.TransGen.head'_iff.mp h with ⟨y, ⟨e, he, _⟩, _⟩
  exact not_mem_nothing he

theorem WellKept.self (h : k.WellKept) {x : String} {e : Expr} (he : (x, e) ∈ k.entries) :
    x ∉ e.reads :=
  fun hx => h.acyclic x (.single ⟨e, he, hx⟩)

/-- Forgetting keeps knowledge well kept. -/
theorem WellKept.forget (h : k.WellKept) (names : List String) : (k.forget names).WellKept := by
  have hsub : (k.forget names).Reads ≤ k.Reads := by
    rintro y z ⟨e, he, hz⟩
    exact ⟨e, (mem_forget.mp he).1, hz⟩
  exact ⟨Table.nodup_keys_filter h.keys _,
    fun x hx => h.acyclic x (Relation.TransGen.mono hsub x x hx)⟩

/-- Once nothing reads a variable and it has no value, it may get any value that does not read
    it: no reading leads into the variable, so no cycle leads through it. -/
theorem WellKept.learn (h : k.WellKept) {x : String} {e : Expr} (hkey : x ∉ k.keys)
    (hfree : ∀ y v, (y, v) ∈ k.entries → x ∉ v.reads) (hself : x ∉ e.reads) :
    (k.learn x e).WellKept := by
  have hinto : ∀ y z, (k.learn x e).Reads y z → z ≠ x := by
    rintro y z ⟨v, hv, hz⟩ rfl
    rcases mem_learn hv with ⟨_, rfl⟩ | hv
    · exact hself hz
    · exact hfree y v hv hz
  -- A path that begins elsewhere has been there before.
  have hbefore : ∀ y z, Relation.TransGen (k.learn x e).Reads y z → y ≠ x →
      Relation.TransGen k.Reads y z := by
    intro y z hyz hy
    have hstep : ∀ a b, (k.learn x e).Reads a b → a ≠ x → k.Reads a b := by
      rintro a b ⟨v, hv, hb⟩ ha
      rcases mem_learn hv with ⟨rfl, _⟩ | hv
      · exact absurd rfl ha
      · exact ⟨v, hv, hb⟩
    induction hyz with
    | single hread => exact .single (hstep _ _ hread hy)
    | tail hpath hread ih =>
        refine ih.tail (hstep _ _ hread ?_)
        rcases Relation.TransGen.tail'_iff.mp hpath with ⟨a, _, ha⟩
        exact hinto _ _ ha
  refine ⟨(Table.keys_insert_perm hkey).nodup_iff.mpr (List.nodup_cons.mpr ⟨hkey, h.keys⟩),
    fun y hy => ?_⟩
  rcases Relation.TransGen.tail'_iff.mp hy with ⟨a, _, ha⟩
  exact h.acyclic y (hbefore y y hy (hinto _ _ ha))

/-- What is learned from an assignment reads none of the variables that are assigned. -/
theorem WellKept.assigned (h : k.WellKept) (d : Dialect) (names : List String)
    (value : Option Expr) : (k.assigned d names value).WellKept := by
  unfold Known.assigned
  split
  · rename_i x e hnames
    have hx : x ∈ names := Table.mem_distinct.mp (hnames ▸ List.mem_singleton_self x)
    split
    · rename_i hvalue
      rw [Bool.and_eq_true, Bool.not_eq_true', List.contains_eq_mem, decide_eq_false_iff_not]
        at hvalue
      refine (h.forget names).learn (fun hkey => ?_) (fun y v hv hreads => ?_) hvalue.2
      · rcases List.mem_map.mp hkey with ⟨⟨y, v⟩, hv, rfl⟩
        exact (mem_forget.mp hv).2.1 hx
      · exact (mem_forget.mp hv).2.2 x hreads hx
    · exact h.forget names
  · exact h.forget names

/-- An expression leads to a number or to none: a literal to what it denotes, and a variable to
    what its known value leads to, however many variables are on the way. -/
inductive LeadsTo (k : Known) : Expr → Option Word → Prop where
  | literal (l : Literal) : LeadsTo k (.literal l) l.value.toOption
  | known {line : Nat} {x : String} {e : Expr} {r : Option Word} (hx : k.value? x = some e)
      (he : LeadsTo k e r) : LeadsTo k (.ident line x) r
  | unknown {line : Nat} {x : String} (hx : k.value? x = none) : LeadsTo k (.ident line x) none
  | instr (line : Nat) (op : Instruction) (args : List Expr) :
      LeadsTo k (.instr line op args) none
  | call (line : Nat) (name : String) (args : List Expr) : LeadsTo k (.call line name args) none

/-- As many steps are enough as there are known values that were not met yet. The variables that
    were met lead to the one that comes next by reading, so it is not one of them. -/
theorem WellKept.leadsTo_within (h : k.WellKept) : ∀ (steps : Nat) (e : Expr)
    (met : List String), met.Nodup → (∀ x ∈ met, x ∈ k.keys) →
    (∀ x ∈ met, ∀ y ∈ e.reads, Relation.TransGen k.Reads x y) →
    k.keys.length ≤ met.length + steps → k.LeadsTo e (k.constantWithin steps e)
  | steps, .literal l, _, _, _, _, _ => by
      have hl : k.constantWithin steps (.literal l) = l.value.toOption := by
        cases steps <;> rfl
      rw [hl]
      exact .literal l
  | 0, .instr line op args, _, _, _, _, _ => .instr line op args
  | _ + 1, .instr line op args, _, _, _, _, _ => .instr line op args
  | 0, .call line name args, _, _, _, _, _ => .call line name args
  | _ + 1, .call line name args, _, _, _, _, _ => .call line name args
  | steps, .ident line x, met, hnodup, hkeys, hreads, hlength => by
      cases hx : k.value? x with
      | none =>
          have hnone : k.constantWithin steps (.ident line x) = none := by
            cases steps with
            | zero => rfl
            | succ n => rw [constantWithin, hx]; rfl
          rw [hnone]
          exact .unknown hx
      | some e =>
          have he := mem_of_value? hx
          have hkey : x ∈ k.keys := List.mem_map_of_mem he
          -- Every name met so far reads the present one, on some path.
          have hpath : ∀ y ∈ met, Relation.TransGen k.Reads y x := fun y hy =>
            hreads y hy x (by rw [Expr.reads]; exact List.mem_singleton_self x)
          -- The present name is a new one, since knowledge has no cycle.
          have hnew : (x :: met).Nodup :=
            List.nodup_cons.mpr ⟨fun hx => h.acyclic x (hpath x hx), hnodup⟩
          have hall : ∀ y ∈ x :: met, y ∈ k.keys := List.forall_mem_cons.mpr ⟨hkey, hkeys⟩
          -- The names met are distinct keys, so that there is a step left for one more.
          have hfew : (x :: met).length ≤ k.keys.length :=
            (List.subperm_of_subset hnew hall).length_le
          rw [List.length_cons] at hfew
          cases steps with
          | zero => omega
          | succ n =>
              have hvalue : k.constantWithin (n + 1) (.ident line x) = k.constantWithin n e := by
                rw [constantWithin, hx]
                rfl
              rw [hvalue]
              refine .known hx (h.leadsTo_within n e (x :: met) hnew hall ?_ ?_)
              · intro y hy z hz
                rcases List.mem_cons.mp hy with rfl | hy
                · exact .single ⟨e, he, hz⟩
                · exact (hpath y hy).tail ⟨e, he, hz⟩
              · rw [List.length_cons]
                omega

/-- Following known values comes to an end, and what is found is the number that an expression
    is known to have. -/
theorem WellKept.leadsTo (h : k.WellKept) (e : Expr) : k.LeadsTo e (k.constant? e) :=
  h.leadsTo_within k.entries.length e [] List.nodup_nil (fun _ hx => absurd hx List.not_mem_nil)
    (fun _ hx => absurd hx List.not_mem_nil)
    (by rw [Table.keys, List.length_map]; exact Nat.le_add_left _ _)

/-- The combined size of the known values of all variables but some. -/
def sizeWithout (k : Known) (met : List String) : Nat :=
  Known.size (k.filter fun x _ => !met.contains x)

theorem sizeWithout_nil (k : Known) : k.sizeWithout [] = k.size := by
  have hall : k.filter (fun x _ => !([] : List String).contains x) = k :=
    Table.filter_true fun _ _ _ => rfl
  rw [sizeWithout, hall]

/-- The size of an entry counts unless its name is left out. -/
theorem sizeWithout_entry (x : String) (e : Expr) (rest : List (String × Expr))
    (met : List String) : sizeWithout ⟨(x, e) :: rest⟩ met
      = (if x ∈ met then 0 else e.size + 1) + sizeWithout ⟨rest⟩ met := by
  by_cases hx : x ∈ met
  · simp only [sizeWithout, Known.size, Table.filter, List.filter_cons, List.contains_eq_mem, hx,
      decide_true, Bool.not_true, Bool.false_eq_true, if_false, if_true, Nat.zero_add]
  · simp only [sizeWithout, Known.size, Table.filter, List.filter_cons, List.contains_eq_mem, hx,
      decide_false, Bool.not_false, if_false, if_true, List.foldr_cons]

/-- Leaving out a further name makes the size no larger. -/
theorem sizeWithout_cons_le (x : String) (met : List String) : ∀ l : List (String × Expr),
    sizeWithout ⟨l⟩ (x :: met) ≤ sizeWithout ⟨l⟩ met
  | [] => Nat.le_refl _
  | (y, v) :: rest => by
      have ih := sizeWithout_cons_le x met rest
      rw [sizeWithout_entry, sizeWithout_entry]
      by_cases hy : y ∈ met
      · rw [if_pos hy, if_pos (List.mem_cons_of_mem x hy)]
        exact Nat.add_le_add_left ih 0
      · rw [if_neg hy]
        split
        · omega
        · exact Nat.add_le_add_left ih _

/-- Without a variable that has a value, what is left is smaller by that value. -/
theorem sizeWithout_cons_lt {met : List String} {x : String} {e : Expr} (hx : x ∉ met) :
    ∀ {l : List (String × Expr)}, (x, e) ∈ l →
      sizeWithout ⟨l⟩ (x :: met) + e.size < sizeWithout ⟨l⟩ met
  | [], h => absurd h List.not_mem_nil
  | (y, v) :: rest, h => by
      have hrest := sizeWithout_cons_le x met rest
      rw [sizeWithout_entry, sizeWithout_entry]
      -- The entry is the first one, or it is found in the others.
      rcases List.mem_cons.mp h with hhead | hmem
      · obtain ⟨rfl, rfl⟩ := Prod.mk.inj hhead
        rw [if_pos List.mem_cons_self, if_neg hx]
        omega
      · have ih := sizeWithout_cons_lt hx hmem
        by_cases hy : y ∈ met
        · rw [if_pos hy, if_pos (List.mem_cons_of_mem x hy)]
          omega
        · rw [if_neg hy]
          split
          · omega
          · omega

/-- A bound is enough for a walk that may put known values in place of variables. Some variables
    were replaced on the way; they lead to all that is read now, so they are not met again. -/
def Affords (k : Known) (reads : List String) (size bound : Nat) : Prop :=
  ∃ met : List String, (∀ x ∈ met, ∀ y ∈ reads, Relation.TransGen k.Reads x y) ∧
    2 * (size + k.sizeWithout met) ≤ bound

theorem affords_of_le {reads : List String} {size bound : Nat}
    (h : 2 * (size + Known.size k) ≤ bound) : k.Affords reads size bound :=
  ⟨[], fun _ hx => absurd hx List.not_mem_nil, by rwa [sizeWithout_nil]⟩

/-- What can be afforded is at least the size itself. -/
theorem Affords.bound {reads : List String} {size bound : Nat} (h : k.Affords reads size bound) :
    2 * size ≤ bound := by
  rcases h with ⟨met, -, hbound⟩
  omega

/-- A part of an expression can be afforded with its share of the fuel. -/
theorem Affords.part {reads reads' : List String} {size size' bound bound' : Nat}
    (h : k.Affords reads size bound) (hreads : reads' ⊆ reads)
    (hsize : 2 * size' + bound ≤ 2 * size + bound') : k.Affords reads' size' bound' := by
  rcases h with ⟨met, hmet, hbound⟩
  exact ⟨met, fun x hx y hy => hmet x hx y (hreads hy), by omega⟩

/-- What a value takes was set aside for it. -/
theorem Affords.copied (hk : k.WellKept) {x : String} {e : Expr} {bound : Nat}
    (h : k.Affords [x] 1 bound) (hx : k.value? x = some e) : k.Affords e.reads e.size bound := by
  rcases h with ⟨met, hmet, hbound⟩
  have he := mem_of_value? hx
  have hpath : ∀ y ∈ met, Relation.TransGen k.Reads y x := fun y hy =>
    hmet y hy x (List.mem_singleton_self x)
  have hsmaller : k.sizeWithout (x :: met) + e.size < k.sizeWithout met :=
    sizeWithout_cons_lt (fun hx => hk.acyclic x (hpath x hx)) he
  refine ⟨x :: met, fun y hy z hz => ?_, by omega⟩
  rcases List.mem_cons.mp hy with rfl | hy
  · exact .single ⟨e, he, hz⟩
  · exact (hpath y hy).tail ⟨e, he, hz⟩

end Known

/-- What is known at a point, as the walk keeps it: the values and, for each variable that has
    one, the variables that the value reads. -/
structure Slate where
  /-- The known values. -/
  values : Known
  /-- What they read. -/
  references : Table String (List String)

namespace Slate

/-- Nothing is known. -/
def empty : Slate := ⟨.nothing, .empty⟩

/-- Enters a value and what it reads. -/
def set (l : Slate) (x : String) (e : Expr) (reads : List String) : Slate :=
  ⟨l.values.insert x e, l.references.insert x reads⟩

/-- Strikes out some variables and every value that reads one of them. -/
def clear (l : Slate) (names : List String) : Slate :=
  if names.isEmpty || l.values.isEmpty then l
  else
    let stale := (l.references.filter fun x reads =>
      names.contains x || reads.any names.contains).keys
    ⟨stale.foldl Table.erase l.values, stale.foldl Table.erase l.references⟩

/-- Takes note of an assignment. -/
def assign (d : Dialect) (names : List String) (value : Option Expr) (l : Slate) : Slate :=
  let l := l.clear names
  match Table.distinct names, value with
  | [x], some e =>
    if e.movable d && !e.reads.contains x then l.set x e (Table.distinct e.reads) else l
  | _, _ => l

/-- A variable has a value that reads another one. -/
def Reads (l : Slate) (x y : String) : Prop := ∃ e, l.values.get? x = some e ∧ y ∈ e.reads

/-- No variable has two values, the same variables have values and references, the references
    are what the values read, no value reads its own variable, and by reading one never comes
    back to a variable. -/
structure Sound (l : Slate) : Prop where
  distinct : l.values.keys.Nodup
  keys : l.references.keys = l.values.keys
  reads : ∀ x e, l.values.get? x = some e →
    ∃ reads, l.references.get? x = some reads ∧ ∀ y, y ∈ reads ↔ y ∈ e.reads
  self : ∀ x e, l.values.get? x = some e → x ∉ e.reads
  acyclic : ∀ x, ¬ Relation.TransGen l.Reads x x

/-- The slate of known values. -/
def ofKnown (k : Known) : Slate := ⟨k, k.mapValues fun e => Table.distinct e.reads⟩

variable {k : Known}

/-- The slate of well-kept knowledge is sound. -/
theorem sound_ofKnown (h : k.WellKept) : (ofKnown k).Sound := by
  refine ⟨h.keys, Table.keys_mapValues _ k, fun x e hx => ⟨Table.distinct e.reads, ?_, fun y => ?_⟩,
    fun x e hx => h.self (Known.mem_of_value? hx), fun x hx => h.acyclic x ?_⟩
  · have hx' : k.get? x = some e := hx
    rw [ofKnown, Table.get?_mapValues, hx', Option.map_some]
  · exact Table.mem_distinct
  · have hsub : (ofKnown k).Reads ≤ k.Reads := by
      rintro y z ⟨e, he, hz⟩
      exact ⟨e, Known.mem_of_value? he, hz⟩
    exact Relation.TransGen.mono hsub x x hx

theorem any_distinct (names reads : List String) :
    (Table.distinct reads).any names.contains = reads.any names.contains := by
  rw [Bool.eq_iff_iff, List.any_eq_true, List.any_eq_true]
  simp only [Table.mem_distinct]

/-- Striking out by name is forgetting. -/
theorem clear_ofKnown (h : k.keys.Nodup) (names : List String) :
    (ofKnown k).clear names = ofKnown (k.forget names) := by
  rw [clear]
  split
  -- Nothing to clear: no name is given or no value is known.
  · rename_i hnone
    have hall : k.forget names = k := by
      refine Table.filter_true fun x e hx => ?_
      rw [Bool.or_eq_true, List.isEmpty_iff] at hnone
      rcases hnone with rfl | hvalues
      · simp only [List.contains_nil, List.any_eq_false, Bool.false_or, Bool.not_eq_true',
          Bool.false_eq_true, not_false_eq_true, implies_true]
      · rw [Table.isEmpty, List.isEmpty_iff] at hvalues
        have hx' : (x, e) ∈ (ofKnown k).values.entries := hx
        rw [hvalues] at hx'
        exact absurd hx' List.not_mem_nil
    rw [hall]
  -- The stale names are those of the entries that forgetting leaves out.
  · have hstale : ((ofKnown k).references.filter fun x reads =>
          names.contains x || reads.any names.contains).keys
        = (k.filter fun x e => names.contains x || e.reads.any names.contains).keys := by
      rw [ofKnown, Table.filter_mapValues, Table.keys_mapValues]
      simp only [any_distinct]
    have hforget : (k.filter fun x _ => !(k.filter fun x e =>
        names.contains x || e.reads.any names.contains).keys.contains x) = k.forget names := by
      refine Table.filter_congr fun x e hx => congrArg not ?_
      rw [Bool.eq_iff_iff, List.contains_iff_mem, Table.mem_keys_filter h hx]
    rw [hstale]
    simp only [Table.foldl_erase, ofKnown, Table.filter_mapValues, hforget]

/-- Assigning on a slate is assigning in what is known. -/
theorem assign_ofKnown (h : k.keys.Nodup) (d : Dialect) (names : List String)
    (value : Option Expr) :
    (ofKnown k).assign d names value = ofKnown (k.assigned d names value) := by
  unfold assign Known.assigned
  rw [clear_ofKnown h]
  rcases Table.distinct names with _ | ⟨x, _ | ⟨y, rest⟩⟩
  · rfl
  · cases value with
    | none => rfl
    | some e =>
        dsimp only
        split
        · rw [set, ofKnown, Table.insert_mapValues]
          rfl
        · rfl
  · rfl

end Slate

end YulToolchain
