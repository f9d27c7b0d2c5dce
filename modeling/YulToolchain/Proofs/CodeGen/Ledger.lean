import YulToolchain.Proofs.Assembly.Layout
import YulToolchain.Proofs.CodeGen.Bond

/-!
# Ledgers of Labels

The entry of a function gets a label of its own, or one that it shares with all functions
of its name. What label of the one run stands for which label of the other one is written
down in a ledger as the runs go on.

A ledger only ever grows, and what is said of it stays true for a longer one. Two labels
are sent to the same label exactly if they are the entries of functions of one name
(`Ledger.Faithful`). So a label that is marked once in the run without names is marked
twice in the run with names exactly if two functions have one name.

## Main definitions

* `Ledger`: Which label stands for which.
* `Ledger.Kept`: A ledger covers all labels that two runs handed out.
* `Item.Relabelled`: An item without names, and the one with names in its place.
* `Ledger.Covers`: Two texts differ in labels only.

## Theorems

* `Ledger.Kept.newLabel`, `Ledger.Kept.namedLabel`: Labels are handed out.
* `Ledger.Faithful.nodup_iff`: No label is marked twice exactly if no two functions share a
  name.
-/

namespace YulToolchain

/-- For each label of the run without names, by number, the label of the run with names
    that stands for it, and the name of the function whose entry it is, if it is one. -/
abbrev Ledger := List (Nat × Option String)

/-- What is in one list has a counterpart in a list that corresponds to it. -/
theorem exists_mem_of_forall₂ {α β : Type} {R : α → β → Prop} {a : α} : ∀ {as : List α}
    {bs : List β}, List.Forall₂ R as bs → a ∈ as → ∃ b ∈ bs, R a b
  | _ :: _, b :: _, .cons h hrest, ha => by
      rcases List.mem_cons.mp ha with rfl | ha
      · exact ⟨b, List.mem_cons_self, h⟩
      · rcases exists_mem_of_forall₂ hrest ha with ⟨b', hb', h'⟩
        exact ⟨b', List.mem_cons_of_mem _ hb', h'⟩

namespace Ledger

/-- A label is sent to another one. -/
def Sends (w : Ledger) (i j : Nat) (name : Option String) : Prop := w[i]? = some (j, name)

/-- The function whose entry a label is. -/
def name? (w : Ledger) (i : Nat) : Option String := w[i]?.bind (·.2)

/-- Two labels are sent to the same one exactly if they are entries of functions of one
    name. -/
def Faithful (w : Ledger) : Prop :=
  w.Pairwise fun e f => e.1 = f.1 ↔ ∃ x, e.2 = some x ∧ f.2 = some x

/-- A ledger covers all labels up to a last one. They are sent to labels up to another last
    one, and to those of some names. -/
structure Kept (w : Ledger) (last last' : Nat) (named : List (String × Nat)) : Prop where
  length : w.length = last + 1
  bound : ∀ e ∈ w, e.1 ≤ last'
  named : ∀ x j, named.lookup x = some j ↔ (j, some x) ∈ w
  faithful : w.Faithful

section Growing

variable {w w' : Ledger} {i i' j j' : Nat} {name name' : Option String} {last last' : Nat}
  {named : List (String × Nat)}

theorem Sends.mono (h : w.Sends i j name) (hle : w <+: w') : w'.Sends i j name := by
  rcases hle with ⟨more, rfl⟩
  rw [Sends, List.getElem?_append_left (List.getElem?_eq_some_iff.mp h).1]
  exact h

theorem Sends.name? (h : w.Sends i j name) : w.name? i = name := by
  rw [Ledger.name?, h, Option.bind_some]

/-- What is written last is the next label. -/
theorem sends_last (h : w.length = i) (j : Nat) (name : Option String) :
    Ledger.Sends (w ++ [(j, name)]) i j name := by
  rw [Sends, ← h, List.getElem?_concat_length]

/-- Two entries have the same new label only if they have the same name. -/
theorem Faithful.eq_iff (hw : w.Faithful) (h : w.Sends i j name) (h' : w.Sends i' j' name')
    (hne : i ≠ i') : j = j' ↔ ∃ x, name = some x ∧ name' = some x := by
  rcases List.getElem?_eq_some_iff.mp h with ⟨hi, he⟩
  rcases List.getElem?_eq_some_iff.mp h' with ⟨hi', he'⟩
  have hpair := List.pairwise_iff_getElem.mp hw
  rcases Nat.lt_or_gt_of_ne hne with hlt | hlt
  · simpa only [he, he'] using hpair i i' hi hi' hlt
  · rw [eq_comm, (by simpa only [he, he'] using hpair i' i hi' hi hlt :
      j' = j ↔ ∃ x, name' = some x ∧ name = some x)]
    exact exists_congr fun x => and_comm

/-- At the start there is label zero, which nothing refers to. -/
theorem Kept.start : Kept [(0, none)] 0 0 [] := by
  refine ⟨rfl, ?_, ?_, List.pairwise_singleton _ _⟩
  · rintro e he
    rw [List.mem_singleton.mp he]
  · refine fun x j => iff_of_false (by rintro ⟨⟩) fun hc => ?_
    exact absurd (List.mem_singleton.mp hc) (by rintro ⟨⟩)

/-- One more label is handed out in the first run, and sent to one that is handed out in
    the second one. -/
theorem Kept.concat (h : w.Kept last last' named) {last₂ : Nat} {named₂ : List (String × Nat)}
    {e : Nat × Option String} (hle : last' ≤ last₂) (he : e.1 ≤ last₂)
    (hnamed : ∀ x j, named₂.lookup x = some j ↔ (j, some x) ∈ w ∨ (j, some x) = e)
    (hfaithful : ∀ f ∈ w, f.1 = e.1 ↔ ∃ x, f.2 = some x ∧ e.2 = some x) :
    Kept (w ++ [e]) (last + 1) last₂ named₂ := by
  -- The four fields, each for the old entries and for the new one.
  refine ⟨?_, ?_, ?_, ?_⟩
  · rw [List.length_append, h.length]
    rfl
  · intro f hf
    rcases List.mem_append.mp hf with hf | hf
    · exact Nat.le_trans (h.bound f hf) hle
    · rwa [List.mem_singleton.mp hf]
  -- A name has the label that some entry gives it.
  · intro x j
    rw [List.mem_append, List.mem_singleton]
    exact hnamed x j
  · refine List.pairwise_append.mpr ⟨h.faithful, List.pairwise_singleton _ _, fun f hf e' he' => ?_⟩
    obtain rfl := List.mem_singleton.mp he'
    exact hfaithful f hf

/-- A label that is new is no label of the ledger. -/
theorem Kept.ne_new (h : w.Kept last last' named) {f : Nat × Option String} (hf : f ∈ w) :
    f.1 ≠ last' + 1 := Nat.ne_of_lt (Nat.lt_succ_of_le (h.bound f hf))

/-- Labels without a name are handed out in both runs. -/
theorem Kept.newLabel (h : w.Kept last last' named) :
    Kept (w ++ [(last' + 1, none)]) (last + 1) (last' + 1) named := by
  refine h.concat (Nat.le_succ _) (Nat.le_refl _) (fun x j => ?_) fun f hf => ?_
  · exact (h.named x j).trans (or_iff_left (by rintro ⟨⟩)).symm
  · exact iff_of_false (h.ne_new hf) (by rintro ⟨_, -, ⟨⟩⟩)

/-- The label of a name is handed out for a label of a function's own. -/
theorem Kept.namedLabel {b : Assembly} (h : w.Kept last b.lastLabel b.named) (x : String) :
    Kept (w ++ [((b.namedLabel x).1, some x)]) (last + 1) (b.namedLabel x).2.lastLabel
      (b.namedLabel x).2.named := by
  rw [Assembly.namedLabel]
  -- Either the name is new or it has a label.
  rcases hx : b.named.lookup x with _ | id
  · -- The name is new, and so is its label.
    have hnone : ∀ j, (j, some x) ∉ w := fun j hj => by
      rw [(h.named x j).mpr hj] at hx
      exact absurd hx (by rintro ⟨⟩)
    refine h.concat (Nat.le_succ _) (Nat.le_refl _) (fun y j => ?_) fun f hf => ?_
    · show List.lookup y ((x, b.lastLabel + 1) :: b.named) = some j ↔
        (j, some y) ∈ w ∨ (j, some y) = (b.lastLabel + 1, some x)
      rw [List.lookup_cons]
      by_cases hy : y = x
      · subst hy
        simp only [beq_self_eq_true, Option.some.injEq, Prod.mk.injEq, and_true]
        exact ⟨fun hj => .inr hj.symm, fun hj => (hj.resolve_left (hnone j)).symm⟩
      -- Other names are as before.
      · simp only [beq_eq_false_iff_ne.mpr hy, Prod.mk.injEq, Option.some.injEq, hy, and_false,
          or_false]
        exact h.named y j
    · refine iff_of_false (h.ne_new hf) ?_
      rintro ⟨_, hf', ⟨⟩⟩
      exact hnone f.1 (by rwa [← hf'])
  · -- The name is known, and its label is in the ledger already.
    have hid := (h.named x id).mp hx
    refine h.concat (Nat.le_refl _) (h.bound _ hid) (fun y j => ?_) fun f hf => ⟨fun hj => ?_, ?_⟩
    · refine (h.named y j).trans (or_iff_left_of_imp fun hj => ?_).symm
      rwa [hj]
    · rcases List.getElem?_of_mem hf with ⟨n, hn⟩
      rcases List.getElem?_of_mem hid with ⟨m, hm⟩
      -- An entry with this label has this name.
      by_cases hnm : n = m
      · rw [hnm, hm] at hn
        obtain rfl := Option.some.inj hn
        exact ⟨x, rfl, rfl⟩
      · exact (h.faithful.eq_iff hn hm hnm).mp hj
    · rintro ⟨_, hf', ⟨⟩⟩
      have hlookup := (h.named x f.1).mpr (by rwa [← hf'])
      exact Option.some.inj (hlookup.symm.trans hx)

/-- If no label is marked twice in the run without names, then one is in the other run
    exactly if two functions share a name. -/
theorem Faithful.nodup_iff (hw : w.Faithful) : ∀ {labels labels' : List Nat},
    List.Forall₂ (fun i j => ∃ name, w.Sends i j name) labels labels' → labels.Nodup →
      (labels'.Nodup ↔ (labels.filterMap w.name?).Nodup)
  | [], _, .nil, _ => iff_of_true List.nodup_nil List.nodup_nil
  -- The first label is compared with all others by way of the names.
  | i :: labels, j :: labels', .cons ⟨name, hij⟩ h, hnodup => by
      rcases List.nodup_cons.mp hnodup with ⟨hi, hrest⟩
      have ih := hw.nodup_iff h hrest
      have hmem : j ∈ labels' ↔ ∃ i' ∈ labels, ∃ x, name = some x ∧ w.name? i' = some x := by
        constructor
        -- Two labels are equal only where the names are.
        · intro hj
          rcases exists_mem_of_forall₂ (List.Forall₂.flip h) hj with ⟨i', hi', name', h'⟩
          have hne : i ≠ i' := fun hc => hi (hc ▸ hi')
          rcases (hw.eq_iff hij h' hne).mp rfl with ⟨x, hx, hx'⟩
          exact ⟨i', hi', x, hx, h'.name?.trans hx'⟩
        · rintro ⟨i', hi', x, hx, hx'⟩
          rcases exists_mem_of_forall₂ h hi' with ⟨j', hj', name', h'⟩
          have hne : i ≠ i' := fun hc => hi (hc ▸ hi')
          rw [(hw.eq_iff hij h' hne).mpr ⟨x, hx, h'.name?.symm.trans hx'⟩]
          exact hj'
      -- Without a name it is new on both sides.
      cases name with
      | none =>
          rw [List.filterMap_cons_none hij.name?, List.nodup_cons, hmem, ← ih]
          exact and_iff_right (by rintro ⟨_, _, _, ⟨⟩, _⟩)
      | some x =>
          rw [List.filterMap_cons_some hij.name?, List.nodup_cons, List.nodup_cons, hmem, ih,
            List.mem_filterMap]
          refine and_congr_left fun _ =>
            not_congr (exists_congr fun i' => and_congr_right fun _ => ?_)
          constructor
          · rintro ⟨_, ⟨⟩, hx⟩
            exact hx
          · exact fun hx => ⟨x, rfl, hx⟩

end Growing

end Ledger

/-- An item that is written without names, and the one that is written with names in its
    place. -/
inductive Item.Relabelled (w : Ledger) : Item → Item → Prop
  | label {i j : Nat} {name : Option String} (h : w.Sends i j name) :
      Relabelled w (.label i) (.label j)
  | reference {i j : Nat} {name : Option String} (h : w.Sends i j name) :
      Relabelled w (.reference (.label i)) (.reference (.label j))
  | plain {i : Item} (h : i.Plain) : Relabelled w i i

/-- A relabelled item is relabelled by a longer ledger. -/
theorem Item.Relabelled.mono {w w' : Ledger} {i j : Item} (h : i.Relabelled w j)
    (hle : w <+: w') : i.Relabelled w' j := by
  cases h with
  | label h => exact .label (h.mono hle)
  | reference h => exact .reference (h.mono hle)
  | plain h => exact .plain h

theorem Item.Plain.label? {i : Item} (h : i.Plain) : i.label? = none := by
  cases i with
  | label _ => exact absurd h id
  | _ => rfl

namespace Ledger

/-- Two texts differ in labels only, and the entries of functions that are marked in them
    are those of functions with some names. -/
structure Covers (w : Ledger) (names : List String) (items items' : List Item) : Prop where
  texts : List.Forall₂ (Item.Relabelled w) items items'
  names : ((definedLabels items).filterMap w.name?).Perm names

/-- The labels of declarations are sent to each other. -/
def Labels (w : Ledger) (name : Declaration → Option String) :
    List (Declaration × Nat) → List (Declaration × Nat) → Prop :=
  List.Forall₂ fun e f => f.1 = e.1 ∧ w.Sends e.2 f.2 (name e.1)

section Covering

variable {w w' : Ledger} {names : List String} {items items' : List Item}
  {name : Declaration → Option String} {labels labels' : List (Declaration × Nat)}

theorem Covers.nil : w.Covers [] [] [] := ⟨.nil, .refl _⟩

theorem Covers.perm {names' : List String} (h : w.Covers names items items')
    (hperm : names.Perm names') : w.Covers names' items items' :=
  ⟨h.texts, h.names.trans hperm⟩

/-- What a ledger covers is covered by a longer one. -/
theorem Covers.mono (h : w.Covers names items items') (hle : w <+: w') :
    w'.Covers names items items' := by
  refine ⟨h.texts.imp fun _ _ hij => hij.mono hle, ?_⟩
  rw [List.filterMap_congr fun i hi => ?_]
  · exact h.names
  · rcases exists_mem_of_forall₂ h.texts (mem_definedLabels.mp hi) with
      ⟨_, -, ⟨hsends⟩ | _ | hplain⟩
    · rw [(hsends.mono hle).name?, hsends.name?]
    · exact absurd hplain id

/-- A plain item on both sides. -/
theorem Covers.plain (h : w.Covers names items items') {i : Item} (hi : i.Plain) :
    w.Covers names (items ++ [i]) (items' ++ [i]) := by
  refine ⟨List.rel_append h.texts (.cons (.plain hi) .nil), ?_⟩
  rw [definedLabels, List.filterMap_append, List.filterMap_cons_none hi.label?,
    List.filterMap_nil, List.append_nil]
  exact h.names

/-- References to labels that the ledger sends to each other. -/
theorem Covers.reference (h : w.Covers names items items') {i j : Nat} {x : Option String}
    (hi : w.Sends i j x) :
    w.Covers names (items ++ [.reference (.label i)]) (items' ++ [.reference (.label j)]) := by
  refine ⟨List.rel_append h.texts (.cons (.reference hi) .nil), ?_⟩
  rw [definedLabels_append]
  simpa only [definedLabels, List.filterMap_cons, List.filterMap_nil, Item.label?,
    List.append_nil] using h.names

/-- Marking the entry of a function counts its name. -/
theorem Covers.label (h : w.Covers names items items') {i j : Nat} {x : Option String}
    (hi : w.Sends i j x) :
    w.Covers (names ++ x.toList) (items ++ [.label i]) (items' ++ [.label j]) := by
  refine ⟨List.rel_append h.texts (.cons (.label hi) .nil), ?_⟩
  have hlast : (definedLabels [Item.label i]).filterMap w.name? = x.toList := by
    simp only [definedLabels, List.filterMap_cons, List.filterMap_nil, Item.label?, hi.name?]
    cases x <;> rfl
  rw [definedLabels_append, List.filterMap_append, hlast]
  exact h.names.append_right _

theorem Labels.mono (h : w.Labels name labels labels') (hle : w <+: w') :
    w'.Labels name labels labels' := by
  refine List.Forall₂.imp (fun _ _ hef => ?_) h
  exact ⟨hef.1, hef.2.mono hle⟩

theorem Labels.cons (h : w.Labels name labels labels') {d : Declaration} {i j : Nat}
    (hi : w.Sends i j (name d)) : w.Labels name ((d, i) :: labels) ((d, j) :: labels') :=
  List.Forall₂.cons ⟨rfl, hi⟩ h

/-- A declaration has a label in both runs, or in neither. -/
theorem Labels.lookup (d : Declaration) : ∀ {labels labels' : List (Declaration × Nat)},
    w.Labels name labels labels' →
      Option.Rel (fun i j => w.Sends i j (name d)) (labels.lookup d) (labels'.lookup d)
  | [], _, List.Forall₂.nil => .none
  | (_, i) :: labels, (d', j) :: labels', List.Forall₂.cons ⟨hd, hi⟩ h => by
      simp only at hd
      subst hd
      rw [List.lookup_cons, List.lookup_cons]
      by_cases hd : d = d'
      · subst hd
        simp only [beq_self_eq_true]
        exact .some hi
      · simp only [beq_eq_false_iff_ne.mpr hd]
        exact Labels.lookup d h

end Covering

end Ledger

end YulToolchain
