import YulToolchain.Proofs.Bytecode.Coded
import YulToolchain.Proofs.CodeGen.Accounts

/-!
# Generated Expressions

The code that is generated for an expression is code of the expression.

While code is generated, the label of the entry of a function may not be known yet, and
an access that reaches too deep puts a placeholder into the code. Both are settled only
at the end. So what is said of the items of a piece of code is said under the condition
that the state behind it leads to an end without such accesses, where entries have certain
labels (`GenState.Towards`), and the condition is handed back to the state before.

## Main definitions

* `GenState.Towards`: No access reached too deep, and entries have their final labels.
* `Appends`: Items are added, and nothing else happens.
* `Emits`: Items are added, and some variables keep their slots.
* `Site.At`: A site describes the state of generation at a place.

## Theorems

* `Gen.copyVariable_emits`, `Gen.assignVariables_emits`: Accesses to variables.
* `Expr.generate_coded`: The items of an expression are code of the expression.
-/

namespace YulToolchain

/-- A state leads to an end at which no access reached too deep and entries have some
    labels. -/
structure GenState.Towards (entry : Declaration → Nat) (s : GenState Assembly) : Prop where
  tooDeep : s.tooDeep = []
  entries : ∀ key id, s.entries.lookup key = some id → entry key = id

/-- Items are added and the height changes by a difference, while some variables keep
    their slots. -/
structure Emits (entry : Declaration → Nat) (kept : Declaration → Prop) (difference : Int)
    (piece : List Item) (s t : GenState Assembly) : Prop where
  height : t.height = s.height + difference
  slots : ∀ key, kept key → t.slots.lookup key = s.slots.lookup key
  items : t.target.items.toList = s.target.items.toList ++ piece
  towards : t.Towards entry → s.Towards entry

/-- Items are added and the height changes by a difference, and nothing else changes. -/
structure Appends (difference : Int) (piece : List Item) (s t : GenState Assembly) : Prop where
  height : t.height = s.height + difference
  slots : t.slots = s.slots
  items : t.target.items.toList = s.target.items.toList ++ piece
  entries : t.entries = s.entries
  tooDeep : t.tooDeep = s.tooDeep

/-- The variables of scopes below a number. -/
def Outside (next : Nat) (key : Declaration) : Prop := key.scope < next

/-- A loop as code generation keeps it, for frames that start at a height. -/
def LoopSite.targets (base : Nat) (l : LoopSite) : LoopTargets := ⟨l.exit, l.next, l.height + base⟩

/-- A site describes the state of generation at a place, where frames start at a
    height. -/
structure Site.At (c : GenContext) (p : Place) (next : Nat) (v : Sight)
    (entry : Declaration → Nat) (base : Nat) (k : Site) (s : GenState Assembly) : Prop where
  tells : c.scopes.Tells p.scope next v
  functions : k.functions.functions = v.functions
  entries : ∀ x f id key symbol, k.functions.find? x = some (f, id) →
    c.scopes.lookup p.scope x = some (key, symbol) → entry key = id
  height : s.height = k.height + base
  slots : ∀ x ∈ v.visible, ∃ slot, k.slots.lookup x = some slot ∧
    s.slot? c.scopes p.scope x = some ((slot : Int) + base)
  loop : p.loop = k.loop.map (LoopSite.targets base)
  below : ∀ l, k.loop = some l → l.height ≤ k.height

section Emission

variable {entry : Declaration → Nat} {kept kept' : Declaration → Prop} {δ ε : Int}
  {piece more : List Item} {s t u : GenState Assembly}

theorem Emits.refl (s : GenState Assembly) : Emits entry kept 0 [] s s :=
  ⟨(add_zero _).symm, fun _ _ => rfl, (List.append_nil _).symm, id⟩

/-- What is emitted one after the other. -/
theorem Emits.trans (h : Emits entry kept δ piece s t) (h' : Emits entry kept ε more t u) :
    Emits entry kept (δ + ε) (piece ++ more) s u :=
  ⟨by rw [h'.height, h.height, add_assoc], fun key hkey =>
    (h'.slots key hkey).trans (h.slots key hkey),
    by rw [h'.items, h.items, List.append_assoc], fun hu => h.towards (h'.towards hu)⟩

theorem Emits.cast (h : Emits entry kept δ piece s t) (hδ : δ = ε) (hpiece : piece = more) :
    Emits entry kept ε more s t := hδ ▸ hpiece ▸ h

theorem Emits.mono (h : Emits entry kept δ piece s t) (hkept : ∀ key, kept' key → kept key) :
    Emits entry kept' δ piece s t :=
  ⟨h.height, fun key hkey => h.slots key (hkept key hkey), h.items, h.towards⟩

theorem Appends.refl (s : GenState Assembly) : Appends 0 [] s s :=
  ⟨(add_zero _).symm, rfl, (List.append_nil _).symm, rfl, rfl⟩

/-- What is appended one after the other. -/
theorem Appends.trans (h : Appends δ piece s t) (h' : Appends ε more t u) :
    Appends (δ + ε) (piece ++ more) s u :=
  ⟨by rw [h'.height, h.height, add_assoc], h'.slots.trans h.slots,
    by rw [h'.items, h.items, List.append_assoc], h'.entries.trans h.entries,
    h'.tooDeep.trans h.tooDeep⟩

theorem Appends.cast (h : Appends δ piece s t) (hδ : δ = ε) (hpiece : piece = more) :
    Appends ε more s t := hδ ▸ hpiece ▸ h

theorem Appends.emits (h : Appends δ piece s t) (entry : Declaration → Nat)
    (kept : Declaration → Prop) : Emits entry kept δ piece s t :=
  ⟨h.height, fun _ _ => by rw [h.slots], h.items, fun ht =>
    ⟨h.tooDeep ▸ ht.tooDeep, h.entries ▸ ht.entries⟩⟩

theorem Emits.earlier {next next' : Nat} (h : Emits entry (Outside next') δ piece s t)
    (hle : next ≤ next') : Emits entry (Outside next) δ piece s t :=
  h.mono fun _ hkey => Nat.lt_of_lt_of_le hkey hle

end Emission

section Places

variable {c : GenContext} {p : Place} {next : Nat} {v : Sight} {entry : Declaration → Nat}
  {base : Nat} {k : Site} {s t : GenState Assembly}

/-- Variables that keep their slots are found where they were. -/
theorem Site.At.slot?_kept {kept : Declaration → Prop} {δ : Int} {piece : List Item}
    (h : k.At c p next v entry base s) (ht : Emits entry kept δ piece s t) {x : String}
    (hx : x ∈ v.visible) (hkept : ∀ n, n < next → kept ⟨n, x⟩) :
    t.slot? c.scopes p.scope x = s.slot? c.scopes p.scope x := by
  rcases h.tells.seen x hx with ⟨n, type, hl, hn⟩
  rw [GenState.slot?, GenState.slot?, hl, Option.bind_some, Option.bind_some,
    ht.slots _ (hkept n hn)]

/-- Values on top of the frame do not matter otherwise. -/
theorem Site.At.push {n : Nat} {piece : List Item} (h : k.At c p next v entry base s)
    (ht : Emits entry (Outside next) n piece s t) : (k.push n).At c p next v entry base t := by
  refine ⟨h.tells, h.functions, h.entries, ?_, fun x hx => ?_, h.loop, fun l hl => ?_⟩
  · rw [ht.height, h.height, Site.push]
    push_cast
    ring
  · rw [h.slot?_kept ht hx fun m hm => hm]
    exact h.slots x hx
  · exact Nat.le_trans (h.below l hl) (Nat.le_add_right _ _)

theorem Site.At.same {piece : List Item} (h : k.At c p next v entry base s)
    (ht : Emits entry (Outside next) 0 piece s t) : k.At c p next v entry base t :=
  h.push (n := 0) ht

theorem Site.At.later {next' : Nat} (h : k.At c p next v entry base s) (hle : next ≤ next') :
    k.At c p next' v entry base s :=
  ⟨h.tells.later hle, h.functions, h.entries, h.height, h.slots, h.loop, h.below⟩

/-- A function in sight has an entry. -/
theorem Site.At.find? (h : k.At c p next v entry base s) {x : String} {f : FunctionDef}
    (hf : v.functions.find? x = some f) : ∃ id, k.functions.find? x = some (f, id) := by
  rw [← h.functions, EntryTable.find?_functions] at hf
  rcases Option.map_eq_some_iff.mp hf with ⟨⟨f', id⟩, hfound, rfl⟩
  exact ⟨id, hfound⟩

end Places

namespace Gen

variable {entry : Declaration → Nat} {kept : Declaration → Prop} {c : GenContext} {p : Place}
  {s : GenState Assembly}

/-- A computation that does something ensures it. -/
theorem Does.ensures {A α : Type} {m : Gen A α} {s : GenState A} {P : α → GenState A → Prop}
    (h : Does m s P) : Ensures m s P := by
  rcases h with ⟨a, t, hm, h⟩
  intro b u hu
  rw [hm] at hu
  cases hu
  exact h

theorem Ensures.and {A α : Type} {m : Gen A α} {s : GenState A} {P Q : α → GenState A → Prop}
    (h : Ensures m s P) (h' : Ensures m s Q) : Ensures m s fun a t => P a t ∧ Q a t :=
  fun a t hm => ⟨h a t hm, h' a t hm⟩

section Primitives

/-- Setting the height emits nothing. -/
theorem setHeight_appends (h : Int) :
    Ensures (setHeight h) s fun _ t => Appends (h - s.height) [] s t := by
  intro _ t ht
  cases ht
  refine ⟨?_, rfl, (List.append_nil _).symm, rfl, rfl⟩
  show h = s.height + (h - s.height)
  ring

theorem setLine_appends (line : Nat) : Ensures (setLine line) s fun _ => Appends 0 [] s := by
  intro _ t ht
  cases ht
  exact ⟨(add_zero _).symm, rfl, (List.append_nil _).symm, rfl, rfl⟩

theorem emit_appends (i : Item) : Ensures (emit i) s fun _ => Appends i.stackEffect [i] s := by
  intro _ t ht
  cases ht
  exact ⟨rfl, rfl, Array.toList_push, rfl, rfl⟩

theorem instruction_appends (op : Instruction) :
    Ensures (instruction op) s fun _ => Appends op.stackEffect [.instruction op] s :=
  emit_appends _

theorem label_appends (id : Nat) : Ensures (label id) s fun _ => Appends 0 [.label id] s :=
  emit_appends _

/-- An item is appended several times. -/
theorem emitTimes_appends (i : Item) : ∀ (n : Nat) {s : GenState Assembly},
    Ensures (emitTimes i n) s fun _ => Appends (n * i.stackEffect) (List.replicate n i) s
  | 0, s => Ensures.pure ((Appends.refl s).cast (by rw [Nat.cast_zero, zero_mul]) rfl)
  | n + 1, s => by
      refine (emit_appends i).bind fun _ t h₁ => ?_
      refine (emitTimes_appends i n).mono fun _ u h₂ => (h₁.trans h₂).cast ?_ rfl
      push_cast
      ring

theorem zeros_appends (n : Nat) : Ensures (zeros n) s fun _ => Appends n (Item.zeros n) s :=
  (emitTimes_appends _ n).mono fun _ _ h => h.cast (mul_one _) rfl

theorem pops_appends (n : Nat) : Ensures (pops n) s fun _ => Appends (-n) (Item.pops n) s :=
  (emitTimes_appends _ n).mono fun _ _ h => h.cast (Int.mul_neg_one _) rfl

/-- A list of instructions is appended. -/
theorem instructions_appends : ∀ (ops : List Instruction) {s : GenState Assembly},
    Ensures (ops.forM instruction) s fun _ =>
      Appends (ops.map Instruction.stackEffect).sum (ops.map .instruction) s
  | [], s => Ensures.pure (Appends.refl s)
  | op :: rest, s => by
      simp only [List.forM_eq_forM, List.forM_cons, List.map_cons, List.sum_cons]
      refine (instruction_appends op).bind fun _ t h₁ => ?_
      exact (instructions_appends rest).mono fun _ u h₂ => h₁.trans h₂

/-- A jump is appended, and the height set by what it leads to. -/
theorem jump_appends (difference : Int) : Ensures (jump difference) s fun _ =>
    Appends (difference - 1) [.instruction .jump] s := by
  have hsplit : (jump difference : Gen Assembly Unit)
      = (do emit (.instruction .jump); setHeight ((← height) + difference)) := rfl
  rw [hsplit]
  refine (emit_appends _).bind fun _ t h₁ => Ensures.height ?_
  refine (setHeight_appends _).mono fun _ u h₂ => (h₁.trans h₂).cast ?_ rfl
  show (0 - 1) + (t.height + difference - t.height) = difference - 1
  ring

/-- A jump to a label. -/
theorem jumpTo_appends (id : Nat) (difference : Int) : Ensures (jumpTo id difference) s fun _ =>
    Appends difference (Item.goTo id) s := by
  have hsplit : (jumpTo id difference : Gen Assembly Unit)
      = (do emit (.reference (.label id)); jump difference) := rfl
  rw [hsplit]
  refine (emit_appends _).bind fun _ t h₁ => ?_
  refine (jump_appends difference).mono fun _ u h₂ => (h₁.trans h₂).cast ?_ rfl
  show 1 + (difference - 1) = difference
  ring

/-- A conditional jump to a label. -/
theorem jumpToIf_appends (id : Nat) : Ensures (jumpToIf id) s fun _ =>
    Appends (-1) (Item.goToIf id) s := by
  have hsplit : (jumpToIf id : Gen Assembly Unit)
      = (do emit (.reference (.label id)); instruction .jumpi) := rfl
  rw [hsplit]
  exact (emit_appends _).bind fun _ t h₁ => (instruction_appends .jumpi).mono fun _ u h₂ =>
    (h₁.trans h₂).cast rfl rfl

theorem newLabel_appends : Ensures newLabel s fun _ => Appends 0 [] s := by
  intro _ t ht
  cases ht
  exact ⟨(add_zero _).symm, rfl, (List.append_nil _).symm, rfl, rfl⟩

/-- A named label costs nothing either. -/
theorem namedLabel_appends (name : String) :
    Ensures (namedLabel name) s fun _ => Appends 0 [] s := by
  intro _ t ht
  cases ht
  show Appends 0 [] s { s with target := (Assembly.namedLabel name s.target).2 }
  rw [Assembly.namedLabel]
  split
  · exact .refl s
  · exact ⟨(add_zero _).symm, rfl, (List.append_nil _).symm, rfl, rfl⟩

/-- The label of an entry is the final one. -/
theorem entryOf_emits (entry : Declaration → Nat) (kept : Declaration → Prop) (key : Declaration) :
    Ensures (entryOf c key) s fun id t =>
      Emits entry kept 0 [] s t ∧ (t.Towards entry → entry key = id) := by
  refine Ensures.get ?_
  -- Either the entry is known, or it is stored now.
  split
  · rename_i id hid
    exact Ensures.pure ⟨.refl s, fun ht => ht.entries key id hid⟩
  · rename_i hnone
    have hstore : ∀ (t : GenState Assembly) (id : Nat), Appends 0 [] s t →
        Ensures (do modify fun s => { s with entries := (key, id) :: s.entries }; pure id) t
          fun id' u => Emits entry kept 0 [] s u ∧ (u.Towards entry → entry key = id') := by
      intro t id ht id' u hu
      cases hu
      refine ⟨⟨ht.height, fun _ _ => by rw [ht.slots], ht.items,
        fun hu => ⟨ht.tooDeep ▸ hu.tooDeep, fun key' id' hkey' => ?_⟩⟩, fun hu => ?_⟩
      -- Entries that were there before stay.
      · refine hu.entries key' id' ?_
        have hne : key' ≠ key := by
          rintro rfl
          rw [hnone] at hkey'
          exact absurd hkey' (by rintro ⟨⟩)
        show ((key, id) :: t.entries).lookup key' = some id'
        rw [List.lookup_cons, beq_eq_false_iff_ne.mpr hne, ht.entries]
        exact hkey'
      -- The new entry is the one that is found.
      · refine hu.entries key id ?_
        show ((key, id) :: t.entries).lookup key = some id
        rw [List.lookup_cons, beq_self_eq_true]
    by_cases hnamed : c.namedLabels = true
    · rw [if_pos hnamed]
      exact (namedLabel_appends key.name).bind fun id t ht => hstore t id ht
    · rw [if_neg hnamed]
      exact newLabel_appends.bind fun id t ht => hstore t id ht

/-- The height is as expected, or the generator reports. -/
theorem expectHeight_ensures {A : Type} [Target A] {s : GenState A} {line : Nat} {expected : Int}
    {place : String} :
    Ensures (expectHeight line expected place) s fun _ t => t = s ∧ s.height = expected := by
  refine Ensures.height ?_
  split
  · exact Ensures.violation
  · rename_i h
    exact Ensures.pure ⟨rfl, not_not.mp h⟩

/-- A state behind a report leads nowhere. -/
theorem reportTooDeep_emits (entry : Declaration → Nat) (kept : Declaration → Prop) (p : Place)
    (name : String) (depth : Int) :
    Ensures (reportTooDeep p name depth) s fun _ t =>
      Emits entry kept 0 [.instruction .invalid] s t ∧ ¬t.Towards entry := by
  intro _ t ht
  cases ht
  have hnot : ∀ target, ¬GenState.Towards entry
      { s with target := target, tooDeep := ⟨p.function, name, depth⟩ :: s.tooDeep } :=
    fun target h => absurd h.tooDeep (List.cons_ne_nil _ _)
  exact ⟨⟨rfl, fun _ _ => rfl, Array.toList_push, fun h => absurd h (hnot _)⟩, hnot _⟩

end Primitives

section Variables

variable {line : Nat} {x : String} {slot : Int}

/-- The distance of a variable is that of its slot, unless it is too deep. -/
theorem distance?_emits (entry : Declaration → Nat) (kept : Declaration → Prop) {least limit : Int}
    (hslot : s.slot? c.scopes p.scope x = some slot) :
    Ensures (distance? c p line x least limit) s fun r t => match r with
      | none => (∃ piece, Emits entry kept 0 piece s t) ∧ ¬t.Towards entry
      | some distance => t = s ∧ distance = s.height - slot ∧ least ≤ distance ∧
          distance ≤ limit := by
  -- The variable is found with its slot, and the distance is either in reach or reported.
  rcases Option.bind_eq_some_iff.mp hslot with ⟨⟨key, symbol⟩, hl, hkey⟩
  refine (lookup_ensures hl).bind ?_
  rintro _ _ ⟨rfl, rfl⟩
  refine Ensures.get ?_
  simp only [hkey]
  refine Ensures.height ?_
  split
  · exact Ensures.violation
  · rename_i hleast
    split
    · exact (reportTooDeep_emits entry kept p x _).bind fun _ t ht => Ensures.pure ⟨⟨_, ht.1⟩, ht.2⟩
    · rename_i hlimit
      exact Ensures.pure ⟨rfl, rfl, not_lt.mp hleast, not_lt.mp hlimit⟩

/-- A copy of a variable is an instruction that reaches its slot. -/
theorem copyVariable_emits (entry : Declaration → Nat) (kept : Declaration → Prop)
    (hslot : s.slot? c.scopes p.scope x = some slot) :
    Ensures (copyVariable c p line x) s fun _ t => ∃ piece, Emits entry kept 1 piece s t ∧
      (t.Towards entry → ∃ depth : Fin 16, slot + depth + 1 = s.height ∧
        piece = [.instruction (.dup depth)]) := by
  refine (distance?_emits entry kept hslot).bind fun r t ht => ?_
  -- Too deep: zeros take the place of the variable, and no target is reached with that report.
  cases r with
  | none =>
      rcases ht with ⟨⟨piece, ht⟩, hnot⟩
      refine (zeros_appends 1).mono fun _ u hu =>
        ⟨_, (ht.trans (hu.emits entry kept)).cast (zero_add _) rfl, fun hc => ?_⟩
      exact absurd ((hu.emits entry kept).towards hc) hnot
  -- In reach: the distance is the depth of an instruction.
  | some distance =>
      rcases ht with ⟨ht, rfl, hleast, hlimit⟩
      subst t
      refine (Ensures.orStop (P := fun op u => u = s ∧
        Instruction.dupOf (s.height - slot).toNat = .ok op) fun op hop => ⟨rfl, hop⟩).bind ?_
      rintro op u ⟨hu, hop⟩
      subst u
      rw [Instruction.dupOf] at hop
      split at hop
      · rename_i hrange
        cases hop
        refine (instruction_appends _).mono fun _ u hu =>
          ⟨_, (hu.emits entry kept).cast ?_ rfl, fun _ =>
          ⟨⟨(s.height - slot).toNat - 1, by omega⟩, ?_, rfl⟩⟩
        · simp only [Instruction.stackEffect, Instruction.returns, Instruction.args,
            Instruction.info]
          push_cast
          ring
        · simp only
          omega
      · exact absurd hop (by rintro ⟨⟩)

/-- An assignment is an exchange with the slot of the variable. -/
theorem assignVariable_emits (entry : Declaration → Nat) (kept : Declaration → Prop)
    (hslot : s.slot? c.scopes p.scope x = some slot) :
    Ensures (assignVariable c p line x) s fun _ t => ∃ piece, Emits entry kept (-1) piece s t ∧
      (t.Towards entry → ∃ depth : Fin 16, slot + depth + 2 = s.height ∧
        piece = [.instruction (.swap depth), .instruction .pop]) := by
  refine (distance?_emits entry kept hslot).bind fun r t ht => ?_
  -- Too deep: the value is dropped instead.
  cases r with
  | none =>
      rcases ht with ⟨⟨piece, ht⟩, hnot⟩
      refine (pops_appends 1).mono fun _ u hu =>
        ⟨_, (ht.trans (hu.emits entry kept)).cast rfl rfl, fun hc => ?_⟩
      exact absurd ((hu.emits entry kept).towards hc) hnot
  -- In reach: a swap and a pop.
  | some distance =>
      rcases ht with ⟨ht, rfl, hleast, hlimit⟩
      subst t
      refine (Ensures.orStop (P := fun op u => u = s ∧
        Instruction.swapOf ((s.height - slot).toNat - 1) = .ok op) fun op hop => ⟨rfl, hop⟩).bind ?_
      rintro op u ⟨hu, hop⟩
      subst u
      rw [Instruction.swapOf] at hop
      split at hop
      · rename_i hrange
        cases hop
        refine (instruction_appends _).bind fun _ u hu => ?_
        refine (pops_appends 1).mono fun _ w hw =>
          ⟨_, ((hu.trans hw).emits entry kept).cast ?_ rfl, fun _ =>
          ⟨⟨(s.height - slot).toNat - 1 - 1, by omega⟩, ?_, rfl⟩⟩
        · simp only [Instruction.stackEffect, Instruction.returns, Instruction.args,
            Instruction.info]
          push_cast
          ring
        · simp only
          omega
      · exact absurd hop (by rintro ⟨⟩)

end Variables

/-- Assignments are exchanges with the slots of the variables, one by one. -/
theorem assignVariables_emits {next base : Nat} {v : Sight} : ∀ {targets : List Identifier}
    {k : Site} {s : GenState Assembly}, (∀ x ∈ targets, x.name ∈ v.visible) →
      (k.push targets.length).At c p next v entry base s →
      Ensures (assignVariables c p targets) s fun _ t => ∃ piece,
        Emits entry (Outside next) (-targets.length) piece s t ∧
        (t.Towards entry → k.CodedAssign targets piece)
  | [], k, s, _, _ => Ensures.pure ⟨[], (Emits.refl s).cast rfl rfl, fun _ => rfl⟩
  -- The last target is assigned first, since its value is on top.
  | x :: rest, k, s, hvisible, hat => by
      have hpush : (k.push (x :: rest).length) = (k.push 1).push rest.length := by
        simp only [Site.push, List.length_cons, Site.mk.injEq, true_and, and_true]
        omega
      rw [assignVariables]
      refine (assignVariables_emits (fun y hy => hvisible y (List.mem_cons_of_mem _ hy))
        (hpush ▸ hat)).bind ?_
      rintro _ t ⟨later, h₁, hlater⟩
      rcases hat.slots x.name (hvisible x List.mem_cons_self) with ⟨slot, hslot, hgen⟩
      -- The slot is still where it was, since only scopes ahead were changed.
      rw [← hat.slot?_kept h₁ (hvisible x List.mem_cons_self) fun m hm => hm] at hgen
      refine (assignVariable_emits entry (Outside next) hgen).mono ?_
      rintro _ u ⟨move, h₂, hmove⟩
      refine ⟨later ++ move, (h₁.trans h₂).cast ?_ rfl, fun hu => ?_⟩
      · rw [List.length_cons]
        push_cast
        ring
      -- The depth is that of the slot, with the values of the earlier targets above it.
      · rcases hmove hu with ⟨depth, hdepth, rfl⟩
        refine ⟨later, slot, depth, hlater (h₂.towards hu), hslot, ?_, rfl⟩
        rw [h₁.height, hat.height, Site.push, List.length_cons] at hdepth
        push_cast at hdepth
        omega

/-- A literal appends its word. -/
theorem literal_appends {l : Literal} {w : Word} (h : l.value = .ok w) :
    Ensures (Gen.literal l) s fun _ => Appends 1 [.constant w] s := by
  rw [Gen.literal, h]
  exact (setLine_appends l.line).bind fun _ t h₁ => (emit_appends _).mono fun _ u h₂ =>
    (h₁.trans h₂).cast rfl rfl

/-- The name in a query is read without a change. -/
theorem objectName_ensures {A : Type} [Target A] {s : GenState A} {line : Nat} {function : String}
    {args : List Expr} : Ensures (objectName line function args) s fun _ t => t = s := by
  unfold Gen.objectName
  split
  · split
    · refine (Ensures.orStop (P := fun _ t => t = s) fun _ _ => rfl).bind ?_
      rintro bytes _ rfl
      exact Ensures.pure rfl
    · exact Ensures.violation
  · exact Ensures.violation

/-- A query appends an item that pushes one word. -/
theorem objectQuery_appends {line : Nat} {function : String} {args : List Expr} (own : Item)
    {attachment : Nat → Reference} (hown : own.Pushes) :
    Ensures (objectQuery c line function args own attachment) s fun _ t => ∃ i : Item,
      i.Pushes ∧ Appends 1 [i] s t := by
  refine objectName_ensures.bind ?_
  rintro name _ rfl
  split
  · refine (emit_appends own).mono fun _ t ht => ⟨own, hown, ht.cast ?_ rfl⟩
    cases own with
    | constant _ => rfl
    | reference _ => rfl
    | _ => exact hown.elim
  · split
    · rename_i id _
      exact (emit_appends _).mono fun _ t ht => ⟨.reference (attachment id), trivial, ht⟩
    · exact Ensures.violation

end Gen

open Gen

section Expressions

variable {c : GenContext} {p : Place} {next : Nat} {v : Sight} {entry : Declaration → Nat}
  {base : Nat}

mutual

/-- The items of an expression are code of the expression. -/
theorem Expr.generate_coded : ∀ (e : Expr) {n : Nat} {k : Site} {s : GenState Assembly},
    e.Yields c.dialect v n → k.At c p next v entry base s →
      Ensures (e.generate c p) s fun _ t => ∃ piece, Emits entry (Outside next) n piece s t ∧
        (t.Towards entry → e.Coded c.dialect k n piece)
  -- One case for each kind of expression; those with arguments append their code first.
  | .literal l, n, k, s, hy, _ => by
      rw [Expr.Yields] at hy
      rcases hy with ⟨⟨w, hw⟩, rfl⟩
      rw [Expr.generate]
      refine (literal_appends hw).mono fun _ t ht => ⟨_, ht.emits _ _, fun _ => ?_⟩
      rw [Expr.Coded]
      exact ⟨w, hw, rfl, rfl⟩
  | .ident line x, n, k, s, hy, hat => by
      rw [Expr.Yields] at hy
      rcases hy with ⟨hx, rfl⟩
      rcases hat.tells.seen x hx with ⟨m, type, hl, _⟩
      rcases hat.slots x hx with ⟨slot, hslot, hgen⟩
      rw [Expr.generate]
      refine (lookup_ensures hl).bind ?_
      rintro _ _ ⟨rfl, rfl⟩
      refine (copyVariable_emits entry (Outside next) hgen).mono fun _ t ⟨piece, ht, hpiece⟩ =>
        -- Where no depth was reported, the variable was in reach.
        ⟨piece, ht, fun hc => ?_⟩
      rcases hpiece hc with ⟨depth, hdepth, rfl⟩
      rw [Expr.Coded]
      refine ⟨slot, depth, hslot, ?_, rfl, rfl⟩
      rw [hat.height] at hdepth
      omega
  | .instr line op args, n, k, s, hy, hat => by
      rw [Expr.Yields] at hy
      rcases hy with ⟨hop, hlen, rfl, hones⟩
      rw [Expr.generate]
      refine (Expr.generateArgs_coded args hones hat).bind fun _ t ⟨code, h₁, hcode⟩ => ?_
      refine (setLine_appends line).bind fun _ u h₂ => ?_
      refine (instruction_appends op).mono fun _ w h₃ => ?_
      have h₂₃ := (h₂.trans h₃).emits entry (Outside next)
      refine ⟨_, (h₁.trans h₂₃).cast ?_ rfl, fun hc => ?_⟩
      · rw [Instruction.stackEffect, hlen]
        ring
      · rw [Expr.Coded]
        exact ⟨code, hcode (h₂₃.towards hc), hop, hlen, rfl, rfl⟩
  | .call line name args, n, k, s, hy, hat => by
      rw [Expr.Yields] at hy
      rw [Expr.generate]
      simp only [Expr.Coded]
      rcases hb : c.dialect.builtin? name with _ | b
      · -- A function of the program.
        simp only [hb] at hy ⊢
        rcases hy with ⟨f, hf, hlen, rfl, hones⟩
        rcases hat.tells.called name f hf with ⟨m, hl, _⟩
        rcases hat.find? hf with ⟨id, hid⟩
        refine (lookup_ensures hl).bind ?_
        rintro _ _ ⟨rfl, rfl⟩
        refine newLabel_appends.bind fun back s₁ h₁ => ?_
        refine (emit_appends (.reference (.label back))).bind fun _ s₂ h₂ => ?_
        -- The label to return to is pushed below the arguments.
        have h₁₂ := (h₁.trans h₂).emits entry (Outside next)
        refine (Expr.generateArgs_coded args hones (hat.push (n := 1) h₁₂)).bind
          fun _ s₃ ⟨code, h₃, hcode⟩ => ?_
        refine (entryOf_emits entry (Outside next) _).bind fun id' s₄ ⟨h₄, hid'⟩ => ?_
        refine (setLine_appends line).bind fun _ s₅ h₅ => ?_
        refine (jumpTo_appends id' _).bind fun _ s₆ h₆ => ?_
        refine (label_appends back).mono fun _ s₇ h₇ => ?_
        have h₅₇ := ((h₅.trans h₆).trans h₇).emits entry (Outside next)
        refine ⟨_, (((h₁₂.trans h₃).trans h₄).trans h₅₇).cast ?_ rfl, fun hc => ?_⟩
        · simp only [Item.stackEffect, hlen, List.length_map]
          ring
        -- The entry is the one the callee was given, whenever that is decided.
        · have h₄t := h₅₇.towards hc
          have hentry := (hat.entries name f id _ _ hid hl).symm.trans (hid' h₄t)
          refine ⟨f, id, back, code, hid, hlen, rfl, hcode (h₄.towards h₄t), ?_⟩
          simp only [hentry, List.append_nil, List.cons_append, List.nil_append, List.append_assoc]
      · simp only [hb] at hy ⊢
        rcases hy with ⟨hlen, rfl, hargs⟩
        -- One case for each way in which a builtin is compiled.
        rcases hcode : b.code with op | _ | _ | _ | _
        · -- An instruction.
          obtain ⟨hop, rfl⟩ := Dialect.builtin?_instruction hb hcode
          simp only [Builtin.ofInstruction] at hlen hargs ⊢
          refine (Expr.generateArgs_coded args hargs hat).bind fun _ t ⟨code, h₁, hcoded⟩ => ?_
          refine (instruction_appends op).mono fun _ u h₂ => ?_
          have h₂ := h₂.emits entry (Outside next)
          refine ⟨_, (h₁.trans h₂).cast ?_ rfl, fun hc =>
            ⟨code, hcoded (h₂.towards hc), hop, hlen, rfl, rfl⟩⟩
          rw [Instruction.stackEffect, hlen]
          ring
        · obtain ⟨-, hr, -⟩ := Dialect.builtin?_query hb (.inl hcode)
          rw [hr]
          exact (objectQuery_appends (.reference .ownSize) trivial).mono
            fun _ t ⟨i, hi, ht⟩ => ⟨_, ht.emits _ _, fun _ => ⟨rfl, i, hi, rfl⟩⟩
        · obtain ⟨-, hr, -⟩ := Dialect.builtin?_query hb (.inr hcode)
          rw [hr]
          exact (objectQuery_appends (.constant 0) trivial).mono
            fun _ t ⟨i, hi, ht⟩ => ⟨_, ht.emits _ _, fun _ => ⟨rfl, i, hi, rfl⟩⟩
        · obtain rfl := Dialect.builtin?_dataCopy hb hcode
          simp only [Builtin.dataCopy] at hlen hargs ⊢
          refine (Expr.generateArgs_coded args hargs hat).bind fun _ t ⟨code, h₁, hcoded⟩ => ?_
          refine (instruction_appends .codecopy).mono fun _ u h₂ => ?_
          have h₂ := h₂.emits entry (Outside next)
          refine ⟨_, (h₁.trans h₂).cast ?_ rfl, fun hc =>
            ⟨code, hcoded (h₂.towards hc), rfl, hlen, rfl, rfl⟩⟩
          rw [hlen]
          rfl
        · -- Nothing but the effect on the stack.
          by_cases htext : b.literalArguments = true
          · simp only [if_pos htext]
            exact (zeros_appends b.returns).mono fun _ t ht =>
              ⟨_, ht.emits _ _, fun _ => ⟨trivial, rfl⟩⟩
          · rw [if_neg htext] at hargs
            simp only [if_neg htext]
            refine (Expr.generateArgs_coded args hargs hat).bind fun _ t ⟨code, h₁, hcoded⟩ => ?_
            refine (pops_appends args.length).bind fun _ u h₂ => ?_
            refine (zeros_appends b.returns).mono fun _ w h₃ => ?_
            have h₂₃ := (h₂.trans h₃).emits entry (Outside next)
            refine ⟨_, (h₁.trans h₂₃).cast ?_ ?_, fun hc =>
              ⟨trivial, code, hcoded (h₂₃.towards hc), rfl⟩⟩
            · ring
            · exact (List.append_assoc _ _ _).symm

/-- So are those of arguments. -/
theorem Expr.generateArgs_coded : ∀ (args : List Expr) {k : Site} {s : GenState Assembly},
    Expr.YieldOnes c.dialect v args → k.At c p next v entry base s →
      Ensures (Expr.generateArgs c p args) s fun _ t => ∃ piece,
        Emits entry (Outside next) args.length piece s t ∧
        (t.Towards entry → Expr.CodedArgs c.dialect k args piece)
  | [], k, s, _, _ => by
      rw [Expr.generateArgs]
      refine Ensures.pure ⟨[], .refl s, fun _ => ?_⟩
      rw [Expr.CodedArgs]
  | e :: rest, k, s, hy, hat => by
      rw [Expr.YieldOnes] at hy
      rw [Expr.generateArgs]
      refine (Expr.generateArgs_coded rest hy.2 hat).bind fun _ t ⟨later, h₁, hlater⟩ => ?_
      refine (Expr.generate_coded e hy.1 (hat.push h₁)).mono fun _ u ⟨code, h₂, hcode⟩ => ?_
      refine ⟨later ++ code, (h₁.trans h₂).cast ?_ rfl, fun hc => ?_⟩
      · rw [List.length_cons]
        push_cast
        rfl
      · rw [Expr.CodedArgs]
        exact ⟨later, code, hlater (h₂.towards hc), hcode hc, rfl⟩

end

end Expressions

end YulToolchain
