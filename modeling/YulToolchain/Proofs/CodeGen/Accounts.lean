import YulToolchain.Proofs.Assembly.Layout
import YulToolchain.Proofs.CodeGen.Growth

/-!
# Accounts of Labels

Keeping track of the labels that a piece of code hands out and defines.

A label is handed out either for a place in the code at hand, which then defines it
itself, or for the entry of a function, which its definition defines, wherever that
is. Calls may come before the definition, so the label of an entry may be handed out
long before it is defined, or after the definition of other labels. `Books` keeps
account of this for a piece of code. It balances, for every label, how often it is
defined against whether it was handed out for a place; what is still owed is carried
along as a number and is zero for whole statements, but for the entries of the
functions that they define.

The account also says that everything that is written has a meaning. Whatever refers
to a label refers to one that was handed out, so in the end all references are to
labels that are defined.

## Main definitions

* `FunctionScopes.Calls`: A declaration that code at a place may call.
* `GenState.out`, `GenState.defined`: What is handed out for places, and what is defined.
* `Item.Proper`: An item has a meaning: what it refers to exists.
* `GenState.Sound`: Entries have labels of their own, and all items are proper.
* `Books`: The account of a piece of code.
* `Gen.Quiet`: A computation that owes nothing.

## Theorems

* `Books.trans`: The account of two pieces of code, one behind the other.
* `Books.entry`, `Books.leave`: Defining a function, and leaving a scope.
* `Gen.newLabel_books`, `Gen.label_books`: Handing out and defining a label.
* `Gen.entryOf_books`: The label of an entry.
-/

namespace YulToolchain

/-- A declaration that code in a scope may call, given the functions in sight. -/
def FunctionScopes.Calls (fs : FunctionScopes) (ss : Scopes) (scope : Nat) (k : Declaration) :
    Prop :=
  ∃ x f symbol, fs.find? x = some f ∧ ss.lookup scope x = some (k, symbol)

/-- Whether a label was handed out for a place, and not for an entry. -/
def GenState.out (s : GenState Assembly) (id : Nat) : Int :=
  if 0 < id ∧ id ≤ s.target.lastLabel ∧ id ∉ s.entries.map (·.2) then 1 else 0

/-- How often a label is defined. -/
def GenState.defined (s : GenState Assembly) (id : Nat) : Int :=
  (definedLabels s.target.items.toList).count id

/-- A label was handed out. -/
def GenState.Has (s : GenState Assembly) (id : Nat) : Prop := 0 < id ∧ id ≤ s.target.lastLabel

/-- An item has a meaning: it carries no bytes that would have to follow it, and what it
    refers to exists. -/
def Item.Proper (objects : ObjectNames) (lastLabel : Nat) : Item → Prop
  | .instruction op => op.isPush = false
  | .constant _ => True
  | .label _ => True
  | .reference (.label id) => 0 < id ∧ id ≤ lastLabel
  | .reference .ownSize => True
  | .reference (.offsetOf id) => id ∈ objects.attached.map (·.2)
  | .reference (.sizeOf id) => id ∈ objects.attached.map (·.2)

/-- Every function has one entry, with a label of its own, and all items have a
    meaning. -/
structure GenState.Sound (c : GenContext) (s : GenState Assembly) : Prop where
  functions : (s.entries.map (·.1)).Nodup
  labels : (s.entries.map (·.2)).Nodup
  range : ∀ e ∈ s.entries, s.Has e.2
  items : ∀ i ∈ s.target.items.toList, i.Proper c.objects s.target.lastLabel

/-- One for a label, and zero for all others. -/
def once (id : Nat) : Nat → Int := fun x => if x = id then 1 else 0

/-- One for each of some labels. -/
def onceEach (ids : List Nat) : Nat → Int := fun x => (ids.count x : Nat)

/-- The account of a piece of code that stands in a scope with some functions in sight
    and defines the functions `keys`: for every label, how often it is defined, less
    whether it was handed out for a place, comes to what is owed and to the entries of
    the functions. -/
structure Books (c : GenContext) (scope : Nat) (fs : FunctionScopes) (owed : Nat → Int)
    (keys : List Declaration) (s t : GenState Assembly) : Prop where
  last : s.target.lastLabel ≤ t.target.lastLabel
  keeps : ∀ k id, s.entries.lookup k = some id → t.entries.lookup k = some id
  named : ∀ k ∈ keys, ∃ id, t.entries.lookup k = some id
  calls : ∀ k id, t.entries.lookup k = some id →
    (∃ id', s.entries.lookup k = some id') ∨ k ∈ keys ∨ fs.Calls c.scopes scope k
  balance : ∀ id, t.defined id + s.out id = s.defined id + t.out id + owed id
    + (keys.countP fun k => t.entries.lookup k == some id : Nat)
  sound : t.Sound c

section Accounts

variable {c : GenContext} {scope : Nat} {fs : FunctionScopes} {owed owed' : Nat → Int}
  {keys keys' : List Declaration} {s t u : GenState Assembly}

theorem onceEach_nil : onceEach [] = 0 := rfl

/-- One label more. -/
theorem onceEach_cons (id : Nat) (ids : List Nat) :
    onceEach (id :: ids) = once id + onceEach ids := by
  funext x
  simp only [onceEach, once, List.count_cons, Pi.add_apply, beq_iff_eq]
  by_cases hx : x = id
  · rw [if_pos hx, if_pos hx.symm]
    push_cast
    omega
  · rw [if_neg hx, if_neg (Ne.symm hx)]
    push_cast
    omega

theorem Books.refl (hs : s.Sound c) : Books c scope fs 0 [] s s :=
  ⟨Nat.le_refl _, fun _ _ h => h, fun _ hk => absurd hk List.not_mem_nil,
    fun _ id h => Or.inl ⟨id, h⟩, fun id => by
      simp only [List.countP_nil, Pi.zero_apply, Nat.cast_zero, add_zero], hs⟩

theorem Books.has (h : Books c scope fs owed keys s t) {id : Nat} (hid : s.Has id) : t.Has id :=
  ⟨hid.1, Nat.le_trans hid.2 h.last⟩

theorem Books.cast (h : Books c scope fs owed keys s t) (howed : owed = owed') :
    Books c scope fs owed' keys s t := howed ▸ h

/-- What changes neither items nor labels leaves the books as they are. -/
theorem Books.of_same (hs : s.Sound c)
    (hitems : t.target.items = s.target.items) (hlast : t.target.lastLabel = s.target.lastLabel)
    (hentries : t.entries = s.entries) : Books c scope fs 0 [] s t := by
  refine ⟨Nat.le_of_eq hlast.symm, fun k id h => hentries ▸ h,
    fun k hk => absurd hk List.not_mem_nil, fun k id h => Or.inl ⟨id, hentries ▸ h⟩, fun id => ?_,
    ?_⟩
  · simp only [GenState.defined, GenState.out, hitems, hlast, hentries, List.countP_nil,
      Pi.zero_apply, Nat.cast_zero, add_zero]
  · refine ⟨hentries ▸ hs.functions, hentries ▸ hs.labels, ?_, ?_⟩
    · rw [hentries]
      intro e he
      rw [GenState.Has, hlast]
      exact hs.range e he
    · rw [hitems, hlast]
      exact hs.items

-- The entries of the functions of the first piece have their labels by its end, and
-- keep them, so they count the same at the end of the second.
/-- Books of what comes one after the other. -/
theorem Books.trans (h : Books c scope fs owed keys s t) (h' : Books c scope fs owed' keys' t u) :
    Books c scope fs (owed + owed') (keys ++ keys') s u := by
  refine ⟨Nat.le_trans h.last h'.last, fun k id hk => h'.keeps k id (h.keeps k id hk), ?_, ?_, ?_,
    h'.sound⟩
  -- Every key is named by one of the two parts.
  · intro k hk
    rcases List.mem_append.mp hk with hk | hk
    · rcases h.named k hk with ⟨id, hid⟩
      exact ⟨id, h'.keeps k id hid⟩
    · exact h'.named k hk
  -- An entry that is new in the end was called for in one of the parts.
  · intro k id hk
    rcases h'.calls k id hk with ⟨id', hk'⟩ | hk' | hk'
    · rcases h.calls k id' hk' with hs | hs | hs
      · exact Or.inl hs
      · exact Or.inr (Or.inl (List.mem_append_left _ hs))
      · exact Or.inr (Or.inr hs)
    · exact Or.inr (Or.inl (List.mem_append_right _ hk'))
    · exact Or.inr (Or.inr hk')
  -- The keys of the first part keep their labels, so they are counted alike.
  · intro id
    have hcount : keys.countP (fun k => u.entries.lookup k == some id)
        = keys.countP fun k => t.entries.lookup k == some id := by
      refine List.countP_congr fun k hk => ?_
      rcases h.named k hk with ⟨id', hid'⟩
      rw [hid', h'.keeps k id' hid']
    have h₁ := h.balance id
    have h₂ := h'.balance id
    rw [List.countP_append, hcount, Pi.add_apply]
    push_cast
    omega

-- Two pieces of which only one defines functions.
theorem Books.onward (h : Books c scope fs owed keys s t) (h' : Books c scope fs owed' [] t u) :
    Books c scope fs (owed + owed') keys s u := by
  have := h.trans h'
  rwa [List.append_nil] at this

/-- The order of the keys does not matter. -/
theorem Books.perm (h : Books c scope fs owed keys s t) (hperm : keys.Perm keys') :
    Books c scope fs owed keys' s t := by
  refine ⟨h.last, h.keeps, fun k hk => h.named k (hperm.mem_iff.mpr hk), fun k id hk => ?_,
    fun id => ?_, h.sound⟩
  · rcases h.calls k id hk with hs | hs | hs
    · exact Or.inl hs
    · exact Or.inr (Or.inl (hperm.mem_iff.mp hs))
    · exact Or.inr (Or.inr hs)
  · rw [← hperm.countP_eq]
    exact h.balance id

/-- The label that an entry owes is what defining the function brings. -/
theorem Books.entry (h : Books c scope fs owed keys s t) {k : Declaration} {id : Nat}
    (hk : t.entries.lookup k = some id) :
    Books c scope fs (owed - once id) (k :: keys) s t := by
  refine ⟨h.last, h.keeps, ?_, ?_, ?_, h.sound⟩
  · intro k' hk'
    rcases List.mem_cons.mp hk' with rfl | hk'
    · exact ⟨id, hk⟩
    · exact h.named k' hk'
  · intro k' id' hk'
    rcases h.calls k' id' hk' with hs | hs | hs
    · exact Or.inl hs
    · exact Or.inr (Or.inl (List.mem_cons_of_mem _ hs))
    · exact Or.inr (Or.inr hs)
  -- The count goes up exactly for the label of the entry.
  · intro x
    have hb := h.balance x
    rw [List.countP_cons, hk, Pi.sub_apply, once]
    by_cases hx : x = id
    · rw [if_pos hx, if_pos (by rw [hx, beq_self_eq_true])]
      push_cast
      omega
    · rw [if_neg hx, if_neg (by simpa only [beq_iff_eq, Option.some.injEq] using Ne.symm hx)]
      push_cast
      omega

/-- Leaving a scope: what is called inside is called from outside, or is one of the
    functions defined inside. -/
theorem Books.leave {inner : Nat} {fs' : FunctionScopes} (h : Books c inner fs' owed keys s t)
    (hcalls : ∀ k, fs'.Calls c.scopes inner k → k ∈ keys ∨ fs.Calls c.scopes scope k) :
    Books c scope fs owed keys s t := by
  refine ⟨h.last, h.keeps, h.named, fun k id hk => ?_, h.balance, h.sound⟩
  rcases h.calls k id hk with hs | hs | hs
  · exact Or.inl hs
  · exact Or.inr (Or.inl hs)
  · exact Or.inr (hcalls k hs)

end Accounts

namespace Gen

variable {c : GenContext} {scope : Nat} {fs : FunctionScopes}

/-- A computation after which nothing is owed, and no function is defined. -/
def Quiet (c : GenContext) (scope : Nat) (fs : FunctionScopes) {α : Type} (m : Gen Assembly α) :
    Prop :=
  ∀ s, s.Sound c → Ensures m s fun _ => Books c scope fs 0 [] s

section Rules

variable {α β : Type}

theorem Quiet.pure (a : α) : Quiet c scope fs (pure a) := fun _ hs => Ensures.pure (.refl hs)

theorem Quiet.bind {m : Gen Assembly α} {f : α → Gen Assembly β} (hm : Quiet c scope fs m)
    (hf : ∀ a, Quiet c scope fs (f a)) : Quiet c scope fs (m >>= f) := fun s hs =>
  (hm s hs).bind fun a t ht => (hf a t ht.sound).mono fun _ _ hu => ht.trans hu

theorem Quiet.throw {e : Failure} : Quiet c scope fs (throw e : Gen Assembly α) :=
  fun _ _ => Ensures.throw

theorem Quiet.violation {line : Nat} {fault : InternalFault} :
    Quiet c scope fs (violation line fault : Gen Assembly α) := fun _ _ => Ensures.violation

/-- Either way quiet. -/
theorem Quiet.ite {b : Prop} [Decidable b] {m n : Gen Assembly α} (hm : Quiet c scope fs m)
    (hn : Quiet c scope fs n) : Quiet c scope fs (if b then m else n) := by
  split
  · exact hm
  · exact hn

theorem Quiet.orStop {ε : Type} (cause : ε → Cause) (r : Except ε α) :
    Quiet c scope fs (orStop cause r : Gen Assembly α) := fun _ hs =>
  Ensures.orStop fun _ _ => .refl hs

/-- A name that is found is looked up. -/
theorem lookup_ensures {A : Type} {p : Place} {line : Nat} {name : String}
    {found : Declaration × Symbol} {s : GenState A}
    (h : c.scopes.lookup p.scope name = some found) :
    Ensures (lookup c p line name) s fun r t => r = found ∧ t = s :=
  Ensures.lookup fun _ hr => ⟨Option.some.inj (hr.symm.trans h), rfl⟩

theorem lookup_quiet (p : Place) (line : Nat) (name : String) :
    Quiet c scope fs (lookup c p line name) := fun _ hs => Ensures.lookup fun _ _ => .refl hs

theorem height_quiet : Quiet c scope fs height := fun _ hs => Ensures.get (Ensures.pure (.refl hs))

theorem expectHeight_quiet (line : Nat) (expected : Int) (place : String) :
    Quiet c scope fs (expectHeight line expected place) := fun _ hs =>
  Ensures.expectHeight (.refl hs)

/-- A quiet step at a place where the account so far is known. -/
theorem Quiet.step {owed : Nat → Int} {keys : List Declaration} {s t : GenState Assembly}
    {m : Gen Assembly α} {f : α → Gen Assembly β} {Q : β → GenState Assembly → Prop}
    (hm : Quiet c scope fs m) (h : Books c scope fs owed keys s t)
    (hf : ∀ a u, Books c scope fs 0 [] t u → Ensures (f a) u Q) : Ensures (m >>= f) t Q :=
  (hm t h.sound).bind hf

theorem Quiet.last {owed : Nat → Int} {keys : List Declaration} {s t : GenState Assembly}
    {m : Gen Assembly α} {Q : α → GenState Assembly → Prop} (hm : Quiet c scope fs m)
    (h : Books c scope fs owed keys s t) (hQ : ∀ a u, Books c scope fs 0 [] t u → Q a u) :
    Ensures m t Q := (hm t h.sound).mono hQ

end Rules

section Primitives

theorem setHeight_quiet (h : Int) : Quiet c scope fs (setHeight h) := by
  intro s hs _ t ht
  cases ht
  exact .of_same hs rfl rfl rfl

theorem setLine_quiet (line : Nat) : Quiet c scope fs (setLine line) := by
  intro s hs _ t ht
  cases ht
  exact .of_same hs rfl rfl rfl

theorem setSlot_quiet (d : Declaration) (slot : Int) : Quiet c scope fs (setSlot d slot) := by
  intro s hs _ t ht
  cases ht
  exact .of_same hs rfl rfl rfl

theorem setSlots_quiet (n : Nat) : ∀ (first : Int) (vars : List TypedName),
    Quiet c scope fs (setSlots n first vars)
  | _, [] => Quiet.pure ()
  | first, _ :: rest => (setSlot_quiet _ first).bind fun _ => setSlots_quiet n (first + 1) rest

/-- Declaring sets slots only. -/
theorem declareSlots_quiet (p : Place) : ∀ (first : Int) (vars : List TypedName),
    Quiet c scope fs (declareSlots c p first vars)
  | _, [] => Quiet.pure ()
  | first, v :: rest => (lookup_quiet p v.line v.name).bind fun found =>
      (setSlot_quiet found.1 first).bind fun _ => declareSlots_quiet p (first + 1) rest

/-- Writing an item that has a meaning defines the label that it stands for. -/
theorem emit_books (i : Item) {s : GenState Assembly} (hs : s.Sound c)
    (hi : i.Proper c.objects s.target.lastLabel) :
    Ensures (emit i) s fun _ => Books c scope fs
      (fun id => ((i.label?.toList.count id : Nat) : Int)) [] s := by
  intro _ t ht
  cases ht
  -- The new item is the last one.
  refine ⟨Nat.le_refl _, fun _ _ h => h, fun _ hk => absurd hk List.not_mem_nil,
    fun _ id h => Or.inl ⟨id, h⟩, fun id => ?_, hs.functions, hs.labels, hs.range, fun j hj => ?_⟩
  · have hitems : (Target.emit i s.target).items.toList = s.target.items.toList ++ [i] :=
      Array.toList_push
    -- It defines the label that it is, if it is one.
    have hlabels : definedLabels [i] = i.label?.toList := by
      cases i <;> rfl
    simp only [GenState.defined, GenState.out, hitems, definedLabels_append, hlabels,
      List.count_append, List.countP_nil, Nat.cast_add, Nat.cast_zero, add_zero]
    show _ = _ + (if 0 < id ∧ id ≤ s.target.lastLabel ∧ id ∉ s.entries.map (·.2) then 1 else 0) + _
    omega
  · have hitems : (Target.emit i s.target).items.toList = s.target.items.toList ++ [i] :=
      Array.toList_push
    rcases List.mem_append.mp (hitems ▸ hj) with hj | hj
    · exact hs.items j hj
    · obtain rfl := List.mem_singleton.mp hj
      exact hi

/-- A label is defined once more. -/
theorem label_books (scope : Nat) (fs : FunctionScopes) (id : Nat) {s : GenState Assembly}
    (hs : s.Sound c) :
    Ensures (label id) s fun _ => Books c scope fs (once id) [] s := by
  refine (emit_books (.label id) hs trivial).mono fun _ t ht => ht.cast ?_
  funext x
  simp only [Item.label?, Option.toList_some, once, List.count_singleton, beq_iff_eq]
  split <;> rename_i h
  · rw [if_pos h.symm]
    rfl
  · rw [if_neg (Ne.symm h)]
    rfl

/-- An item that is no label defines none. -/
theorem emit_quiet_of (i : Item) (hlabel : i.label? = none) {s : GenState Assembly}
    (hs : s.Sound c) (hi : i.Proper c.objects s.target.lastLabel) :
    Ensures (emit i) s fun _ => Books c scope fs 0 [] s := by
  refine (emit_books i hs hi).mono fun _ t ht => ht.cast ?_
  funext x
  rw [hlabel]
  rfl

theorem instruction_quiet {op : Instruction} (h : op.isPush = false) :
    Quiet c scope fs (instruction op) := fun _ hs => emit_quiet_of _ rfl hs h

theorem constant_quiet (w : Word) : Quiet c scope fs (emit (.constant w)) := fun _ hs =>
  emit_quiet_of _ rfl hs trivial

theorem zeros_quiet (count : Nat) : Quiet c scope fs (zeros count) := by
  induction count with
  | zero => exact Quiet.pure ()
  | succ count ih => exact (constant_quiet 0).bind fun _ => ih

theorem pops_quiet (count : Nat) : Quiet c scope fs (pops count) := by
  induction count with
  | zero => exact Quiet.pure ()
  | succ count ih => exact (instruction_quiet rfl).bind fun _ => ih

/-- A reference to a label that was handed out. -/
theorem reference_quiet (scope : Nat) (fs : FunctionScopes) {id : Nat} {s : GenState Assembly}
    (hs : s.Sound c) (hid : s.Has id) :
    Ensures (emit (.reference (.label id))) s fun _ => Books c scope fs 0 [] s :=
  emit_quiet_of _ rfl hs hid

/-- A jump. -/
theorem jump_quiet (difference : Int) : Quiet c scope fs (jump difference) := by
  intro s hs
  have hsplit : (jump difference : Gen Assembly Unit)
      = (do emit (.instruction .jump); setHeight ((← height) + difference)) := rfl
  rw [hsplit]
  exact ((instruction_quiet rfl).bind fun _ => height_quiet.bind fun h =>
    setHeight_quiet _) s hs

/-- A jump to a label that exists. -/
theorem jumpTo_quiet (scope : Nat) (fs : FunctionScopes) {id : Nat} (difference : Int)
    {s : GenState Assembly} (hs : s.Sound c) (hid : s.Has id) :
    Ensures (jumpTo id difference) s fun _ => Books c scope fs 0 [] s := by
  have hsplit : (jumpTo id difference : Gen Assembly Unit)
      = (do emit (.reference (.label id)); jump difference) := rfl
  rw [hsplit]
  exact (reference_quiet scope fs hs hid).bind fun _ t ht =>
    (jump_quiet difference t ht.sound).mono fun _ _ hu => ht.trans hu

/-- A conditional jump to a label that exists. -/
theorem jumpToIf_quiet (scope : Nat) (fs : FunctionScopes) {id : Nat} {s : GenState Assembly}
    (hs : s.Sound c) (hid : s.Has id) :
    Ensures (jumpToIf id) s fun _ => Books c scope fs 0 [] s := by
  have hsplit : (jumpToIf id : Gen Assembly Unit)
      = (do emit (.reference (.label id)); instruction .jumpi) := rfl
  rw [hsplit]
  exact (reference_quiet scope fs hs hid).bind fun _ t ht =>
    (instruction_quiet rfl t ht.sound).mono fun _ _ hu => ht.trans hu

/-- A label that is handed out for a place is owed. -/
theorem newLabel_books (scope : Nat) (fs : FunctionScopes) {s : GenState Assembly}
    (hs : s.Sound c) :
    Ensures newLabel s fun id t => Books c scope fs (-once id) [] s t ∧ t.Has id := by
  intro id t ht
  cases ht
  -- No entry has the number of the new label.
  have hfresh : s.target.lastLabel + 1 ∉ s.entries.map (·.2) := by
    intro hc
    rcases List.mem_map.mp hc with ⟨e, he, hlabel⟩
    have := (hs.range e he).2
    omega
  refine ⟨⟨Nat.le_succ _, fun _ _ h => h, fun _ hk => absurd hk List.not_mem_nil,
    fun _ id h => Or.inl ⟨id, h⟩, fun id => ?_, hs.functions, hs.labels, ?_, ?_⟩, Nat.succ_pos _,
    Nat.le_refl _⟩
  · rw [List.countP_nil, Nat.cast_zero, add_zero]
    show s.defined id + (if 0 < id ∧ id ≤ s.target.lastLabel ∧
      id ∉ s.entries.map (·.2) then 1 else 0)
      = s.defined id
        + (if 0 < id ∧ id ≤ s.target.lastLabel + 1 ∧ id ∉ s.entries.map (·.2) then 1 else 0)
        + -(if id = s.target.lastLabel + 1 then 1 else 0)
    -- Only for the new label does the sum change: it is not yet placed.
    by_cases hid : id = s.target.lastLabel + 1
    · subst hid
      rw [if_neg (fun h => absurd h.2.1 (by omega)),
        if_pos ⟨Nat.succ_pos _, Nat.le_refl _, hfresh⟩, if_pos rfl]
      omega
    · rw [if_neg hid]
      have hiff : (0 < id ∧ id ≤ s.target.lastLabel + 1 ∧ id ∉ s.entries.map (·.2)) ↔
          (0 < id ∧ id ≤ s.target.lastLabel ∧ id ∉ s.entries.map (·.2)) := by
        constructor
        · rintro ⟨h₀, h₁, h₂⟩
          exact ⟨h₀, by omega, h₂⟩
        · rintro ⟨h₀, h₁, h₂⟩
          exact ⟨h₀, by omega, h₂⟩
      simp only [hiff]
      omega
  -- Entries and items refer to labels that existed before.
  · exact fun e he => ⟨(hs.range e he).1, Nat.le_succ_of_le (hs.range e he).2⟩
  · intro i hi
    have hproper := hs.items i hi
    cases i with
    | reference r =>
        cases r with
        | label id => exact ⟨hproper.1, Nat.le_succ_of_le hproper.2⟩
        | _ => exact hproper
    | _ => exact hproper

/-- The label of an entry is handed out once, and is not owed by the code at hand. -/
theorem entryOf_books (hnamed : c.namedLabels = false) {k : Declaration}
    (hk : fs.Calls c.scopes scope k) {s : GenState Assembly} (hs : s.Sound c) :
    Ensures (entryOf c k) s fun id t =>
      Books c scope fs 0 [] s t ∧ t.entries.lookup k = some id ∧ t.Has id := by
  refine Ensures.get ?_
  -- Either the function has an entry, or it gets the next label.
  split
  · rename_i id hid
    rcases List.lookup_eq_some_iff.mp hid with ⟨_, _, hsplit, _⟩
    refine Ensures.pure ⟨.refl hs, hid, hs.range (k, id) ?_⟩
    rw [hsplit]
    exact List.mem_append_right _ List.mem_cons_self
  · rename_i hnone
    rw [if_neg (by rw [hnamed]; exact Bool.false_ne_true)]
    intro id t ht
    cases ht
    -- No entry has that label.
    have hlabels : s.target.lastLabel + 1 ∉ s.entries.map (·.2) := by
      intro hc
      rcases List.mem_map.mp hc with ⟨e, he, hlabel⟩
      have := (hs.range e he).2
      omega
    have hlookup : ((k, s.target.lastLabel + 1) :: s.entries).lookup k
        = some (s.target.lastLabel + 1) := by rw [List.lookup_cons, beq_self_eq_true]
    -- Entries that were there stay.
    have hother : ∀ k' id, s.entries.lookup k' = some id →
        ((k, s.target.lastLabel + 1) :: s.entries).lookup k' = some id := by
      intro k' id hk'
      have hne : k' ≠ k := by
        rintro rfl
        rw [hnone] at hk'
        exact absurd hk' (by rintro ⟨⟩)
      rw [List.lookup_cons, beq_eq_false_iff_ne.mpr hne]
      exact hk'
    refine ⟨⟨Nat.le_succ _, hother, fun _ hc => absurd hc List.not_mem_nil, fun k' id' hk' => ?_,
      fun id => ?_, List.nodup_cons.mpr ⟨fun hc => ?_, hs.functions⟩, ?_, ?_, fun i hi => ?_⟩,
      hlookup, Nat.succ_pos _, Nat.le_refl _⟩
    -- The new entry is one that was called for.
    · by_cases hkk : k' = k
      · subst hkk
        exact Or.inr (Or.inr hk)
      · rw [List.lookup_cons, beq_eq_false_iff_ne.mpr hkk] at hk'
        exact Or.inl ⟨id', hk'⟩
    · rw [List.countP_nil, Nat.cast_zero, add_zero, Pi.zero_apply, add_zero]
      show s.defined id
          + (if 0 < id ∧ id ≤ s.target.lastLabel ∧ id ∉ s.entries.map (·.2) then 1 else 0)
        = s.defined id + (if 0 < id ∧ id ≤ s.target.lastLabel + 1
            ∧ id ∉ (s.target.lastLabel + 1) :: s.entries.map (·.2) then 1 else 0)
      -- A label of an entry is not counted as owed, so that the sum does not change.
      have hiff : (0 < id ∧ id ≤ s.target.lastLabel + 1
          ∧ id ∉ (s.target.lastLabel + 1) :: s.entries.map (·.2)) ↔
          (0 < id ∧ id ≤ s.target.lastLabel ∧ id ∉ s.entries.map (·.2)) := by
        rw [List.mem_cons, not_or]
        constructor
        · rintro ⟨h₀, h₁, h₂, h₃⟩
          exact ⟨h₀, by omega, h₃⟩
        · rintro ⟨h₀, h₁, h₂⟩
          exact ⟨h₀, by omega, by omega, h₂⟩
      simp only [hiff]
    · rcases List.mem_map.mp hc with ⟨e, he, rfl⟩
      exact bne_iff_ne.mp (List.lookup_eq_none_iff.mp hnone e he) rfl
    · exact List.nodup_cons.mpr ⟨hlabels, hs.labels⟩
    · intro e he
      rcases List.mem_cons.mp he with rfl | he
      · exact ⟨Nat.succ_pos _, Nat.le_refl _⟩
      · exact ⟨(hs.range e he).1, Nat.le_succ_of_le (hs.range e he).2⟩
    -- Items that were proper are proper with one more label.
    · have hproper := hs.items i hi
      cases i with
      | reference r =>
          cases r with
          | label id => exact ⟨hproper.1, Nat.le_succ_of_le hproper.2⟩
          | _ => exact hproper
      | _ => exact hproper

/-- Reports are quiet. -/
theorem reportTooDeep_quiet (p : Place) (name : String) (depth : Int) :
    Quiet c scope fs (reportTooDeep p name depth) := by
  refine Quiet.bind ?_ fun _ => instruction_quiet rfl
  intro s hs _ t ht
  cases ht
  exact .of_same hs rfl rfl rfl

/-- So is the search for a depth. -/
theorem distance?_quiet (p : Place) (line : Nat) (name : String) (least limit : Int) :
    Quiet c scope fs (distance? c p line name least limit) := by
  refine (lookup_quiet p line name).bind fun found s hs => Ensures.get ?_
  split
  · exact Ensures.violation
  · refine Ensures.height ?_
    dsimp only
    split
    · exact Ensures.violation
    · split
      · exact ((reportTooDeep_quiet p name _).bind fun _ => Quiet.pure none) s hs
      · exact Ensures.pure (.refl hs)

/-- Copying a variable is quiet. -/
theorem copyVariable_quiet (p : Place) (line : Nat) (name : String) :
    Quiet c scope fs (copyVariable c p line name) := by
  refine (distance?_quiet p line name 1 maxCopyDepth).bind fun r => ?_
  cases r with
  | none => exact zeros_quiet 1
  | some distance =>
      intro s hs
      refine (Ensures.orStop (P := fun op t => t = s ∧ op.isPush = false) fun op hop => ?_).bind
        fun op t ⟨hst, hpush⟩ => hst ▸ instruction_quiet hpush s hs
      rw [Instruction.dupOf] at hop
      split at hop
      · cases hop
        exact ⟨rfl, rfl⟩
      · exact absurd hop (by rintro ⟨⟩)

/-- Assigning it is quiet. -/
theorem assignVariable_quiet (p : Place) (line : Nat) (name : String) :
    Quiet c scope fs (assignVariable c p line name) := by
  refine (distance?_quiet p line name 2 maxAssignDepth).bind fun r => ?_
  cases r with
  | none => exact pops_quiet 1
  | some distance =>
      intro s hs
      refine (Ensures.orStop (P := fun op t => t = s ∧ op.isPush = false) fun op hop => ?_).bind
        fun op t ⟨hst, hpush⟩ => hst ▸ ((instruction_quiet hpush).bind fun _ => pops_quiet 1) s hs
      rw [Instruction.swapOf] at hop
      split at hop
      · cases hop
        exact ⟨rfl, rfl⟩
      · exact absurd hop (by rintro ⟨⟩)

theorem assignVariables_quiet (p : Place) : ∀ targets : List Identifier,
    Quiet c scope fs (assignVariables c p targets)
  | [] => Quiet.pure ()
  | v :: rest => (assignVariables_quiet p rest).bind fun _ => assignVariable_quiet p v.line v.name

/-- Instructions without bytes of their own are quiet in a row. -/
theorem instructions_quiet : ∀ ops : List Instruction, (∀ op ∈ ops, op.isPush = false) →
    Quiet c scope fs (ops.forM instruction)
  | [], _ => Quiet.pure ()
  | op :: rest, h => by
      simp only [List.forM_eq_forM, List.forM_cons]
      exact (instruction_quiet (h op List.mem_cons_self)).bind fun _ =>
        instructions_quiet rest fun op' hop' => h op' (List.mem_cons_of_mem _ hop')

theorem closeBlock_quiet (n line : Nat) (before : Int) :
    Quiet c scope fs (closeBlock c n line before) :=
  (setLine_quiet line).bind fun _ => (pops_quiet _).bind fun _ =>
    Quiet.ite (expectHeight_quiet line before "block") (Quiet.pure ())

/-- A literal is quiet. -/
theorem literal_quiet (l : Literal) : Quiet c scope fs (Gen.literal l) := by
  rw [Gen.literal]
  split
  · exact (setLine_quiet l.line).bind fun _ => constant_quiet _
  · exact Quiet.throw

/-- A query is quiet if what it emits is proper. -/
theorem objectQuery_quiet (line : Nat) (function : String) (args : List Expr) {own : Item}
    {attachment : Nat → Reference} (hown : own.label? = none)
    (hproper : ∀ lastLabel, own.Proper c.objects lastLabel)
    (hattachment : ∀ id ∈ c.objects.attached.map (·.2), ∀ lastLabel,
      (Item.reference (attachment id)).Proper c.objects lastLabel) :
    Quiet c scope fs (objectQuery c line function args own attachment) := by
  have hname : Quiet c scope fs (objectName line function args) := by
    unfold Gen.objectName
    split
    · exact Quiet.ite ((Quiet.orStop _ _).bind fun _ => Quiet.pure _) Quiet.violation
    · exact Quiet.violation
  refine hname.bind fun name => Quiet.ite (fun _ hs => emit_quiet_of own hown hs (hproper _)) ?_
  split
  -- The number found is one of the attachments.
  · rename_i id hid
    rcases List.lookup_eq_some_iff.mp hid with ⟨_, _, hsplit, _⟩
    refine fun _ hs => emit_quiet_of _ rfl hs
      (hattachment id (List.mem_map.mpr ⟨(name, id), ?_, rfl⟩) _)
    rw [hsplit]
    exact List.mem_append_right _ List.mem_cons_self
  · exact Quiet.violation

end Primitives

end Gen

/-- The moves that bring a frame into order drop and exchange slots. -/
theorem Frame.unwind_plain : ∀ {fuel : Nat} {f f' : Frame} {moves : List Instruction},
    Frame.unwind fuel f = .ok (moves, f') → ∀ op ∈ moves, op.isPush = false
  | 0, f, f', moves, h => by
      cases h
      exact fun op hop => absurd hop List.not_mem_nil
  | fuel + 1, f, f', moves, h => by
      rcases Frame.unwind_cases h with ⟨rfl, -⟩ | ⟨-, -, rest, rfl, hrest⟩ |
        ⟨g, k, rest, -, -, -, rfl, hrest⟩
      · exact fun op hop => absurd hop List.not_mem_nil
      · intro op hop
        rcases List.mem_cons.mp hop with rfl | hop
        · rfl
        · exact Frame.unwind_plain hrest op hop
      · intro op hop
        rcases List.mem_cons.mp hop with rfl | hop
        · rfl
        · exact Frame.unwind_plain hrest op hop

/-- Unwinding a frame emits instructions only. -/
theorem Gen.unwindFrame_quiet {c : GenContext} {scope : Nat} {fs : FunctionScopes} (p : Place)
    (params returns : Nat) : Gen.Quiet c scope fs (Gen.unwindFrame p params returns) := by
  refine Gen.height_quiet.bind fun actual => Gen.Quiet.ite Gen.Quiet.violation
    (Gen.Quiet.ite ?_ ?_)
  · exact (Gen.reportTooDeep_quiet p "" _).bind fun _ => Gen.setHeight_quiet _
  · intro s hs
    refine (Gen.Ensures.orStop (P := fun r t => t = s ∧ ∀ op ∈ r.1, op.isPush = false)
      fun r hr => ⟨rfl, Frame.unwind_plain hr⟩).bind fun r t ⟨hst, hplain⟩ => ?_
    subst hst
    exact ((Gen.instructions_quiet r.1 hplain).bind fun _ =>
      Gen.Quiet.ite (Gen.Quiet.pure ()) Gen.Quiet.violation) t hs

end YulToolchain
