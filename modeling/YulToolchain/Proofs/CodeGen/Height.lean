import YulToolchain.Assembly
import YulToolchain.CodeGen.Statement
import YulToolchain.Proofs.CodeGen.Frame
import Mathlib.Tactic.Ring

/-!
# Heights in Generation

What the operations of code generation do to the height of the stack and to the
slots of variables.

A target keeps the height itself, and any target will do as long as writing an item
changes the height by the effect of the item. `Gen.Does` says that a computation
succeeds and what holds afterwards; proofs about code generation follow its text
with the rule for sequencing. Most operations give no variable a slot and move the
height by a fixed difference, which is what `Moves` says.

## Main definitions

* `Target.Lawful`: The height of a target follows what is written.
* `Gen.Does`: A computation succeeds, and what holds afterwards.
* `Moves`: The height has changed by a difference and the slots have not.
* `Gen.Writes`: A computation only writes, and moves the height by a difference.
* `GenState.slot?`: The slot of the variable that a name stands for.

## Theorems

* `Gen.Does.bind`: Sequencing.
* `Gen.copyVariable_moves`, `Gen.assignVariable_moves`: The two accesses to a
  variable.
* `Gen.unwindFrame_does`: The end of a function.
* `Gen.setSlots_does`: Variables get their slots one above the other.
-/

namespace YulToolchain

/-- The height of a target follows what is written to it. -/
class Target.Lawful (A : Type) [Target A] : Prop where
  height_setHeight : ∀ (h : Int) (a : A), Target.height (Target.setHeight h a) = h
  height_emit : ∀ (i : Item) (a : A),
    Target.height (Target.emit i a) = Target.height a + i.stackEffect
  height_newLabel : ∀ a : A, Target.height (Target.newLabel a).2 = Target.height a
  height_namedLabel : ∀ (name : String) (a : A),
    Target.height (Target.namedLabel name a).2 = Target.height a
  height_setLine : ∀ (line : Nat) (a : A), Target.height (Target.setLine line a) = Target.height a

instance : Target.Lawful DryRun where
  height_setHeight _ _ := rfl
  height_emit _ _ := rfl
  height_newLabel _ := rfl
  height_namedLabel _ _ := rfl
  height_setLine _ _ := rfl

instance : Target.Lawful Assembly where
  height_setHeight _ _ := rfl
  height_emit _ _ := rfl
  height_newLabel _ := rfl
  height_namedLabel name a := by
    show (Assembly.namedLabel name a).2.height = a.height
    rw [Assembly.namedLabel]
    split <;> rfl
  height_setLine _ _ := rfl

section

variable {A : Type} [Target A]

/-- The height of the stack. -/
def GenState.height (s : GenState A) : Int := Target.height s.target

/-- The slot of the variable that a name stands for in a scope. -/
def GenState.slot? (s : GenState A) (ss : Scopes) (scope : Nat) (x : String) : Option Int :=
  (ss.lookup scope x).bind fun found => s.slots.lookup found.1

/-- The height has changed by a difference, and no variable got a slot. -/
structure Moves (difference : Int) (s t : GenState A) : Prop where
  height : t.height = s.height + difference
  slots : t.slots = s.slots

end

/-- A computation succeeds from a state, and a property holds afterwards. -/
def Gen.Does {A α : Type} (m : Gen A α) (s : GenState A) (Q : α → GenState A → Prop) : Prop :=
  ∃ a t, m s = .ok (a, t) ∧ Q a t

/-- A computation only writes to the target, and moves the height by a difference. -/
def Gen.Writes {A : Type} [Target A] (m : Gen A Unit) (difference : Int) : Prop :=
  ∀ s, ∃ a, m s = .ok ((), { s with target := a }) ∧ Target.height a = s.height + difference

section Moving

variable {A : Type} [Target A] {s t u : GenState A} {δ ε : Int}

theorem Moves.refl (s : GenState A) : Moves 0 s s := ⟨(add_zero _).symm, rfl⟩

theorem Moves.trans (h : Moves δ s t) (h' : Moves ε t u) : Moves (δ + ε) s u :=
  ⟨by rw [h'.height, h.height, add_assoc], h'.slots.trans h.slots⟩

theorem Moves.cast (h : Moves δ s t) (hδ : δ = ε) : Moves ε s t := hδ ▸ h

theorem Moves.slot? (h : Moves δ s t) (ss : Scopes) (scope : Nat) (x : String) :
    t.slot? ss scope x = s.slot? ss scope x := by
  rw [GenState.slot?, h.slots, GenState.slot?]

end Moving

namespace Gen

section Rules

variable {A α β : Type} {s : GenState A} {P : α → GenState A → Prop} {Q : β → GenState A → Prop}

theorem Does.pure {a : α} (h : P a s) : Does (pure a) s P := ⟨a, s, rfl, h⟩

theorem Does.mono {P' : α → GenState A → Prop} {m : Gen A α} (h : Does m s P)
    (hP : ∀ a t, P a t → P' a t) : Does m s P' := by
  rcases h with ⟨a, t, hm, h⟩
  exact ⟨a, t, hm, hP a t h⟩

/-- What is done one after the other. -/
theorem Does.bind {m : Gen A α} {f : α → Gen A β} (hm : Does m s P)
    (hf : ∀ a t, P a t → Does (f a) t Q) : Does (m >>= f) s Q := by
  rcases hm with ⟨a, t, hm, h⟩
  rcases hf a t h with ⟨b, u, hf, h'⟩
  refine ⟨b, u, ?_, h'⟩
  show (m s >>= fun r => f r.1 r.2) = _
  rw [hm]
  exact hf

theorem Does.get {f : GenState A → Gen A β} (h : Does (f s) s Q) : Does (get >>= f) s Q := h

theorem Does.ok {ε α : Type} {P : α → GenState A → Prop} {cause : ε → Cause} {r : Except ε α}
    {a : α} (hr : r = .ok a) (h : P a s) : Does (orStop cause r) s P := by
  subst hr
  exact Does.pure h

/-- A name that is found. -/
theorem lookup_does {c : GenContext} {p : Place} {line : Nat} {name : String}
    {found : Declaration × Symbol} (h : c.scopes.lookup p.scope name = some found) :
    Does (lookup c p line name) s fun r t => r = found ∧ t = s := by
  rw [lookup, h]
  exact Does.pure ⟨rfl, rfl⟩

variable [Target A]

theorem Does.height {f : Int → Gen A β} (h : Does (f s.height) s Q) :
    Does (Gen.height >>= f) s Q := h

theorem Writes.moves {m : Gen A Unit} {δ : Int} (h : Writes m δ) :
    Does m s fun _ => Moves δ s := by
  rcases h s with ⟨a, hm, ha⟩
  exact ⟨(), _, hm, ha, rfl⟩

/-- Written one after the other. -/
theorem Writes.bind {m n : Gen A Unit} {δ ε : Int} (hm : Writes m δ) (hn : Writes n ε) :
    Writes (m >>= fun _ => n) (δ + ε) := by
  intro s
  rcases hm s with ⟨a, hm, ha⟩
  rcases hn { s with target := a } with ⟨b, hn, hb⟩
  refine ⟨b, ?_, ?_⟩
  · show (m s >>= fun r => n r.2) = _
    rw [hm]
    exact hn
  · rw [hb, GenState.height, ha]
    ring

/-- A check of the height succeeds where the height is known. -/
theorem expectHeight_does {line : Nat} {expected : Int} {place : String}
    (h : s.height = expected) : Does (expectHeight line expected place) s fun _ => Moves 0 s := by
  refine Does.height ?_
  rw [if_neg (not_not.mpr h)]
  exact Does.pure (.refl s)

end Rules

variable {A : Type} [Target A] [Target.Lawful A] {s : GenState A}

theorem setHeight_does (h : Int) :
    Does (setHeight h) s fun _ t => t.height = h ∧ t.slots = s.slots :=
  ⟨(), _, rfl, Target.Lawful.height_setHeight h s.target, rfl⟩

theorem setLine_writes (line : Nat) : Writes (setLine line : Gen A Unit) 0 := fun s =>
  ⟨_, rfl, (Target.Lawful.height_setLine line s.target).trans (add_zero _).symm⟩

theorem emit_writes (i : Item) : Writes (emit i : Gen A Unit) i.stackEffect := fun s =>
  ⟨_, rfl, Target.Lawful.height_emit i s.target⟩

/-- Several items write as many effects. -/
theorem emitTimes_writes (i : Item) :
    ∀ n : Nat, Writes (emitTimes i n : Gen A Unit) (n * i.stackEffect)
  | 0 => fun s => ⟨s.target, rfl, by simp only [GenState.height, Nat.cast_zero, zero_mul, add_zero]⟩
  | n + 1 => by
      have h := (emit_writes i).bind (emitTimes_writes i n)
      rwa [show i.stackEffect + n * i.stackEffect = ((n + 1 : Nat) : Int) * i.stackEffect by
        push_cast; ring] at h

theorem zeros_writes (n : Nat) : Writes (zeros n : Gen A Unit) n := by
  have h := emitTimes_writes (A := A) (.constant 0) n
  rwa [show (n : Int) * (Item.constant 0).stackEffect = n from mul_one _] at h

theorem pops_writes (n : Nat) : Writes (pops n : Gen A Unit) (-n) := by
  have h := emitTimes_writes (A := A) (.instruction .pop) n
  rwa [show (n : Int) * (Item.instruction .pop).stackEffect = -n from
    (Int.mul_neg_one (n : Int))] at h

/-- A jump takes the label, and the rest as told. -/
theorem jump_writes (difference : Int) :
    Writes (jump difference : Gen A Unit) (difference - 1) := by
  refine fun s => ⟨_, rfl, ?_⟩
  rw [Target.jump, Target.Lawful.height_setHeight, Target.Lawful.height_emit]
  show s.height + (0 - 1) + difference = _
  ring

/-- A jump to a label. -/
theorem jumpTo_writes (id : Nat) (difference : Int) :
    Writes (jumpTo id difference : Gen A Unit) difference := by
  refine fun s => ⟨_, rfl, ?_⟩
  rw [Target.jumpTo, Target.jump, Target.Lawful.height_setHeight, Target.Lawful.height_emit,
    Target.Lawful.height_emit]
  show s.height + 1 + (0 - 1) + difference = _
  ring

/-- A conditional jump takes a word. -/
theorem jumpToIf_writes (id : Nat) : Writes (jumpToIf id : Gen A Unit) (-1) := by
  refine fun s => ⟨_, rfl, ?_⟩
  rw [Target.jumpToIf, Target.Lawful.height_emit, Target.Lawful.height_emit]
  show s.height + 1 + (0 - 2) = _
  ring

theorem setLine_moves (line : Nat) : Does (setLine line) s fun _ => Moves 0 s :=
  (setLine_writes line).moves

theorem emit_moves (i : Item) : Does (emit i) s fun _ => Moves i.stackEffect s :=
  (emit_writes i).moves

theorem instruction_moves (op : Instruction) :
    Does (instruction op) s fun _ => Moves op.stackEffect s :=
  emit_moves (.instruction op)

theorem label_moves (id : Nat) : Does (label id) s fun _ => Moves 0 s := emit_moves (.label id)

theorem zeros_moves (n : Nat) : Does (zeros n) s fun _ => Moves n s := (zeros_writes n).moves

theorem pops_moves (n : Nat) : Does (pops n) s fun _ => Moves (-n) s := (pops_writes n).moves

theorem jump_moves (difference : Int) :
    Does (jump difference) s fun _ => Moves (difference - 1) s := (jump_writes difference).moves

theorem jumpTo_moves (id : Nat) (difference : Int) :
    Does (jumpTo id difference) s fun _ => Moves difference s := (jumpTo_writes id difference).moves

theorem jumpToIf_moves (id : Nat) : Does (jumpToIf id) s fun _ => Moves (-1) s :=
  (jumpToIf_writes id).moves

theorem newLabel_moves : Does newLabel s fun _ => Moves 0 s :=
  ⟨_, _, rfl, (Target.Lawful.height_newLabel s.target).trans (add_zero _).symm, rfl⟩

theorem namedLabel_moves (name : String) : Does (namedLabel name) s fun _ => Moves 0 s :=
  ⟨_, _, rfl, (Target.Lawful.height_namedLabel name s.target).trans (add_zero _).symm, rfl⟩

/-- An entry moves nothing. -/
theorem entryOf_moves (c : GenContext) (d : Declaration) :
    Does (entryOf c d) s fun _ => Moves 0 s := by
  refine Does.get ?_
  split
  · exact Does.pure (.refl s)
  · by_cases hnamed : c.namedLabels = true
    · rw [if_pos hnamed]
      exact (namedLabel_moves d.name).bind fun id t ht => ⟨id, _, rfl, ht.height, ht.slots⟩
    · rw [if_neg hnamed]
      exact newLabel_moves.bind fun id t ht => ⟨id, _, rfl, ht.height, ht.slots⟩

/-- A report moves nothing. -/
theorem reportTooDeep_moves (p : Place) (name : String) (depth : Int) :
    Does (reportTooDeep p name depth) s fun _ => Moves 0 s := by
  refine Does.bind (P := fun _ => Moves 0 s) ⟨(), _, rfl, (add_zero _).symm, rfl⟩
    fun _ t ht => ?_
  exact (instruction_moves .invalid).mono fun _ u hu => (ht.trans hu).cast rfl

section Variables

variable {c : GenContext} {p : Place} {line : Nat} {x : String} {slot : Int}

/-- The distance of a variable is found or reported. -/
theorem distance?_does {least limit : Int} (hslot : s.slot? c.scopes p.scope x = some slot)
    (hleast : least ≤ s.height - slot) :
    Does (distance? c p line x least limit) s fun r t => Moves 0 s t ∧
      ∀ distance, r = some distance → distance = s.height - slot ∧ distance ≤ limit := by
  rcases Option.bind_eq_some_iff.mp hslot with ⟨⟨d, symbol⟩, hl, hd⟩
  refine (lookup_does hl).bind ?_
  rintro _ _ ⟨rfl, rfl⟩
  refine Does.get ?_
  simp only [hd]
  refine Does.height ?_
  rw [if_neg (not_lt.mpr hleast)]
  split
  · refine (reportTooDeep_moves p x _).bind fun _ t ht => Does.pure ⟨ht, ?_⟩
    exact fun _ hc => absurd hc (by simp only [reduceCtorEq, not_false_eq_true])
  · rename_i hlimit
    refine Does.pure ⟨.refl _, fun distance hc => ?_⟩
    exact Option.some.inj hc ▸ ⟨rfl, not_lt.mp hlimit⟩

/-- A variable below the top can be copied, and if it is too deep something is put
    in its place. -/
theorem copyVariable_moves (hslot : s.slot? c.scopes p.scope x = some slot)
    (htop : slot < s.height) : Does (copyVariable c p line x) s fun _ => Moves 1 s := by
  refine (distance?_does hslot (by omega)).bind fun r t ⟨ht, hr⟩ => ?_
  cases r with
  | none => exact (zeros_moves 1).mono fun _ u hu => (ht.trans hu).cast rfl
  | some distance =>
      rcases hr distance rfl with ⟨rfl, hlimit⟩
      have hrange : 1 ≤ (s.height - slot).toNat ∧ (s.height - slot).toNat ≤ 16 := by
        rw [maxCopyDepth] at hlimit
        omega
      refine (Does.ok (P := fun op u => op = _ ∧ u = t) (dif_pos hrange) ⟨rfl, rfl⟩).bind ?_
      rintro _ _ ⟨rfl, rfl⟩
      refine (instruction_moves _).mono fun _ u hu => (ht.trans hu).cast ?_
      simp only [Instruction.stackEffect, Instruction.returns, Instruction.args, Instruction.info]
      omega

/-- A value on top of a variable can be moved into it. -/
theorem assignVariable_moves (hslot : s.slot? c.scopes p.scope x = some slot)
    (htop : slot + 1 < s.height) : Does (assignVariable c p line x) s fun _ => Moves (-1) s := by
  have hpop : ∀ t, Moves 0 s t → Does (pops 1) t fun _ => Moves (-1) s :=
    fun t ht => (pops_moves 1).mono fun _ u hu => (ht.trans hu).cast rfl
  refine (distance?_does hslot (by omega)).bind fun r t ⟨ht, hr⟩ => ?_
  cases r with
  | none => exact hpop t ht
  | some distance =>
      rcases hr distance rfl with ⟨rfl, hlimit⟩
      have hrange : 1 ≤ (s.height - slot).toNat - 1 ∧ (s.height - slot).toNat - 1 ≤ 16 := by
        rw [maxAssignDepth] at hlimit
        omega
      refine (Does.ok (P := fun op u => op = _ ∧ u = t) (dif_pos hrange) ⟨rfl, rfl⟩).bind ?_
      rintro _ _ ⟨rfl, rfl⟩
      refine (instruction_moves _).bind fun _ u hu => hpop u ((ht.trans hu).cast ?_)
      simp only [Instruction.stackEffect, Instruction.returns, Instruction.args, Instruction.info]
      omega

end Variables

/-- Instructions in a row write the sum. -/
theorem instructions_writes : ∀ ops : List Instruction,
    Writes (ops.forM instruction : Gen A Unit) (ops.map Instruction.stackEffect).sum
  | [] => fun s => ⟨s.target, rfl, (add_zero _).symm⟩
  | op :: rest => by
      simp only [List.forM_eq_forM, List.forM_cons, List.map_cons, List.sum_cons]
      exact (emit_writes (.instruction op)).bind (instructions_writes rest)

/-- The end of a function leaves the return variables and the position to return
    to, whether or not the frame can be reached. -/
theorem unwindFrame_does {p : Place} {params returns : Nat}
    (h : s.height = 1 + params + returns) : Does (unwindFrame p params returns) s fun _ t =>
      t.height = 1 + returns ∧ t.slots = s.slots := by
  have hsize := Frame.size_ofFunction params returns
  refine Does.height ?_
  -- The height is the one that is expected.
  rw [if_neg (by rw [hsize]; push_cast; omega)]
  split
  -- Too large to be unwound: the height is set as if it were.
  · refine (reportTooDeep_moves p "" _).bind fun _ t ht => ?_
    refine (setHeight_does _).mono fun _ u hu => ⟨hu.1, hu.2.trans ht.slots⟩
  · rename_i hlimit
    rw [hsize, maxAssignDepth] at hlimit
    have hfuel := Frame.card_misplaced_le (.ofFunction params returns)
    -- Otherwise the moves exist and leave the frame in order.
    rcases Frame.Settles.unwind (2 * (Frame.ofFunction params returns).size)
      (Frame.settles_ofFunction params returns) (by push_cast at hlimit; omega) (by omega) with
      ⟨moves, frame, hok, hends, hgoals⟩
    refine (Does.ok (P := fun r u => r = (moves, frame) ∧ u = s) hok ⟨rfl, rfl⟩).bind ?_
    rintro _ _ ⟨rfl, rfl⟩
    refine (instructions_writes moves).moves.bind fun _ t ht => ?_
    rw [Frame.inOrder_of_goals hends hgoals, if_pos rfl]
    refine Does.pure ⟨?_, ht.slots⟩
    -- The effects of the moves add up to the slots that are dropped.
    rw [ht.height, Frame.stackEffect_unwind _ hok, h, hends, hsize]
    push_cast
    ring

end Gen

namespace Gen

variable {A : Type}

/-- Variables get their slots one above the other, and no others are touched. -/
theorem setSlots_does (scope : Nat) : ∀ (vars : List TypedName) (first : Int) (s : GenState A),
    (vars.map (·.name)).Nodup → Does (setSlots scope first vars) s fun _ t =>
      t.target = s.target ∧
      (∀ (i : Nat) (x : TypedName), vars[i]? = some x →
        t.slots.lookup ⟨scope, x.name⟩ = some (first + i)) ∧
      ∀ n y, (n = scope → y ∉ vars.map (·.name)) →
        t.slots.lookup ⟨n, y⟩ = s.slots.lookup ⟨n, y⟩
  | [], first, s, _ => Does.pure ⟨rfl, fun i x hx => absurd hx (by simp), fun _ _ _ => rfl⟩
  | v :: rest, first, s, hnodup => by
      -- By recursion on the variables; the first one gets the first slot.
      rw [List.map_cons, List.nodup_cons] at hnodup
      refine Does.bind (P := fun _ t => t = { s with slots := (⟨scope, v.name⟩, first) :: s.slots })
        ⟨(), _, rfl, rfl⟩ ?_
      rintro _ _ rfl
      refine (setSlots_does scope rest (first + 1) _ hnodup.2).mono ?_
      rintro _ t ⟨htarget, hslots, hothers⟩
      refine ⟨htarget, ?_, ?_⟩
      · intro i x hx
        cases i with
        | zero =>
            rw [List.getElem?_cons_zero, Option.some.injEq] at hx
            subst hx
            -- It is not hidden by the others.
            rw [hothers scope v.name fun _ => hnodup.1]
            simp only [List.lookup_cons, beq_self_eq_true, Nat.cast_zero, add_zero]
        | succ i =>
            rw [List.getElem?_cons_succ] at hx
            rw [hslots i x hx]
            push_cast
            congr 1
            ring
      · intro n y hy
        -- Another declaration is different from the first one.
        have hy : n = scope → y ≠ v.name ∧ y ∉ rest.map (·.name) := by
          simpa only [List.map_cons, List.mem_cons, not_or] using hy
        rw [hothers n y fun hn => (hy hn).2]
        have hne : (⟨n, y⟩ : Declaration) ≠ ⟨scope, v.name⟩ := by
          intro hc
          rw [Declaration.mk.injEq] at hc
          exact (hy hc.1).1 hc.2
        simp only [List.lookup_cons, beq_eq_false_iff_ne.mpr hne]

/-- Declared variables get the slots of their scope. -/
theorem declareSlots_eq {c : GenContext} {p : Place} : ∀ (vars : List TypedName) (first : Int),
    (∀ x ∈ vars, c.scopes.lookup p.scope x.name = some (⟨p.scope, x.name⟩, .var x.type)) →
      (declareSlots c p first vars : Gen A Unit) = setSlots p.scope first vars
  | [], _, _ => rfl
  | v :: rest, first, h => by
      rw [declareSlots, setSlots, declareSlots_eq rest (first + 1) fun x hx =>
        h x (List.mem_cons_of_mem _ hx), lookup, h v List.mem_cons_self]
      rfl

end Gen

end YulToolchain
