import YulToolchain.Proofs.CodeGen.Height
import YulToolchain.Proofs.Static.Resolved

/-!
# Bonds between Runs

Two runs of code generation, the second of which follows the first.

What the runs have to do with each other is a relation between their states. Most of
what code generation does, it does for nothing but the height of the stack and the slots
of variables, and writes no labels. So a relation that fixes the height and the slots and
outlasts a handful of steps, the same in both runs, outlasts all of that (`Gen.Bond`).

## Main definitions

* `Gen.Carries`: If one computation succeeds then so does another, and their states stay
  in a relation.
* `Item.Plain`: Items that have to do with no label.
* `Gen.Bond`: A relation outlasts the steps that have to do with no label.
* `Place.Matches`: The same variables are in sight at two places.

## Theorems

* `Gen.Carries.bind`: Sequencing.
* `Gen.Bond.copyVariable`, `Gen.Bond.assignVariables`: The accesses to variables.
* `Gen.Bond.unwindFrame`, `Gen.Bond.closeBlock`: The ends of functions and blocks.
-/

namespace YulToolchain

/-- An item that neither marks a label nor refers to one. -/
def Item.Plain : Item → Prop
  | .label _ => False
  | .reference (.label _) => False
  | _ => True

/-- If a computation succeeds then so does another one, with a related result, and states
    that were related before are related after. -/
def Gen.Carries {A B α β : Type} (Rel : GenState A → GenState B → Prop) (m : Gen A α)
    (n : Gen B β) (R : α → β → Prop) : Prop :=
  ∀ s t a s', Rel s t → m s = .ok (a, s') → ∃ b t', n t = .ok (b, t') ∧ R a b ∧ Rel s' t'

/-- Two places see the same variables, in code that is checked alike. -/
structure Place.Matches (c c' : GenContext) (p q : Place) : Prop where
  scopes : c'.scopes = c.scopes
  flavour : c'.dialect.flavour = c.dialect.flavour
  scope : q.scope = p.scope
  function : q.function = p.function

namespace Gen

section Rules

variable {A B α β γ δ : Type} {Rel : GenState A → GenState B → Prop} {R : α → β → Prop}
  {S : γ → δ → Prop}

theorem Carries.pure {a : α} {b : β} (h : R a b) : Carries Rel (pure a) (pure b) R := by
  rintro s t _ _ hst ⟨⟩
  exact ⟨b, t, rfl, h, hst⟩

/-- What is carried one after the other. -/
theorem Carries.bind {m : Gen A α} {n : Gen B β} {f : α → Gen A γ} {g : β → Gen B δ}
    (hm : Carries Rel m n R) (hf : ∀ a b, R a b → Carries Rel (f a) (g b) S) :
    Carries Rel (m >>= f) (n >>= g) S := by
  intro s t c s' hst hrun
  rcases bind_eq_ok hrun with ⟨⟨a, s₁⟩, ha, hc⟩
  rcases hm s t a s₁ hst ha with ⟨b, t₁, hb, hab, hst₁⟩
  rcases hf a b hab s₁ t₁ c s' hst₁ hc with ⟨d, t', hd, hcd, hst'⟩
  refine ⟨d, t', ?_, hcd, hst'⟩
  show (n t >>= fun r => g r.1 r.2) = _
  rw [hb]
  exact hd

-- Equal results, and results that do not matter.
theorem Carries.same {m : Gen A α} {n : Gen B α} {f : α → Gen A γ} {g : α → Gen B δ}
    (hm : Carries Rel m n Eq) (hf : ∀ a, Carries Rel (f a) (g a) S) :
    Carries Rel (m >>= f) (n >>= g) S := hm.bind fun a _ hab => hab ▸ hf a

theorem Carries.then {m : Gen A α} {n : Gen B β} {f : α → Gen A γ} {g : β → Gen B δ}
    (hm : Carries Rel m n fun _ _ => True) (hf : ∀ a b, Carries Rel (f a) (g b) S) :
    Carries Rel (m >>= f) (n >>= g) S := hm.bind fun a b _ => hf a b

/-- A computation that fails is followed by any. -/
theorem Carries.fails {e : Failure} {n : Gen B β} :
    Carries Rel (throw e : Gen A α) n R := by
  rintro s t a s' _ ⟨⟩

/-- A check has the same result on both sides. -/
theorem Carries.orStop {ε : Type} {cause : ε → Cause} {r : Except ε α} :
    Carries Rel (orStop cause r : Gen A α) (orStop cause r : Gen B α) Eq := by
  cases r with
  | error e => exact .fails
  | ok a => exact .pure rfl

/-- Either way it is carried. -/
theorem Carries.ite {b : Prop} [Decidable b] {m m' : Gen A α} {n n' : Gen B β}
    (h : b → Carries Rel m n R) (h' : ¬ b → Carries Rel m' n' R) :
    Carries Rel (if b then m else m') (if b then n else n') R := by
  by_cases hb : b
  · rw [if_pos hb, if_pos hb]
    exact h hb
  · rw [if_neg hb, if_neg hb]
    exact h' hb

/-- Both sides find the same. -/
theorem Carries.lookup {c c' : GenContext} {p q : Place} (h : Place.Matches c c' p q)
    (line : Nat) (name : String) :
    Carries Rel (lookup c p line name : Gen A _) (lookup c' q line name : Gen B _) Eq := by
  rw [Gen.lookup, Gen.lookup, h.scopes, h.scope]
  split
  · exact .pure rfl
  · exact .fails

/-- Both sides read the same name. -/
theorem Carries.objectName (line : Nat) (function : String) (args : List Expr) :
    Carries Rel (objectName line function args : Gen A String) (objectName line function args)
      Eq := by
  rw [Gen.objectName.eq_def, Gen.objectName.eq_def]
  split
  · exact .ite (fun _ => Carries.orStop.same fun _ => .pure rfl) fun _ => .fails
  · exact .fails

end Rules

/-- A relation fixes the height of the stack and the slots of variables, and outlasts the
    steps of code generation that have to do with no label, if both runs take them. -/
structure Bond {A B : Type} [Target A] [Target B] (Rel : GenState A → GenState B → Prop) :
    Prop where
  height : ∀ s t, Rel s t → t.height = s.height
  slots : ∀ s t, Rel s t → t.slots = s.slots
  setHeight : ∀ h, Carries Rel (Gen.setHeight h) (Gen.setHeight h) fun _ _ => True
  setLine : ∀ line, Carries Rel (Gen.setLine line) (Gen.setLine line) fun _ _ => True
  emit : ∀ i : Item, i.Plain → Carries Rel (Gen.emit i) (Gen.emit i) fun _ _ => True
  setSlot : ∀ d slot, Carries Rel (Gen.setSlot d slot) (Gen.setSlot d slot) fun _ _ => True
  report : ∀ e : StackTooDeep, 0 < e.depth →
    Carries Rel (modify fun s => { s with tooDeep := e :: s.tooDeep })
      (modify fun t => { t with tooDeep := e :: t.tooDeep }) fun _ _ => True

namespace Bond

variable {A B : Type} [Target A] [Target B] {Rel : GenState A → GenState B → Prop}
  {c c' : GenContext} {p q : Place}

theorem readHeight (hb : Bond Rel) : Carries Rel (Gen.height : Gen A Int) Gen.height Eq := by
  rintro s t _ _ hst ⟨⟩
  exact ⟨t.height, t, rfl, (hb.height s t hst).symm, hst⟩

theorem instruction (hb : Bond Rel) (op : Instruction) :
    Carries Rel (instruction op : Gen A Unit) (instruction op) fun _ _ => True :=
  hb.emit _ trivial

/-- A plain item several times. -/
theorem emitTimes (hb : Bond Rel) {i : Item} (hi : i.Plain) (count : Nat) :
    Carries Rel (emitTimes i count : Gen A Unit) (emitTimes i count) fun _ _ => True := by
  induction count with
  | zero => exact .pure trivial
  | succ count ih => exact (hb.emit i hi).then fun _ _ => ih

theorem zeros (hb : Bond Rel) (count : Nat) :
    Carries Rel (zeros count : Gen A Unit) (zeros count) fun _ _ => True :=
  hb.emitTimes (i := .constant 0) trivial count

theorem pops (hb : Bond Rel) (count : Nat) :
    Carries Rel (pops count : Gen A Unit) (pops count) fun _ _ => True :=
  hb.emitTimes (i := .instruction .pop) trivial count

/-- Instructions in a row. -/
theorem instructions (hb : Bond Rel) : ∀ ops : List Instruction,
    Carries Rel (ops.forM Gen.instruction : Gen A Unit) (ops.forM Gen.instruction)
      fun _ _ => True
  | [] => .pure trivial
  | op :: ops => (hb.instruction op).then fun _ _ => hb.instructions ops

/-- A jump and the height behind it. -/
theorem jump (hb : Bond Rel) (difference : Int) :
    Carries Rel (jump difference : Gen A Unit) (jump difference) fun _ _ => True :=
  show Carries Rel (Gen.instruction .jump >>= fun _ => Gen.height >>= fun h =>
      Gen.setHeight (h + difference))
    (Gen.instruction .jump >>= fun _ => Gen.height >>= fun h => Gen.setHeight (h + difference)) _
  from (hb.instruction .jump).then fun _ _ => hb.readHeight.same fun _ => hb.setHeight _

/-- Jumps to labels are bound if references to the labels are. -/
theorem jumpTo (hb : Bond Rel) {id id' : Nat}
    (hid : Carries Rel (Gen.emit (.reference (.label id))) (Gen.emit (.reference (.label id')))
      fun _ _ => True) (difference : Int) :
    Carries Rel (jumpTo id difference : Gen A Unit) (jumpTo id' difference) fun _ _ => True :=
  show Carries Rel (Gen.emit (.reference (.label id)) >>= fun _ => Gen.jump difference)
    (Gen.emit (.reference (.label id')) >>= fun _ => Gen.jump difference) _
  from hid.then fun _ _ => hb.jump difference

/-- A conditional jump, to labels that are carried. -/
theorem jumpToIf (hb : Bond Rel) {id id' : Nat}
    (hid : Carries Rel (Gen.emit (.reference (.label id))) (Gen.emit (.reference (.label id')))
      fun _ _ => True) :
    Carries Rel (jumpToIf id : Gen A Unit) (jumpToIf id') fun _ _ => True :=
  show Carries Rel (Gen.emit (.reference (.label id)) >>= fun _ => Gen.instruction .jumpi)
    (Gen.emit (.reference (.label id')) >>= fun _ => Gen.instruction .jumpi) _
  from hid.then fun _ _ => hb.instruction .jumpi

theorem expectHeight (hb : Bond Rel) (line : Nat) (expected : Int) (place : String) :
    Carries Rel (expectHeight line expected place : Gen A Unit) (expectHeight line expected place)
      fun _ _ => True :=
  hb.readHeight.same fun _ => .ite (fun _ => .fails) fun _ => .pure trivial

theorem popUntil (hb : Bond Rel) (h : Int) :
    Carries Rel (popUntil h : Gen A Int) (popUntil h) Eq :=
  hb.readHeight.same fun _ => (hb.pops _).then fun _ _ => .pure rfl

/-- The same slots. -/
theorem setSlots (hb : Bond Rel) (scope : Nat) : ∀ (vars : List TypedName) (first : Int),
    Carries Rel (setSlots scope first vars : Gen A Unit) (setSlots scope first vars)
      fun _ _ => True
  | [], _ => .pure trivial
  | v :: rest, first => (hb.setSlot ⟨scope, v.name⟩ first).then fun _ _ =>
      hb.setSlots scope rest (first + 1)

/-- The same slots again, each for a declaration that is looked up. -/
theorem declareSlots (hb : Bond Rel) (h : Place.Matches c c' p q) :
    ∀ (vars : List TypedName) (first : Int),
      Carries Rel (declareSlots c p first vars : Gen A Unit) (declareSlots c' q first vars)
        fun _ _ => True
  | [], _ => .pure trivial
  | v :: rest, first => (Carries.lookup h v.line v.name).same fun found =>
      (hb.setSlot found.1 first).then fun _ _ => hb.declareSlots h rest (first + 1)

/-- The same report. -/
theorem reportTooDeep (hb : Bond Rel) (h : Place.Matches c c' p q) (name : String) {depth : Int}
    (hdepth : 0 < depth) :
    Carries Rel (reportTooDeep p name depth : Gen A Unit) (reportTooDeep q name depth)
      fun _ _ => True := by
  rw [Gen.reportTooDeep, Gen.reportTooDeep, h.function]
  exact (hb.report ⟨p.function, name, depth⟩ hdepth).then fun _ _ => hb.instruction .invalid

/-- The same distance, or the same report. -/
theorem distance? (hb : Bond Rel) (h : Place.Matches c c' p q) (line : Nat) (name : String)
    (least limit : Int) :
    Carries Rel (distance? c p line name least limit : Gen A _)
      (distance? c' q line name least limit) Eq := by
  refine (Carries.lookup h line name).same fun found => ?_
  refine Carries.bind (R := fun s t => t.slots = s.slots) ?_ fun s t hslots => ?_
  · rintro s t _ _ hst ⟨⟩
    exact ⟨t, t, rfl, hb.slots s t hst, hst⟩
  simp only [hslots]
  split
  · exact .fails
  · refine hb.readHeight.same fun height => ?_
    refine .ite (fun _ => .fails) fun _ => ?_
    refine .ite (fun hlimit => ?_) fun _ => .pure rfl
    exact (hb.reportTooDeep h name (by omega)).then fun _ _ => .pure rfl

/-- The same copy. -/
theorem copyVariable (hb : Bond Rel) (h : Place.Matches c c' p q) (line : Nat) (name : String) :
    Carries Rel (copyVariable c p line name : Gen A Unit) (copyVariable c' q line name)
      fun _ _ => True := by
  refine (hb.distance? h line name 1 maxCopyDepth).same fun found => ?_
  cases found with
  | none => exact hb.zeros 1
  | some distance => exact Carries.orStop.same fun op => hb.instruction op

/-- The same assignment. -/
theorem assignVariable (hb : Bond Rel) (h : Place.Matches c c' p q) (line : Nat)
    (name : String) :
    Carries Rel (assignVariable c p line name : Gen A Unit) (assignVariable c' q line name)
      fun _ _ => True := by
  refine (hb.distance? h line name 2 maxAssignDepth).same fun found => ?_
  cases found with
  | none => exact hb.pops 1
  | some distance =>
      exact Carries.orStop.same fun op => (hb.instruction op).then fun _ _ => hb.pops 1

/-- Assignments in a row. -/
theorem assignVariables (hb : Bond Rel) (h : Place.Matches c c' p q) :
    ∀ targets : List Identifier,
      Carries Rel (assignVariables c p targets : Gen A Unit) (assignVariables c' q targets)
        fun _ _ => True
  | [] => .pure trivial
  | v :: rest => (hb.assignVariables h rest).then fun _ _ => hb.assignVariable h v.line v.name

/-- The same moves. -/
theorem unwindFrame (hb : Bond Rel) (h : Place.Matches c c' p q) (params returns : Nat) :
    Carries Rel (unwindFrame p params returns : Gen A Unit) (unwindFrame q params returns)
      fun _ _ => True := by
  refine hb.readHeight.same fun actual => ?_
  refine .ite (fun _ => .fails) fun _ => .ite (fun hlimit => ?_) fun _ => ?_
  · exact (hb.reportTooDeep h "" (by omega)).then fun _ _ => hb.setHeight _
  · refine Carries.orStop.same fun ⟨moves, frame⟩ => ?_
    refine (hb.instructions moves).then fun _ _ => ?_
    exact .ite (fun _ => .pure trivial) fun _ => .fails

/-- The same variables are dropped. -/
theorem closeBlock (hb : Bond Rel) (h : Place.Matches c c' p q) (scope line : Nat)
    (before : Int) :
    Carries Rel (closeBlock c scope line before : Gen A Unit) (closeBlock c' scope line before)
      fun _ _ => True := by
  rw [Gen.closeBlock, Gen.closeBlock, h.scopes, h.flavour]
  refine (hb.setLine line).then fun _ _ => (hb.pops _).then fun _ _ => ?_
  exact .ite (fun _ => hb.expectHeight line before "block") fun _ => .pure trivial

/-- The same word. -/
theorem literal (hb : Bond Rel) (l : Literal) :
    Carries Rel (Gen.literal l : Gen A Unit) (Gen.literal l) fun _ _ => True := by
  rw [Gen.literal, Gen.literal]
  split
  · exact (hb.setLine l.line).then fun _ _ => hb.emit _ trivial
  · exact .fails

/-- A question about an object is bound if both runs know the same objects. -/
theorem objectQuery (hb : Bond Rel) (hobjects : c'.objects = c.objects) (line : Nat)
    (function : String) (args : List Expr) {own : Item} (hown : own.Plain)
    {attachment : Nat → Reference} (hattachment : ∀ id, (Item.reference (attachment id)).Plain) :
    Carries Rel (objectQuery c line function args own attachment : Gen A Unit)
      (objectQuery c' line function args own attachment) fun _ _ => True := by
  rw [Gen.objectQuery, Gen.objectQuery, hobjects]
  refine (Carries.objectName line function args).same fun name => ?_
  refine .ite (fun _ => hb.emit own hown) fun _ => ?_
  split
  · exact hb.emit _ (hattachment _)
  · exact .fails

end Bond

end Gen

end YulToolchain
