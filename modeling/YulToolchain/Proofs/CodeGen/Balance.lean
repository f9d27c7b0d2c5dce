import YulToolchain.Proofs.CodeGen.Height
import YulToolchain.Proofs.Static.Resolved

/-!
# Code Generation Is Total and Balanced

Code can be generated for every program that is read and accepted, and the stack is
as high behind the program as in front of it.

Code generation checks the height wherever two paths join, the slot of every
variable that is accessed, and the frame of every function, and breaks off if
something is wrong. None of these checks ever fails. What keeps them is one
invariant: every variable in sight has a slot below the top of the stack
(`Seated`). Expressions only push on top of that. A declaration puts its values on
top and makes the slots they are in those of its variables, and a block drops as
many slots as its scope has variables.

An access that reaches too deep is recorded and everything goes on as if it had
worked, so all of this holds whether or not anything was recorded.

## Main definitions

* `Block.objectNames`: The objects that the code of a program refers to.
* `ObjectNames.Knows`: An object is the current one, or attached.
* `Seated`: Every variable in sight has a slot below the top.
* `Shifts`: The height has changed, and the slots of outer scopes have not.
* `Settled`: What is left behind code that declares some variables.
* `Ready`: Code can be generated at a place.
* `Block.Keeps`, `Stmt.Balances`: Code can be generated, and what it leaves behind.

## Theorems

* `Expr.generate_moves`: An expression leaves its values on the stack.
* `Stmt.Balances.func`, `Stmt.Balances.loop` and so on: One for each kind of statement, from what is
  known of its parts.
* `Stmt.generate_settled`: A statement leaves the variables it declares.
* `Block.generate_shifts`: A block leaves nothing.
* `generate_balanced`: Programs that are read and accepted.
-/

namespace YulToolchain

/-- The object that a literal names. -/
def Expr.objectName? : Expr → Option String
  | .literal l => match l.stringBytes with
    | .ok bytes => some (String.ofList (Text.ofBytes bytes))
    | .error _ => none
  | _ => none

mutual

/-- The objects whose size or offset an expression asks for. -/
def Expr.objectNames (d : Dialect) : Expr → List String
  | .literal _ => []
  | .ident _ _ => []
  | .instr _ _ args => Expr.objectNamesAll d args
  | .call _ name args => match (d.builtin? name).map Builtin.code with
    | some BuiltinCode.dataSize => args.filterMap Expr.objectName?
    | some BuiltinCode.dataOffset => args.filterMap Expr.objectName?
    | _ => Expr.objectNamesAll d args

/-- The objects whose size or offset some expressions ask for. -/
def Expr.objectNamesAll (d : Dialect) : List Expr → List String
  | [] => []
  | e :: rest => e.objectNames d ++ Expr.objectNamesAll d rest

end

/-- The objects whose size or offset a program asks for. -/
def Block.objectNames (d : Dialect) (b : Block) : List String :=
  b.allStmts.flatMap fun s => Expr.objectNamesAll d s.exprsHere

/-- An object is the current one, or attached to it. -/
def ObjectNames.Knows (objects : ObjectNames) (name : String) : Prop :=
  objects.current = some name ∨ ∃ id, objects.attached.lookup name = some id

/-- All objects that some statements refer to are known. -/
def GenContext.KnowsAll (c : GenContext) (stmts : List Stmt) : Prop :=
  ∀ s ∈ stmts, ∀ name ∈ Expr.objectNamesAll c.dialect s.exprsHere, c.objects.Knows name

/-- Every variable in sight has a slot below the top of the stack. -/
def Seated {A : Type} [Target A] (ss : Scopes) (scope : Nat) (v : Sight) (s : GenState A) : Prop :=
  ∀ x ∈ v.visible, ∃ slot, s.slot? ss scope x = some slot ∧ slot < s.height

/-- The height has changed by a difference, and the variables of the scopes below a
    number have kept their slots. -/
structure Shifts {A : Type} [Target A] (next : Nat) (difference : Int) (s t : GenState A) :
    Prop where
  height : t.height = s.height + difference
  slots : ∀ n y, n < next → t.slots.lookup ⟨n, y⟩ = s.slots.lookup ⟨n, y⟩

/-- What is left behind code of a scope that declares some variables: their values
    on the stack, and slots for everything in sight. -/
structure Settled {A : Type} [Target A] (ss : Scopes) (scope next : Nat) (v : Sight)
    (names : List String) (s t : GenState A) : Prop where
  height : t.height = s.height + names.length
  slots : ∀ n y, n < next → (n = scope → y ∉ names) →
    t.slots.lookup ⟨n, y⟩ = s.slots.lookup ⟨n, y⟩
  seated : Seated ss scope v t

/-- Code can be generated at a place: what is in sight is found in the scopes and has
    a slot, and a loop that can be left has its height below. -/
structure Ready {A : Type} [Target A] (c : GenContext) (p : Place) (next : Nat) (v : Sight)
    (inLoop : Bool) (s : GenState A) : Prop where
  tells : c.scopes.Tells p.scope next v
  seated : Seated c.scopes p.scope v s
  loop : inLoop = true → ∃ targets, p.loop = some targets ∧ targets.height ≤ s.height

section Slots

variable {A : Type} [Target A] {ss : Scopes} {scope next : Nat} {v : Sight} {s t u : GenState A}
  {δ ε : Int}

theorem Moves.shifts (h : Moves δ s t) (next : Nat) : Shifts next δ s t :=
  ⟨h.height, fun _ _ _ => by rw [h.slots]⟩

theorem Shifts.trans (h : Shifts next δ s t) (h' : Shifts next ε t u) : Shifts next (δ + ε) s u :=
  ⟨by rw [h'.height, h.height, add_assoc], fun n y hn => (h'.slots n y hn).trans (h.slots n y hn)⟩

theorem Shifts.cast (h : Shifts next δ s t) (hδ : δ = ε) : Shifts next ε s t := hδ ▸ h

theorem Shifts.mono {next' : Nat} (h : Shifts next' δ s t) (hle : next ≤ next') :
    Shifts next δ s t := ⟨h.height, fun n y hn => h.slots n y (Nat.lt_of_lt_of_le hn hle)⟩

/-- Code inside a scope of its own touches none of the slots around it. -/
theorem Settled.shifts {names : List String} (h : Settled ss next (next + 1) v names s t) :
    Shifts next names.length s t :=
  ⟨h.height, fun n y hn => h.slots n y (by omega) fun hc => absurd hc (by omega)⟩

/-- What is in sight stays seated unless it is declared again. -/
theorem Seated.kept (h : Seated ss scope v s) (ht : ss.Tells scope next v)
    (hheight : s.height ≤ t.height) (hslots : ∀ n y, n < next → y ∈ v.visible →
      t.slots.lookup ⟨n, y⟩ = s.slots.lookup ⟨n, y⟩) : Seated ss scope v t := by
  intro x hx
  rcases h x hx with ⟨slot, hslot, htop⟩
  rcases ht.seen x hx with ⟨n, type, hl, hn⟩
  refine ⟨slot, ?_, Int.lt_of_lt_of_le htop hheight⟩
  rw [GenState.slot?, hl, Option.bind_some] at hslot ⊢
  rw [hslots n x hn hx, hslot]

theorem Seated.shifts (h : Seated ss scope v s) (ht : ss.Tells scope next v)
    (hs : Shifts next δ s t) (hδ : 0 ≤ δ) : Seated ss scope v t :=
  h.kept ht (by rw [hs.height]; omega) fun n y hn _ => hs.slots n y hn

/-- From inside a block the variables around it have the same slots. -/
theorem Seated.inherits {inner : Nat} (h : Seated ss scope v s)
    (hin : ∀ x ∈ v.visible, ss.lookup inner x = ss.lookup scope x) : Seated ss inner v s := by
  intro x hx
  rw [GenState.slot?, hin x hx]
  exact h x hx

-- Code that declares nothing leaves everything seated.
theorem Shifts.settled (h : Shifts next 0 s t) (ht : ss.Tells scope next v)
    (hs : Seated ss scope v s) : Settled ss scope next v [] s t :=
  ⟨h.height, fun n y hn _ => h.slots n y hn, hs.shifts ht h (le_refl 0)⟩

/-- What settles one after the other. -/
theorem Settled.trans {v' : Sight} {names names' : List String} {next' : Nat}
    (h : Settled ss scope next v names s t) (h' : Settled ss scope next' v' names' t u)
    (hle : next ≤ next') : Settled ss scope next v' (names ++ names') s u := by
  refine ⟨?_, ?_, h'.seated⟩
  · rw [h'.height, h.height, List.length_append]
    push_cast
    ring
  · intro n y hn hy
    simp only [List.mem_append, not_or] at hy
    rw [h'.slots n y (Nat.lt_of_lt_of_le hn hle) fun hs => (hy hs).2,
      h.slots n y hn fun hs => (hy hs).1]

variable {c : GenContext} {p : Place} {inLoop : Bool}

/-- A place stays ready where the height does not sink. -/
theorem Ready.shifts (h : Ready c p next v inLoop s) (hs : Shifts next δ s t) (hδ : 0 ≤ δ) :
    Ready c p next v inLoop t := by
  refine ⟨h.tells, h.seated.shifts h.tells hs hδ, fun hl => ?_⟩
  rcases h.loop hl with ⟨targets, hp, hle⟩
  exact ⟨targets, hp, by rw [hs.height]; omega⟩

theorem Ready.later {next' : Nat} (h : Ready c p next v inLoop s) (hle : next ≤ next') :
    Ready c p next' v inLoop s := ⟨h.tells.later hle, h.seated, h.loop⟩

theorem Ready.enter {stmts : List Stmt} (h : Ready c p next v inLoop s)
    (hin : c.scopes.Inherits next p.scope v) (ho : c.scopes.Opened next stmts) :
    Ready c { p with scope := next } (next + 1) (v.enter stmts) inLoop s :=
  ⟨h.tells.enter hin ho, h.seated.inherits hin.vars, h.loop⟩

/-- Behind some statements of a scope its loop can still be left. -/
theorem Ready.settled {v' : Sight} {names : List String} {next' : Nat}
    (h : Ready c p next v inLoop s) (hs : Settled c.scopes p.scope next v' names s t)
    (ht : c.scopes.Tells p.scope next' v') : Ready c p next' v' inLoop t := by
  refine ⟨ht, hs.seated, fun hl => ?_⟩
  rcases h.loop hl with ⟨targets, hp, hle⟩
  refine ⟨targets, hp, ?_⟩
  rw [hs.height]
  omega

end Slots

open Gen

section Expressions

variable {A : Type} [Target A] [Target.Lawful A] {c : GenContext} {p : Place} {next : Nat}
  {v : Sight}

/-- A literal moves the height by one. -/
theorem Gen.literal_moves {s : GenState A} {l : Literal} {w : Word} (h : l.value = .ok w) :
    Does (Gen.literal l) s fun _ => Moves 1 s := by
  rw [Gen.literal, h]
  refine (setLine_moves l.line).bind fun _ t ht => ?_
  exact (emit_moves (.constant w)).mono fun _ u hu => (ht.trans hu).cast rfl

-- The one argument of a question about an object is a string, and names an object that
-- is known.
/-- A query moves the height by one, where the object is known. -/
theorem Gen.objectQuery_moves {s : GenState A} {line : Nat} {function : String}
    {args : List Expr} {own : Item} {attachment : Nat → Reference} (hlen : args.length = 1)
    (htext : ∀ e ∈ args, e.Textual)
    (hobjects : ∀ name ∈ args.filterMap Expr.objectName?, c.objects.Knows name)
    (hown : own.stackEffect = 1) :
    Does (objectQuery c line function args own attachment) s fun _ => Moves 1 s := by
  obtain ⟨e, rfl⟩ := List.length_eq_one_iff.mp hlen
  have he := htext e List.mem_cons_self
  cases e with
  | literal l =>
      rcases he with ⟨hkind, bytes, hbytes⟩
      have hknown : c.objects.Knows (String.ofList (Text.ofBytes bytes)) :=
        hobjects _ (by simp only [List.filterMap_cons, Expr.objectName?, hbytes,
          List.filterMap_nil, List.mem_singleton])
      have hname : Does (objectName line function [.literal l]) s fun name t =>
          name = String.ofList (Text.ofBytes bytes) ∧ t = s := by
        rw [objectName, if_pos hkind, hbytes]
        exact Does.pure ⟨rfl, rfl⟩
      refine hname.bind ?_
      rintro _ _ ⟨rfl, rfl⟩
      -- Either the object itself is asked for, or one that it knows.
      split
      · exact (emit_moves own).mono fun _ _ h => h.cast hown
      · rename_i hother
        rcases hknown.resolve_left hother with ⟨id, hid⟩
        rw [hid]
        exact emit_moves (.reference (attachment id))
  | _ => exact he.elim

omit [Target.Lawful A] in
mutual

/-- An expression leaves its values on the stack. -/
theorem Expr.generate_moves [Target.Lawful A] (ht : c.scopes.Tells p.scope next v) :
    -- By recursion on the expression; the height moves by as many words as it yields.
    ∀ (e : Expr) {n : Nat}
    {s : GenState A}, e.Yields c.dialect v n →
      (∀ name ∈ e.objectNames c.dialect, c.objects.Knows name) → Seated c.scopes p.scope v s →
      Does (e.generate c p) s fun _ => Moves n s
  | .literal l, n, s, hy, _, _ => by
      rw [Expr.Yields] at hy
      rcases hy with ⟨⟨w, hw⟩, rfl⟩
      rw [Expr.generate]
      exact Gen.literal_moves hw
  | .ident line x, n, s, hy, _, hs => by
      rw [Expr.Yields] at hy
      rcases hy with ⟨hx, rfl⟩
      -- The variable is seated below the top, so its slot is known.
      rcases ht.seen x hx with ⟨m, type, hl, _⟩
      rcases hs x hx with ⟨slot, hslot, htop⟩
      rw [Expr.generate]
      refine (lookup_does hl).bind ?_
      rintro _ _ ⟨rfl, rfl⟩
      exact copyVariable_moves hslot htop
  | .instr line op args, n, s, hy, ho, hs => by
      rw [Expr.Yields] at hy
      rcases hy with ⟨_, hlen, rfl, hones⟩
      rw [Expr.objectNames] at ho
      rw [Expr.generate]
      -- First the arguments, then the instruction on their words.
      refine (Expr.generateArgs_moves ht args hones ho hs).bind fun _ t h₁ => ?_
      refine (setLine_moves line).bind fun _ u h₂ => ?_
      refine (instruction_moves op).mono fun _ w h₃ => ((h₁.trans h₂).trans h₃).cast ?_
      rw [Instruction.stackEffect, hlen]
      ring
  | .call line name args, n, s, hy, ho, hs => by
      rw [Expr.Yields] at hy
      rw [Expr.objectNames] at ho
      rw [Expr.generate]
      rcases hb : c.dialect.builtin? name with _ | b
      · -- A function of the program.
        simp only [hb] at hy ho ⊢
        rcases hy with ⟨f, hf, hlen, rfl, hones⟩
        rcases ht.called name f hf with ⟨m, hl, _⟩
        refine (lookup_does hl).bind ?_
        rintro _ _ ⟨rfl, rfl⟩
        refine newLabel_moves.bind fun back s₁ h₁ => ?_
        refine (emit_moves (.reference (.label back))).bind fun _ s₂ h₂ => ?_
        have h₁₂ := h₁.trans h₂
        -- The label to return to is on the stack while the arguments are generated.
        refine (Expr.generateArgs_moves ht args hones ho (hs.shifts ht (h₁₂.shifts next) ?_)).bind
          fun _ s₃ h₃ => ?_
        · simp only [Item.stackEffect]
          omega
        refine (entryOf_moves c _).bind fun entry s₄ h₄ => ?_
        refine (setLine_moves line).bind fun _ s₅ h₅ => ?_
        refine (jumpTo_moves entry _).bind fun _ s₆ h₆ => ?_
        refine (label_moves back).mono fun _ s₇ h₇ => ?_
        refine (((((h₁₂.trans h₃).trans h₄).trans h₅).trans h₆).trans h₇).cast ?_
        simp only [Item.stackEffect, hlen, List.length_map]
        ring
      · have hcases := Dialect.builtin?_cases hb
        simp only [hb, Option.map_some] at hy ho ⊢
        rcases hy with ⟨hlen, rfl, hargs⟩
        -- One case for each way in which the builtin is compiled.
        rcases hcode : b.code with op | _ | _ | _ | _
        · -- An instruction.
          obtain rfl := (Dialect.builtin?_instruction hb hcode).2
          simp only [Builtin.ofInstruction] at ho ⊢
          refine (Expr.generateArgs_moves ht args hargs ho hs).bind fun _ t h₁ => ?_
          refine (instruction_moves op).mono fun _ u h₂ => (h₁.trans h₂).cast ?_
          rw [Instruction.stackEffect, hlen]
          simp only [Builtin.ofInstruction]
          ring
        · rcases Dialect.builtin?_query hb (.inl hcode) with ⟨hp, hr, htext⟩
          simp only [hcode] at ho ⊢
          rw [if_pos htext] at hargs
          rw [hr]
          exact objectQuery_moves (hlen.trans hp) hargs ho rfl
        · rcases Dialect.builtin?_query hb (.inr hcode) with ⟨hp, hr, htext⟩
          simp only [hcode] at ho ⊢
          rw [if_pos htext] at hargs
          rw [hr]
          exact objectQuery_moves (hlen.trans hp) hargs ho rfl
        · obtain rfl := Dialect.builtin?_dataCopy hb hcode
          simp only [Builtin.dataCopy] at ho ⊢
          refine (Expr.generateArgs_moves ht args hargs ho hs).bind fun _ t h₁ => ?_
          refine (instruction_moves .codecopy).mono fun _ u h₂ => (h₁.trans h₂).cast ?_
          rw [hlen]
          rfl
        · -- Nothing but the effect on the stack.
          simp only [hcode] at ho ⊢
          by_cases htext : b.literalArguments = true
          · simp only [if_pos htext]
            exact zeros_moves b.returns
          · rw [if_neg htext] at hargs
            simp only [if_neg htext]
            refine (Expr.generateArgs_moves ht args hargs ho hs).bind fun _ t h₁ => ?_
            refine (pops_moves args.length).bind fun _ u h₂ => ?_
            refine (zeros_moves b.returns).mono fun _ w h₃ => ((h₁.trans h₂).trans h₃).cast ?_
            ring

/-- Arguments leave one value each. -/
theorem Expr.generateArgs_moves [Target.Lawful A] (ht : c.scopes.Tells p.scope next v) :
    ∀ (args : List Expr)
    {s : GenState A}, Expr.YieldOnes c.dialect v args →
      (∀ name ∈ Expr.objectNamesAll c.dialect args, c.objects.Knows name) →
      Seated c.scopes p.scope v s →
      Does (Expr.generateArgs c p args) s fun _ => Moves args.length s
  | [], s, _, _, _ => by
      rw [Expr.generateArgs]
      exact Does.pure (.refl s)
  | e :: rest, s, hy, ho, hs => by
      rw [Expr.YieldOnes] at hy
      rw [Expr.objectNamesAll] at ho
      rw [Expr.generateArgs]
      -- The later arguments come first and leave the others seated.
      refine (Expr.generateArgs_moves ht rest hy.2
        (fun name h => ho name (List.mem_append_right _ h)) hs).bind fun _ t h₁ => ?_
      refine (Expr.generate_moves ht e hy.1 (fun name h => ho name (List.mem_append_left _ h))
        (hs.shifts ht (h₁.shifts next) (Int.natCast_nonneg _))).mono fun _ u h₂ =>
          (h₁.trans h₂).cast ?_
      rw [List.length_cons]
      push_cast
      rfl

end

end Expressions

section Statements

variable {A : Type} [Target A] {c : GenContext} {p : Place} {next : Nat} {v : Sight}
  {inLoop : Bool}

theorem GenContext.KnowsAll.sub {stmts stmts' : List Stmt} (h : c.KnowsAll stmts)
    (hsub : ∀ s ∈ stmts', s ∈ stmts) : c.KnowsAll stmts' := fun s hs => h s (hsub s hs)

/-- The objects of the expression of a statement. -/
theorem GenContext.KnowsAll.expr {s : Stmt} {rest : List Stmt} {e : Expr}
    (h : c.KnowsAll (s :: rest)) (he : s.exprsHere = [e]) :
    ∀ name ∈ e.objectNames c.dialect, c.objects.Knows name := by
  intro name hname
  refine h s List.mem_cons_self name ?_
  rw [he, Expr.objectNamesAll, Expr.objectNamesAll, List.append_nil]
  exact hname

/-- Declared variables are seated in the slots that hold their values. -/
theorem Gen.declareSlots_settled {d : Dialect} {vars : List TypedName} {s t : GenState A}
    (hr : Ready c p next v inLoop s)
    (hfree : v.Free d (vars.map (·.name))) (hdecl : c.scopes.Declares p.scope vars)
    (hvalues : Moves vars.length s t) :
    Does (declareSlots c p s.height vars) t fun _ u =>
      Settled c.scopes p.scope next (v.declare (vars.map (·.name))) (vars.map (·.name)) s u := by
  rw [declareSlots_eq vars s.height hdecl]
  refine (setSlots_does p.scope vars s.height t hfree.1).mono ?_
  rintro _ u ⟨htarget, hslots, hothers⟩
  -- The values are on the stack already.
  have hheight : u.height = s.height + vars.length := by
    rw [GenState.height, htarget]
    exact hvalues.height
  -- Only slots of the new names change.
  have hkept : ∀ n y, n < next → (n = p.scope → y ∉ vars.map (·.name)) →
      u.slots.lookup ⟨n, y⟩ = s.slots.lookup ⟨n, y⟩ := by
    intro n y _ hy
    rw [hothers n y hy, hvalues.slots]
  refine ⟨by rw [hheight, List.length_map], hkept, ?_⟩
  intro x hx
  -- A variable that was visible is not hidden, so its seat stays.
  rcases Sight.mem_visible_declare hx with hx | hx
  · refine hr.seated.kept hr.tells (by omega) (fun n y hn hy => hkept n y hn ?_) x hx
    exact fun _ hc => (hfree.2 y hc).2.2 (Sight.mem_taken.mpr (Or.inr (Or.inl hy)))
  -- A new variable is seated at its value.
  · rcases List.mem_map.mp hx with ⟨y, hy, rfl⟩
    rcases List.mem_iff_getElem?.mp hy with ⟨i, hi⟩
    refine ⟨s.height + i, ?_, ?_⟩
    · rw [GenState.slot?, hdecl y hy, Option.bind_some, hslots i y hi]
    · have := (List.getElem?_eq_some_iff.mp hi).1
      omega

/-- The stack at the start of a function: the position to return to, the arguments
    and zeros for the return variables. -/
theorem Ready.enterFunction {s : GenState A} {name : String}
    {params returns : List TypedName} (ht : c.scopes.Tells p.scope next v)
    (hin : ∀ x f, v.functions.find? x = some f →
      c.scopes.lookup next x = c.scopes.lookup p.scope x)
    (hdecl : c.scopes.Declares next (params ++ returns))
    (hparams : ∀ (i : Nat) (x : TypedName), params.reverse[i]? = some x →
      s.slots.lookup ⟨next, x.name⟩ = some (1 + i))
    (hreturns : ∀ (i : Nat) (x : TypedName), returns[i]? = some x →
      s.slots.lookup ⟨next, x.name⟩ = some (1 + params.length + i))
    (hheight : s.height = 1 + params.length + returns.length) :
    Ready c ⟨next, none, name⟩ (next + 1) (v.enterFunction ((params ++ returns).map (·.name)))
      false s := by
  refine ⟨ht.enterFunction hin hdecl, ?_, fun hc => absurd hc Bool.noConfusion⟩
  intro x hx
  simp only [Sight.enterFunction, Sight.visible, List.flatten_cons, List.flatten_nil,
    List.append_nil] at hx
  rcases List.mem_map.mp hx with ⟨y, hy, rfl⟩
  rw [GenState.slot?, hdecl y hy, Option.bind_some]
  -- Parameters and return variables have the slots of the frame.
  rcases List.mem_append.mp hy with hy | hy
  · rcases List.mem_iff_getElem?.mp (List.mem_reverse.mpr hy) with ⟨i, hi⟩
    have := (List.getElem?_eq_some_iff.mp hi).1
    rw [List.length_reverse] at this
    exact ⟨_, hparams i y hi, by omega⟩
  · rcases List.mem_iff_getElem?.mp hy with ⟨i, hi⟩
    have := (List.getElem?_eq_some_iff.mp hi).1
    exact ⟨_, hreturns i y hi, by omega⟩

variable [Target.Lawful A]

-- The value of the last target is on top, and each assignment takes one value off.
/-- One value less for each target, down to none. -/
theorem Gen.assignVariables_moves : ∀ (targets : List Identifier) {s : GenState A},
    (∀ x ∈ targets, ∃ slot, s.slot? c.scopes p.scope x.name = some slot ∧
      slot + targets.length < s.height) →
      Does (assignVariables c p targets) s fun _ => Moves (-targets.length) s
  | [], s, _ => Does.pure (.refl s)
  | x :: rest, s, h => by
      rw [assignVariables]
      simp only [List.length_cons, Nat.cast_add, Nat.cast_one] at h ⊢
      refine (assignVariables_moves rest fun y hy => ?_).bind fun _ t ht => ?_
      · rcases h y (List.mem_cons_of_mem _ hy) with ⟨slot, hslot, htop⟩
        exact ⟨slot, hslot, by omega⟩
      · rcases h x List.mem_cons_self with ⟨slot, hslot, htop⟩
        refine (assignVariable_moves ((ht.slot? _ _ _).trans hslot) ?_).mono fun _ u hu => ?_
        · rw [ht.height]
          omega
        · exact (ht.trans hu).cast (by ring)

/-- As many pops as there are variables. -/
theorem Gen.closeBlock_moves {s : GenState A} {scope line : Nat} {before : Int}
    (h : s.height = before + c.scopes.variableCount scope) :
    Does (closeBlock c scope line before) s fun _ =>
      Moves (-c.scopes.variableCount scope) s := by
  refine (setLine_moves line).bind fun _ t ht => ?_
  refine (pops_moves _).bind fun _ u hu => ?_
  have hsu := (ht.trans hu).cast (zero_add _)
  split
  · refine (expectHeight_does ?_).mono fun _ w hw => (hsu.trans hw).cast (add_zero _)
    rw [hsu.height, h]
    ring
  · exact Does.pure hsu

/-- Leaving a loop drops what lies above its height, and the code behind goes on as
    if nothing had been dropped. -/
theorem Gen.leaveBody_moves {s : GenState A} {line : Nat} {goal : LoopTargets → Nat}
    (h : ∃ targets, p.loop = some targets ∧ targets.height ≤ s.height) :
    Does (leaveBody p line goal) s fun _ => Moves 0 s := by
  rcases h with ⟨targets, hp, hle⟩
  rw [leaveBody, hp]
  refine Does.bind (P := fun popped t => popped = s.height - targets.height ∧ Moves (-popped) s t)
    ?_ ?_
  · refine Does.height ?_
    refine (pops_moves _).bind fun _ t ht => Does.pure ⟨rfl, ht.cast ?_⟩
    rw [Int.toNat_of_nonneg (by omega)]
  · rintro popped t ⟨_, ht⟩
    exact (jumpTo_moves _ popped).mono fun _ u hu => (ht.trans hu).cast (by ring)

-- The cases below open the generator by its equations.
attribute [local simp] Block.generate Stmt.generateSeq Stmt.generate Case.generateTests
  Case.generateBodies

/-- Code can be generated for a block, and it leaves the stack as it found it. -/
def Block.Keeps (A : Type) [Target A] (c : GenContext) (b : Block) : Prop :=
  ∀ ⦃p : Place⦄ ⦃id : Nat⦄ ⦃v : Sight⦄ ⦃inLoop : Bool⦄ ⦃s : GenState A⦄,
    Ready c p id v inLoop s → c.KnowsAll b.allStmts →
    b.Resolved c.dialect c.scopes v p.scope id inLoop →
    Does (b.generate c p id) s fun _ => Shifts id 0 s

/-- Code can be generated for statements, and they leave the variables they declare. -/
def Stmt.BalancesSeq (A : Type) [Target A] (c : GenContext) (stmts : List Stmt) : Prop :=
  ∀ ⦃p : Place⦄ ⦃next : Nat⦄ ⦃v : Sight⦄ ⦃inLoop : Bool⦄ ⦃s : GenState A⦄,
    Ready c p next v inLoop s → p.scope < next →
    c.KnowsAll (Stmt.allStmtsSeq stmts) →
    Stmt.ResolvedSeq c.dialect c.scopes v p.scope next inLoop stmts →
    Does (Stmt.generateSeq c p next stmts) s fun _ =>
      YulToolchain.Settled c.scopes p.scope next (v.afterSeq stmts) (Stmt.declaredSeq stmts) s

/-- Code can be generated for a statement, and it leaves the variables it declares. -/
def Stmt.Balances (A : Type) [Target A] (c : GenContext) (stmt : Stmt) : Prop :=
  ∀ ⦃p : Place⦄ ⦃next : Nat⦄ ⦃v : Sight⦄ ⦃inLoop : Bool⦄ ⦃s : GenState A⦄,
    Ready c p next v inLoop s → p.scope < next →
    c.KnowsAll (stmt :: stmt.allInner) → stmt.Resolved c.dialect c.scopes v p.scope next inLoop →
    Does (stmt.generate c p next) s fun _ =>
      YulToolchain.Settled c.scopes p.scope next (v.after stmt) stmt.declaresVars s

/-- The comparisons of a switch can be generated, and they leave its subject. -/
def Case.KeepsTests (A : Type) [Target A] (c : GenContext) (cases : List Case) : Prop :=
  ∀ ⦃p : Place⦄ ⦃next : Nat⦄ ⦃v : Sight⦄ ⦃inLoop : Bool⦄ ⦃seen : List Word⦄ ⦃s : GenState A⦄,
    Ready c p next v inLoop s →
    c.KnowsAll (Case.allStmtsSeq cases) →
    Case.ResolvedSeq c.dialect c.scopes v p.scope next inLoop seen cases →
    Does (Case.generateTests c p next cases) s fun _ => Shifts next 0 s

/-- So can the bodies behind them. -/
def Case.KeepsBodies (A : Type) [Target A] (c : GenContext) (after : Nat)
    (cases : List Case) : Prop :=
  ∀ (ids : List Nat) ⦃p : Place⦄ ⦃next : Nat⦄ ⦃v : Sight⦄ ⦃inLoop : Bool⦄ ⦃seen : List Word⦄
    ⦃s : GenState A⦄,
    Ready c p next v inLoop s → c.KnowsAll (Case.allStmtsSeq cases) →
    Case.ResolvedSeq c.dialect c.scopes v p.scope next inLoop seen cases →
    Does (Case.generateBodies c p next after ids cases) s fun _ => Shifts next 0 s

/-- A block keeps the height if its statements are in balance. -/
theorem Block.Keeps.of_stmts {line : Nat} {stmts : List Stmt}
    (hinner : Stmt.BalancesSeq A c stmts) : Block.Keeps A c ⟨line, stmts⟩ := by
  intro p id v inLoop s h ho hb
  rw [Block.Resolved] at hb
  rcases hb with ⟨_, hin, hopened, hstmts⟩
  rw [Block.allStmts] at ho
  rw [Block.generate]
  refine Does.height ?_
  refine (hinner (h.enter hin hopened) (Nat.lt_succ_self id) ho hstmts).bind fun _ t ht => ?_
  refine (closeBlock_moves ?_).mono fun _ u hu => (ht.shifts.trans (hu.shifts id)).cast ?_
  · rw [ht.height, hopened.count]
  · rw [hopened.count]
    ring

namespace Stmt.BalancesSeq

omit [Target.Lawful A] in
theorem nil : Stmt.BalancesSeq A c [] := by
  intro p next v inLoop s h _ _ _
  rw [Stmt.generateSeq]
  exact Does.pure (((Moves.refl s).shifts next).settled h.tells h.seated)

omit [Target.Lawful A] in
/-- The first statement leaves a place in which the others are in balance. -/
theorem cons {first : Stmt} {rest : List Stmt} (hone : first.Balances A c)
    (hmore : Stmt.BalancesSeq A c rest) : Stmt.BalancesSeq A c (first :: rest) := by
  intro p next v inLoop s h hscope ho hstmts
  rw [Stmt.ResolvedSeq] at hstmts
  rw [Stmt.allStmtsSeq] at ho
  rw [Stmt.generateSeq]
  refine (hone h hscope (ho.sub ?_) hstmts.1).bind fun _ t ht => ?_
  · intro x hx
    simp only [List.mem_cons, List.mem_append] at hx ⊢
    tauto
  refine (hmore (h.settled ht (h.tells.after hstmts.1 hscope))
    (by omega) (ho.sub ?_) hstmts.2).mono fun _ u hu => ?_
  · intro x hx
    simp only [List.mem_cons, List.mem_append]
    tauto
  · rw [Stmt.declaredSeq_cons]
    exact ht.trans hu (Nat.le_add_right _ _)

end Stmt.BalancesSeq

namespace Stmt.Balances

/-- An expression that is a statement yields nothing. -/
theorem expr {line : Nat} {e : Expr} : (Stmt.expr line e).Balances A c := by
  intro p next v inLoop s h _ ho hs
  rw [Stmt.Resolved] at hs
  rw [Stmt.generate]
  refine (setLine_moves line).bind fun _ t h₁ => ?_
  refine Does.height ?_
  refine (Expr.generate_moves h.tells e hs (ho.expr rfl)
    (h.seated.shifts h.tells (h₁.shifts next) (le_refl 0))).bind fun _ u h₂ => ?_
  have hsu := ((h₁.trans h₂).cast (add_zero _)).shifts next
  split
  · refine (expectHeight_does (by rw [h₂.height]; exact add_zero _)).mono fun _ w h₃ => ?_
    exact (hsu.trans (h₃.shifts next)).settled h.tells h.seated
  · exact Does.pure (hsu.settled h.tells h.seated)

/-- The value of an assignment is stored and gone. -/
theorem assign {line : Nat} {targets : List Identifier} {value : Expr} :
    (Stmt.assign line targets value).Balances A c := by
  intro p next v inLoop s h _ ho hs
  rw [Stmt.Resolved] at hs
  rw [Stmt.generate]
  refine (setLine_moves line).bind fun _ t h₁ => ?_
  have ht := h.seated.shifts h.tells (h₁.shifts next) (le_refl 0)
  refine (Expr.generate_moves h.tells value hs.1 (ho.expr rfl) ht).bind fun _ u h₂ => ?_
  refine (assignVariables_moves targets fun x hx => ?_).mono fun _ w h₃ => ?_
  · rcases ht x.name (hs.2 x hx) with ⟨slot, hslot, htop⟩
    refine ⟨slot, (h₂.slot? _ _ _).trans hslot, ?_⟩
    rw [h₂.height]
    omega
  · have := ((h₁.trans h₂).trans h₃).cast (ε := 0) (by ring)
    exact (this.shifts next).settled h.tells h.seated

/-- The value of a declaration stays as the new variables. -/
theorem decl {line : Nat} {vars : List TypedName} {value : Option Expr} :
    (Stmt.decl line vars value).Balances A c := by
  intro p next v inLoop s h _ ho hs
  rw [Stmt.Resolved] at hs
  rcases hs with ⟨hvalue, hfree, hdecl⟩
  rw [Stmt.generate]
  refine (setLine_moves line).bind fun _ t h₁ => ?_
  refine Does.height ?_
  -- The values come first, of an expression or zeros.
  have hrest : ∀ u, Moves vars.length t u → Does (do
      expectHeight line (t.height + vars.length) "variable declaration"
      declareSlots c p t.height vars) u fun _ => YulToolchain.Settled c.scopes p.scope next
        (v.declare (vars.map (·.name))) (vars.map (·.name)) s := by
    intro u h₂
    refine (expectHeight_does h₂.height).bind fun _ w h₃ => ?_
    rw [h₁.height, add_zero]
    exact declareSlots_settled h hfree hdecl (((h₁.trans h₂).trans h₃).cast (by ring))
  cases value with
  | none => exact (zeros_moves vars.length).bind fun _ u h₂ => hrest u h₂
  | some e =>
      exact (Expr.generate_moves h.tells e (hvalue e rfl) (ho.expr rfl)
        (h.seated.shifts h.tells (h₁.shifts next) (le_refl 0))).bind fun _ u h₂ => hrest u h₂

/-- The body of a function runs on a stack of its own, which begins with the position to return
    to, and the code around the function goes on with the stack in front of it. -/
theorem func {line : Nat} {name : String} {params returns : List TypedName} {body : Block}
    (hinner : body.Keeps A c) : (Stmt.func line name params returns body).Balances A c := by
  intro p next v inLoop s h hscope ho hs
  rw [Stmt.Resolved] at hs
  rcases hs with ⟨hfree, hname, hin, hdecl, hbody⟩
  have hnodup := hfree.1
  rw [List.map_append, List.nodup_append] at hnodup
  rcases hnodup with ⟨hparams, hreturns, hapart⟩
  rw [Stmt.allInner] at ho
  rw [Stmt.generate]
  refine (setLine_moves line).bind fun _ s₁ h₁ => ?_
  refine (lookup_does hname).bind ?_
  rintro _ _ ⟨rfl, rfl⟩
  refine (entryOf_moves c _).bind fun entry s₂ h₂ => ?_
  have h₀₂ := (h₁.trans h₂).shifts next
  refine (setSlots_does next params.reverse 1 s₂ ?_).bind ?_
  · rw [List.map_reverse]
    exact List.nodup_reverse.mpr hparams
  rintro _ s₃ ⟨htarget₃, hslots₃, hothers₃⟩
  refine Does.height ?_
  have hbefore : s₃.height = s.height := by
    rw [GenState.height, htarget₃]
    exact h₀₂.height.trans (add_zero _)
  rw [hbefore]
  -- The height is set by hand here: control enters with the arguments that a call has pushed.
  refine newLabel_moves.bind fun after s₄ h₄ => ?_
  refine (jumpTo_moves after _).bind fun _ s₅ h₅ => ?_
  refine (label_moves entry).bind fun _ s₆ h₆ => ?_
  refine (setHeight_does _).bind fun _ s₇ h₇ => ?_
  have hslots₇ : s₇.slots = s₃.slots := h₇.2.trans ((h₄.trans h₅).trans h₆).slots
  refine (setSlots_does next returns _ s₇ hreturns).bind ?_
  rintro _ s₈ ⟨htarget₈, hslots₈, hothers₈⟩
  refine (zeros_moves returns.length).bind fun _ s₉ h₉ => ?_
  have hheight₉ : s₉.height = 1 + params.length + returns.length := by
    rw [h₉.height, GenState.height, htarget₈]
    exact congrArg (· + _) h₇.1
  -- The scope of the function is new, so the slots around it are as before.
  have hkept : ∀ n y, n < next → s₉.slots.lookup ⟨n, y⟩ = s.slots.lookup ⟨n, y⟩ := by
    intro n y hn
    rw [h₉.slots, hothers₈ n y fun hc => absurd hc (by omega), hslots₇,
      hothers₃ n y fun hc => absurd hc (by omega), h₀₂.slots n y hn]
  have hready : Ready c ⟨next, none, name⟩ (next + 1)
      (v.enterFunction ((params ++ returns).map (·.name))) false s₉ := by
    refine Ready.enterFunction h.tells hin hdecl (fun i x hx => ?_) (fun i x hx => ?_) hheight₉
    · have hmem : x.name ∈ params.map (·.name) :=
        List.mem_map_of_mem (List.mem_reverse.mp (List.mem_of_getElem? hx))
      rw [h₉.slots, hothers₈ next x.name fun _ hc => hapart _ hmem _ hc rfl, hslots₇]
      exact hslots₃ i x hx
    · rw [h₉.slots]
      exact hslots₈ i x hx
  refine (hinner hready
    (ho.sub fun x hx => List.mem_cons_of_mem _ hx) hbody).bind fun _ s₁₀ h₁₀ => ?_
  have hheight₁₀ : s₁₀.height = 1 + params.length + returns.length := by
    rw [h₁₀.height, hheight₉, add_zero]
  refine (expectHeight_does hheight₁₀).bind fun _ s₁₁ h₁₁ => ?_
  refine (unwindFrame_does (by rw [h₁₁.height, hheight₁₀, add_zero])).bind
    fun _ s₁₂ h₁₂ => ?_
  refine (setLine_moves line).bind fun _ s₁₃ h₁₃ => ?_
  refine (jump_moves _).bind fun _ s₁₄ h₁₄ => ?_
  refine (label_moves after).bind fun _ s₁₅ h₁₅ => ?_
  -- The code behind the function is reached by the jump over it only.
  have hback := (h₁₃.trans h₁₄).trans h₁₅
  have hheight₁₅ : s₁₅.height = s.height := by
    rw [hback.height, h₁₂.1]
    ring
  refine (expectHeight_does hheight₁₅).mono fun _ s₁₆ h₁₆ => ?_
  refine Shifts.settled ⟨by rw [h₁₆.height, hheight₁₅, add_zero], fun n y hn => ?_⟩
    h.tells h.seated
  rw [h₁₆.slots, hback.slots, h₁₂.2, h₁₁.slots, h₁₀.slots n y (by omega), hkept n y hn]

/-- The condition is used up by the jump, and the body keeps the height. -/
theorem cond {line : Nat} {test : Expr} {body : Block} (hinner : body.Keeps A c) :
    (Stmt.cond line test body).Balances A c := by
  intro p next v inLoop s h hscope ho hs
  rw [Stmt.Resolved] at hs
  rw [Stmt.allInner] at ho
  rw [Stmt.generate]
  refine (setLine_moves line).bind fun _ s₁ h₁ => ?_
  refine Does.height ?_
  -- The condition moves the height up by one.
  refine (Expr.generate_moves h.tells test hs.1 (ho.expr rfl)
    (h.seated.shifts h.tells (h₁.shifts next) (le_refl 0))).bind fun _ s₂ h₂ => ?_
  refine (instruction_moves .iszero).bind fun _ s₃ h₃ => ?_
  refine newLabel_moves.bind fun after s₄ h₄ => ?_
  refine (jumpToIf_moves after).bind fun _ s₅ h₅ => ?_
  have h₁₅ : Moves 0 s₁ s₅ := (((h₂.trans h₃).trans h₄).trans h₅).cast rfl
  have hbefore := ((h₁.trans h₁₅).cast (zero_add 0)).shifts next
  refine (hinner (h.shifts hbefore (le_refl 0))
    (ho.sub fun x hx => List.mem_cons_of_mem _ hx) hs.2).bind fun _ s₆ h₆ => ?_
  refine (label_moves after).bind fun _ s₇ h₇ => ?_
  -- Altogether nothing is left.
  have h₁₇ := ((h₁₅.shifts next).trans h₆).trans (h₇.shifts next)
  refine (expectHeight_does (by rw [h₁₇.height]; ring)).mono fun _ s₈ h₈ => ?_
  exact Shifts.settled ((((h₁.shifts next).trans h₁₇).trans (h₈.shifts next)).cast (by ring))
    h.tells h.seated

/-- The subject stays up to the end, where it is dropped. -/
theorem switch {line : Nat} {subject : Expr} {cases : List Case}
    (hcompare : Case.KeepsTests A c cases) (hinner : ∀ after, Case.KeepsBodies A c after cases) :
    (Stmt.switch line subject cases).Balances A c := by
  intro p next v inLoop s h hscope ho hs
  rw [Stmt.Resolved] at hs
  rw [Stmt.allInner] at ho
  have hcases : c.KnowsAll (Case.allStmtsSeq cases) :=
    ho.sub fun x hx => List.mem_cons_of_mem _ hx
  rw [Stmt.generate]
  refine (setLine_moves line).bind fun _ s₁ h₁ => ?_
  refine Does.height ?_
  refine (Expr.generate_moves h.tells subject hs.1 (ho.expr rfl)
    (h.seated.shifts h.tells (h₁.shifts next) (le_refl 0))).bind fun _ s₂ h₂ => ?_
  refine newLabel_moves.bind fun after s₃ h₃ => ?_
  -- All of the switch happens with its subject on the stack.
  have h₁₃ := ((h₂.trans h₃).cast (ε := 1) rfl).shifts next
  have hr₃ := h.shifts ((h₁.shifts next).trans h₁₃) (by decide)
  refine (hcompare hr₃ hcases hs.2).bind fun bodies s₄ h₄ => ?_
  refine (jumpTo_moves after 0).bind fun _ s₅ h₅ => ?_
  have h₃₅ := h₄.trans (h₅.shifts next)
  refine (hinner after bodies (hr₃.shifts h₃₅ (le_refl 0)) hcases hs.2).bind fun _ s₆ h₆ => ?_
  refine (label_moves after).bind fun _ s₇ h₇ => ?_
  refine (pops_moves 1).bind fun _ s₈ h₈ => ?_
  have h₁₈ := (((h₁₃.trans h₃₅).trans h₆).trans (h₇.shifts next)).trans (h₈.shifts next)
  refine (expectHeight_does (by rw [h₁₈.height]; push_cast; ring)).mono fun _ s₉ h₉ => ?_
  exact Shifts.settled ((((h₁.shifts next).trans h₁₈).trans (h₉.shifts next)).cast rfl)
    h.tells h.seated

/-- Every round of a loop begins and ends with the variables of the initialisation on top. -/
theorem loop {line preLine : Nat} {pre : List Stmt} {test : Expr} {post body : Block}
    (hinit : Stmt.BalancesSeq A c pre) (hround : body.Keeps A c) (hthen : post.Keeps A c) :
    (Stmt.loop line ⟨preLine, pre⟩ test post body).Balances A c := by
  intro p next v inLoop s h hscope ho hs
  rw [Stmt.Resolved] at hs
  rcases hs with ⟨_, hin, hopened, hpre, htest, hbody, hpost⟩
  rw [Stmt.allInner, Block.allStmts] at ho
  rw [Stmt.generate]
  -- The init block first, in the scope of the loop.
  refine (setLine_moves line).bind fun _ s₁ h₁ => ?_
  refine Does.height ?_
  have hr₁ := (h.shifts (h₁.shifts next) (le_refl 0)).enter hin hopened
  refine (hinit hr₁ (Nat.lt_succ_self next) (ho.sub ?_) hpre).bind fun _ s₂ h₂ => ?_
  · intro x hx
    simp only [List.mem_cons, List.mem_append]
    tauto
  -- The rest of the loop stands behind its initialisation.
  have hr₂ := hr₁.settled h₂ (hr₁.tells.afterSeq hpre (Nat.lt_succ_self next))
  refine newLabel_moves.bind fun start s₃ h₃ => ?_
  refine newLabel_moves.bind fun continued s₄ h₄ => ?_
  refine newLabel_moves.bind fun after s₅ h₅ => ?_
  refine (setLine_moves line).bind fun _ s₆ h₆ => ?_
  refine (label_moves start).bind fun _ s₇ h₇ => ?_
  have h₂₇ : Moves 0 s₂ s₇ := ((((h₃.trans h₄).trans h₅).trans h₆).trans h₇).cast rfl
  have hr₇ := hr₂.shifts (h₂₇.shifts _) (le_refl 0)
  refine (Expr.generate_moves hr₇.tells test htest (ho.expr rfl) hr₇.seated).bind
    fun _ s₈ h₈ => ?_
  refine (instruction_moves .iszero).bind fun _ s₉ h₉ => ?_
  refine (jumpToIf_moves after).bind fun _ s₁₀ h₁₀ => ?_
  have h₇₁₀ : Moves 0 s₇ s₁₀ := ((h₈.trans h₉).trans h₁₀).cast rfl
  have hr₁₀ := hr₇.shifts (h₇₁₀.shifts _) (le_refl 0)
  -- Behind the condition the height is the one that jumps out of the body restore.
  refine Does.height ?_
  have hinside : Ready c ⟨next, some ⟨after, continued, s₁₀.height⟩, p.function⟩
      (next + 1 + Stmt.scopeCountSeq pre) ((v.enter pre).afterSeq pre) true s₁₀ :=
    ⟨hr₁₀.tells, hr₁₀.seated, fun _ => ⟨_, rfl, le_refl _⟩⟩
  refine (hround hinside (ho.sub ?_) hbody).bind fun _ s₁₁ h₁₁ => ?_
  · intro x hx
    simp only [List.mem_cons, List.mem_append]
    tauto
  -- Then the post part, at the same height.
  refine (label_moves continued).bind fun _ s₁₂ h₁₂ => ?_
  have h₁₀₁₂ := h₁₁.trans (h₁₂.shifts _)
  have hr₁₂ := hr₁₀.shifts h₁₀₁₂ (le_refl 0)
  refine (hthen (Ready.later ⟨hr₁₂.tells, hr₁₂.seated, fun hc => absurd hc Bool.noConfusion⟩
      (Nat.le_add_right _ _)) (ho.sub ?_) hpost).bind fun _ s₁₃ h₁₃ => ?_
  · intro x hx
    simp only [List.mem_cons, List.mem_append]
    tauto
  -- Behind the loop the variables of the init block are dropped.
  refine (jumpTo_moves start 0).bind fun _ s₁₄ h₁₄ => ?_
  refine (label_moves after).bind fun _ s₁₅ h₁₅ => ?_
  have h₁₅ : Shifts next 0 s₂ s₁₅ :=
    ((((((h₂₇.trans h₇₁₀).shifts next).trans (h₁₀₁₂.mono (by omega))).trans
      (h₁₃.mono (by omega))).trans (h₁₄.shifts next)).trans (h₁₅.shifts next)).cast rfl
  have hall := ((h₁.shifts next).trans h₂.shifts).trans h₁₅
  refine (closeBlock_moves ?_).mono fun _ s₁₆ h₁₆ => ?_
  · rw [h₁₅.height, h₂.height, hopened.count, add_zero]
  · refine Shifts.settled ((hall.trans (h₁₆.shifts next)).cast ?_) h.tells h.seated
    rw [hopened.count]
    ring

/-- A break drops what is above the loop. -/
theorem brk {line : Nat} : (Stmt.brk line).Balances A c := by
  intro p next v inLoop s h _ _ hs
  rw [Stmt.Resolved] at hs
  rw [Stmt.generate]
  refine (setLine_moves line).bind fun _ t h₁ => ?_
  refine (leaveBody_moves ((h.shifts (h₁.shifts next) (le_refl 0)).loop hs)).mono
    fun _ u h₂ => ?_
  exact ((h₁.trans h₂).shifts next).settled h.tells h.seated

/-- So does a continue. -/
theorem cont {line : Nat} : (Stmt.cont line).Balances A c := by
  intro p next v inLoop s h _ _ hs
  rw [Stmt.Resolved] at hs
  rw [Stmt.generate]
  refine (setLine_moves line).bind fun _ t h₁ => ?_
  refine (leaveBody_moves ((h.shifts (h₁.shifts next) (le_refl 0)).loop hs)).mono
    fun _ u h₂ => ?_
  exact ((h₁.trans h₂).shifts next).settled h.tells h.seated

/-- A block drops its variables. -/
theorem block {line : Nat} {stmts : List Stmt} (hinner : Block.Keeps A c ⟨line, stmts⟩) :
    (Stmt.block ⟨line, stmts⟩).Balances A c := by
  intro p next v inLoop s h _ ho hs
  rw [Stmt.Resolved] at hs
  rw [Stmt.generate]
  refine (setLine_moves line).bind fun _ t h₁ => ?_
  refine (hinner (h.shifts (h₁.shifts next) (le_refl 0))
    (ho.sub fun x hx => ?_) hs).mono fun _ u h₂ => ?_
  · rw [Stmt.allInner]
    exact List.mem_cons_of_mem _ hx
  · exact ((h₁.shifts next).trans h₂).settled h.tells h.seated

omit [Target.Lawful A] in
theorem label {line : Nat} {name : String} : (Stmt.label line name).Balances A c := by
  intro _ _ _ _ _ _ _ _ hs
  rw [Stmt.Resolved] at hs
  exact hs.elim

omit [Target.Lawful A] in
/-- Assignments from the stack are not resolved. -/
theorem stackAssign {line : Nat} {target : Identifier} :
    (Stmt.stackAssign line target).Balances A c := by
  intro _ _ _ _ _ _ _ _ hs
  rw [Stmt.Resolved] at hs
  exact hs.elim

end Stmt.Balances

namespace Case.KeepsTests

omit [Target.Lawful A] in
theorem nil : Case.KeepsTests A c [] := by
  intro p next v inLoop seen s _ _ _
  rw [Case.generateTests]
  exact Does.pure ((Moves.refl s).shifts next)

omit [Target.Lawful A] in
/-- The body of the default is where the comparisons end. -/
theorem default {line : Nat} {body : Block} {rest : List Case} (hinner : body.Keeps A c) :
    Case.KeepsTests A c (⟨line, none, body⟩ :: rest) := by
  intro p next v inLoop seen s h ho hs
  rw [Case.ResolvedSeq] at hs
  obtain rfl := hs.2
  rw [Case.allStmtsSeq] at ho
  rw [Case.generateTests]
  refine (hinner h (ho.sub fun x hx => List.mem_append_left _ hx) hs.1).bind fun _ t ht => ?_
  rw [Case.generateTests]
  exact Does.pure ht

/-- A comparison leaves the subject on the stack. -/
theorem value {line : Nat} {l : Literal} {body : Block} {rest : List Case}
    (hmore : Case.KeepsTests A c rest) : Case.KeepsTests A c (⟨line, some l, body⟩ :: rest) := by
  intro p next v inLoop seen s h ho hs
  rw [Case.ResolvedSeq] at hs
  rcases hs with ⟨w, hw, _, _, hrest⟩
  rw [Case.allStmtsSeq] at ho
  rw [Case.generateTests]
  refine (Gen.literal_moves hw).bind fun _ s₁ h₁ => ?_
  refine (instruction_moves (.dup 1)).bind fun _ s₂ h₂ => ?_
  refine (instruction_moves .eq).bind fun _ s₃ h₃ => ?_
  refine newLabel_moves.bind fun id s₄ h₄ => ?_
  refine (jumpToIf_moves id).bind fun _ s₅ h₅ => ?_
  have h₀₅ : Moves 0 s s₅ := ((((h₁.trans h₂).trans h₃).trans h₄).trans h₅).cast rfl
  refine (hmore ((h.shifts (h₀₅.shifts next) (le_refl 0)).later
    (Nat.le_add_right next body.scopeCount))
    (ho.sub fun x hx => List.mem_append_right _ hx) hrest).bind fun ids s₆ h₆ => ?_
  exact Does.pure ((h₀₅.shifts next).trans (h₆.mono (Nat.le_add_right _ _)))

end Case.KeepsTests

namespace Case.KeepsBodies

variable {after : Nat}

omit [Target.Lawful A] in
/-- Without cases there are no bodies. -/
theorem nil : Case.KeepsBodies A c after [] := by
  intro ids p next v inLoop seen s _ _ _
  rw [Case.generateBodies]
  · exact Does.pure ((Moves.refl s).shifts next)
  all_goals simp

omit [Target.Lawful A] in
/-- The body of the default stands behind the comparisons already. -/
theorem default {line : Nat} {body : Block} {rest : List Case} :
    Case.KeepsBodies A c after (⟨line, none, body⟩ :: rest) := by
  intro ids p next v inLoop seen s h ho hs
  rw [Case.ResolvedSeq] at hs
  obtain rfl := hs.2
  rw [Case.generateBodies, Case.generateBodies]
  · exact Does.pure ((Moves.refl s).shifts next)
  all_goals simp

/-- A body keeps the height, and so do those behind it. -/
theorem value {line : Nat} {l : Literal} {body : Block} {rest : List Case} (hinner : body.Keeps A c)
    (hmore : Case.KeepsBodies A c after rest) :
    Case.KeepsBodies A c after (⟨line, some l, body⟩ :: rest) := by
  intro ids p next v inLoop seen s h ho hs
  cases ids with
  | nil =>
      rw [Case.generateBodies]
      · exact Does.pure ((Moves.refl s).shifts next)
      all_goals simp
  | cons id ids =>
      rw [Case.ResolvedSeq] at hs
      rcases hs with ⟨w, _, _, hbody, hrest⟩
      rw [Case.allStmtsSeq] at ho
      rw [Case.generateBodies]
      refine (label_moves id).bind fun _ s₁ h₁ => ?_
      refine (hinner (h.shifts (h₁.shifts next) (le_refl 0))
        (ho.sub fun x hx => List.mem_append_left _ hx) hbody).bind fun _ s₂ h₂ => ?_
      have h₀₂ := (h₁.shifts next).trans h₂
      -- The others start at the height where this one did.
      have hothers : ∀ s₃, Shifts next 0 s s₃ →
          Does (Case.generateBodies c p (next + body.scopeCount) after ids rest) s₃ fun _ =>
            Shifts next 0 s := by
        intro s₃ h₀₃
        refine (hmore ids ((h.shifts h₀₃ (le_refl 0)).later
          (Nat.le_add_right next body.scopeCount))
          (ho.sub fun x hx => List.mem_append_right _ hx) hrest).mono fun _ s₄ h₄ => ?_
        exact h₀₃.trans (h₄.mono (Nat.le_add_right _ _))
      by_cases hlast : ids.isEmpty = true
      · rw [if_pos hlast]
        exact hothers s₂ h₀₂
      · rw [if_neg hlast]
        exact (jumpTo_moves after 0).bind fun _ s₃ h₃ => hothers s₃ (h₀₂.trans (h₃.shifts next))

end Case.KeepsBodies

omit [Target.Lawful A] in
mutual

/-- A block leaves the stack as it found it. -/
theorem Block.generate_shifts [Target.Lawful A] : ∀ b : Block, b.Keeps A c
  | ⟨_, stmts⟩ => .of_stmts (Stmt.generateSeq_settled stmts)

/-- Statements leave the variables they declare on the stack. -/
theorem Stmt.generateSeq_settled [Target.Lawful A] : ∀ stmts : List Stmt, Stmt.BalancesSeq A c stmts
  | [] => .nil
  | first :: rest => .cons (Stmt.generate_settled first) (Stmt.generateSeq_settled rest)

/-- A statement leaves the variables it declares on the stack. -/
theorem Stmt.generate_settled [Target.Lawful A] : ∀ stmt : Stmt, stmt.Balances A c
  | .expr _ _ => .expr
  | .assign _ _ _ => .assign
  | .decl _ _ _ => .decl
  | .func _ _ _ _ body => .func (Block.generate_shifts body)
  | .cond _ _ body => .cond (Block.generate_shifts body)
  | .switch _ _ cases => .switch (Case.generateTests_shifts cases)
      (Case.generateBodies_shifts cases)
  | .loop _ ⟨_, pre⟩ _ post body => .loop (Stmt.generateSeq_settled pre)
      (Block.generate_shifts body) (Block.generate_shifts post)
  | .brk _ => .brk
  | .cont _ => .cont
  | .block ⟨line, stmts⟩ => .block (Block.generate_shifts ⟨line, stmts⟩)
  | .label _ _ => .label
  | .stackAssign _ _ => .stackAssign

/-- The comparisons of a switch leave its subject on the stack. -/
theorem Case.generateTests_shifts [Target.Lawful A] : ∀ cases : List Case, Case.KeepsTests A c cases
  | [] => .nil
  | ⟨_, none, body⟩ :: _ => .default (Block.generate_shifts body)
  | ⟨_, some _, _⟩ :: rest => .value (Case.generateTests_shifts rest)

/-- So do the bodies behind them. -/
theorem Case.generateBodies_shifts [Target.Lawful A] : ∀ (cases : List Case) (after : Nat),
    Case.KeepsBodies A c after cases
  | [], _ => .nil
  | ⟨_, none, _⟩ :: _, _ => .default
  | ⟨_, some _, body⟩ :: rest, after => .value (Block.generate_shifts body)
      (Case.generateBodies_shifts rest after)

end

/-- A program that is resolved can be generated, and keeps the height. -/
theorem generate_keeps_height {code : Block}
    (hcode : code.Resolved c.dialect c.scopes .empty 0 0 false)
    (hobjects : ∀ name ∈ code.objectNames c.dialect, c.objects.Knows name) (target : A) :
    ∃ errors target', generate c code target = .ok (errors, target') ∧
      Target.height target' = Target.height target := by
  have hready : Ready c ⟨0, none, ""⟩ 0 .empty false (.ofTarget target) :=
    ⟨.empty _ _ _, fun x hx => absurd hx (List.not_mem_nil), fun hc => absurd hc Bool.noConfusion⟩
  have hknown : c.KnowsAll code.allStmts := fun s hs name hname =>
    hobjects name (List.mem_flatMap.mpr ⟨s, hs, hname⟩)
  rcases Block.generate_shifts code hready hknown hcode with ⟨_, s, hrun, hs⟩
  refine ⟨s.tooDeep.reverse, s.target, ?_, hs.height.trans (add_zero _)⟩
  rw [generate, StateT.run, hrun]
  rfl

end Statements

/-- Code can be generated for every program that is read and accepted, provided that
    the objects it refers to are known, and the stack is as high afterwards as it was
    before. -/
theorem generate_balanced {d : Dialect} (hd : d.flavour ≠ .loose) {source : String}
    {code : Block} {scopes : Scopes} (hread : Reads d source code)
    (haccept : analyze d code = .ok scopes) {objects : ObjectNames}
    (hobjects : ∀ name ∈ code.objectNames d, objects.Knows name) (named : Bool) :
    (∀ target : Assembly, ∃ errors target',
      generate ⟨d, scopes, objects, named⟩ code target = .ok (errors, target') ∧
        target'.height = target.height) ∧
    ∀ target : DryRun, ∃ errors target',
      generate ⟨d, scopes, objects, named⟩ code target = .ok (errors, target') ∧
        target'.height = target.height := by
  have hcode := analyze_resolved hd (hread.readable hd) haccept
  exact ⟨generate_keeps_height hcode hobjects, generate_keeps_height hcode hobjects⟩

/-- A function with a frame, a loop that is left early and a question about an
    object. -/
theorem generate_balanced_loop :
    ∃ code scopes, parseBlock .strictAssemblyForObjects
        ("\x7b function f(a, b) -> r \x7b r := add(a, datasize(\"A\")) \x7d " ++
          "for { let i } 1 {} { if f(i, 2) { break } } \x7d") = .ok code ∧
      analyze .strictAssemblyForObjects code = .ok scopes ∧
      code.objectNames .strictAssemblyForObjects = ["A"] ∧
      ∃ errors target', generate ⟨.strictAssemblyForObjects, scopes, ⟨some "A", []⟩, true⟩ code
        (Target.fresh : Assembly) = .ok (errors, target') ∧ target'.height = 0 := by
  refine exists_of_accepted? (fun code => code.objectNames .strictAssemblyForObjects = ["A"])
    (by decide +kernel) fun code scopes hread haccept hnames => ?_
  have hnames := of_decide_eq_true hnames
  refine ⟨hnames, (generate_balanced (by decide) (.inl hread) haccept ?_ true).1 Target.fresh⟩
  intro name hname
  rw [hnames, List.mem_singleton] at hname
  exact Or.inl (congrArg some hname.symm)

end YulToolchain
