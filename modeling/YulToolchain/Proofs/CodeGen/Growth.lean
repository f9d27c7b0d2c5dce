import YulToolchain.Proofs.CodeGen.Balance

/-!
# Generation Only Adds

What code generation leaves alone. It writes items behind those that are there,
hands out labels that were not handed out before, remembers the entries of functions
for good, and never takes back a report. It attaches nothing and touches no
attachment, so what code refers to stays where it was.

Nothing is asked of the code here. It may be ill-formed, and generation may break off;
`Gen.Ensures` only speaks of what holds if it does not. That is the other half of
`Gen.Does`, and enough where a result is at hand already.

## Main definitions

* `Gen.Ensures`: What holds after a computation if it succeeds.
* `GenState.Grows`: A state has everything that an earlier one had.

## Theorems

* `Gen.Ensures.bind`: Sequencing.
* `Block.generate_grows`, `Stmt.generate_grows`: Code of blocks and statements.
* `generate_grows`: Code of a program.
-/

namespace YulToolchain

/-- What holds after a computation if it succeeds. -/
def Gen.Ensures {A α : Type} (m : Gen A α) (s : GenState A) (Q : α → GenState A → Prop) : Prop :=
  ∀ a t, m s = .ok (a, t) → Q a t

/-- A state of generation has everything that an earlier one had. -/
structure GenState.Grows (s t : GenState Assembly) : Prop where
  attachments : t.target.attachments = s.target.attachments
  items : s.target.items.toList <+: t.target.items.toList
  lastLabel : s.target.lastLabel ≤ t.target.lastLabel
  entries : s.entries <:+ t.entries
  tooDeep : s.tooDeep <:+ t.tooDeep

namespace Gen

section Rules

variable {A α β : Type} {s : GenState A} {P : α → GenState A → Prop} {Q : β → GenState A → Prop}

theorem Ensures.pure {a : α} (h : P a s) : Ensures (pure a) s P := by
  intro b t hb
  cases hb
  exact h

theorem Ensures.mono {P' : α → GenState A → Prop} {m : Gen A α} (h : Ensures m s P)
    (hP : ∀ a t, P a t → P' a t) : Ensures m s P' := fun a t hm => hP a t (h a t hm)

/-- What the first part ensures is given to the second. -/
theorem Ensures.bind {m : Gen A α} {f : α → Gen A β} (hm : Ensures m s P)
    (hf : ∀ a t, P a t → Ensures (f a) t Q) : Ensures (m >>= f) s Q := by
  intro b u h
  rcases bind_eq_ok (show (m s >>= fun r => f r.1 r.2) = .ok (b, u) from h) with ⟨⟨a, t⟩, h₁, h₂⟩
  exact hf a t (hm a t h₁) b u h₂

theorem Ensures.get {f : GenState A → Gen A β} (h : Ensures (f s) s Q) :
    Ensures (get >>= f) s Q := h

theorem Ensures.throw {e : Failure} : Ensures (throw e : Gen A α) s P := by
  intro a t h
  exact absurd h (by rintro ⟨⟩)

theorem Ensures.violation {line : Nat} {fault : InternalFault} :
    Ensures (violation line fault : Gen A α) s P := Ensures.throw

/-- A check that succeeds. -/
theorem Ensures.orStop {ε α : Type} {P : α → GenState A → Prop} {cause : ε → Cause}
    {r : Except ε α} (h : ∀ a, r = .ok a → P a s) : Ensures (orStop cause r) s P := by
  cases r with
  | ok a => exact Ensures.pure (h a rfl)
  | error e => exact Ensures.throw

/-- A name that is found. -/
theorem Ensures.lookup {c : GenContext} {p : Place} {line : Nat} {name : String}
    {P : Declaration × Symbol → GenState A → Prop}
    (h : ∀ found, c.scopes.lookup p.scope name = some found → P found s) :
    Ensures (lookup c p line name) s P := by
  rw [Gen.lookup]
  split
  · rename_i found hfound
    exact Ensures.pure (h found hfound)
  · exact Ensures.violation

variable [Target A]

theorem Ensures.height {f : Int → Gen A β} (h : Ensures (f s.height) s Q) :
    Ensures (Gen.height >>= f) s Q := h

/-- A height that is as expected. -/
theorem Ensures.expectHeight {line : Nat} {expected : Int} {place : String}
    {P : Unit → GenState A → Prop} (h : P () s) :
    Ensures (expectHeight line expected place) s P := by
  refine Ensures.height ?_
  split
  · exact Ensures.violation
  · exact Ensures.pure h

end Rules

end Gen

theorem GenState.Grows.refl (s : GenState Assembly) : s.Grows s :=
  ⟨rfl, List.prefix_rfl, Nat.le_refl _, List.suffix_rfl, List.suffix_rfl⟩

/-- Added one after the other. -/
theorem GenState.Grows.trans {s t u : GenState Assembly} (h : s.Grows t) (h' : t.Grows u) :
    s.Grows u :=
  ⟨h'.attachments.trans h.attachments, h.items.trans h'.items,
    Nat.le_trans h.lastLabel h'.lastLabel,
    h.entries.trans h'.entries, h.tooDeep.trans h'.tooDeep⟩

/-- A computation, if it succeeds, leaves everything that was there. -/
def Gen.Adds {α : Type} (m : Gen Assembly α) : Prop := ∀ s, Gen.Ensures m s fun _ t => s.Grows t

namespace Gen

section Primitives

variable {α β : Type}

theorem Adds.pure (a : α) : Adds (pure a) := fun s => Ensures.pure (.refl s)

theorem Adds.bind {m : Gen Assembly α} {f : α → Gen Assembly β} (hm : Adds m)
    (hf : ∀ a, Adds (f a)) : Adds (m >>= f) := fun s =>
  (hm s).bind fun a t ht => (hf a t).mono fun _ _ hu => ht.trans hu

theorem Adds.throw {e : Failure} : Adds (throw e : Gen Assembly α) := fun _ => Ensures.throw

theorem Adds.violation {line : Nat} {fault : InternalFault} :
    Adds (violation line fault : Gen Assembly α) := fun _ => Ensures.violation

/-- Either way something may be added. -/
theorem Adds.ite {b : Prop} [Decidable b] {m n : Gen Assembly α} (hm : Adds m) (hn : Adds n) :
    Adds (if b then m else n) := by
  split
  · exact hm
  · exact hn

theorem Adds.get {f : GenState Assembly → Gen Assembly β} (h : ∀ s, Ensures (f s) s
    fun _ t => s.Grows t) : Adds (get >>= f) := h

theorem Adds.orStop {ε : Type} (cause : ε → Cause) (r : Except ε α) :
    Adds (orStop cause r : Gen Assembly α) := fun s => Ensures.orStop fun _ _ => .refl s

theorem lookup_adds (c : GenContext) (p : Place) (line : Nat) (name : String) :
    Adds (lookup c p line name) := fun s => Ensures.lookup fun _ _ => .refl s

theorem height_adds : Adds height := fun s => Ensures.get (Ensures.pure (.refl s))

theorem expectHeight_adds (line : Nat) (expected : Int) (place : String) :
    Adds (expectHeight line expected place) := fun s => Ensures.expectHeight (.refl s)

/-- Only the items and the height change when something is written. -/
theorem write_adds {f : Assembly → Assembly} (ha : ∀ a, (f a).attachments = a.attachments)
    (hi : ∀ a, a.items.toList <+: (f a).items.toList) (hl : ∀ a, (f a).lastLabel = a.lastLabel) :
    Adds (write f) := by
  intro s _ t h
  cases h
  exact ⟨ha _, hi _, Nat.le_of_eq (hl _).symm, List.suffix_rfl, List.suffix_rfl⟩

theorem setHeight_adds (h : Int) : Adds (setHeight h) :=
  write_adds (fun _ => rfl) (fun _ => List.prefix_rfl) fun _ => rfl

theorem setLine_adds (line : Nat) : Adds (setLine line) :=
  write_adds (fun _ => rfl) (fun _ => List.prefix_rfl) fun _ => rfl

theorem emit_adds (i : Item) : Adds (emit i) :=
  write_adds (fun _ => rfl) (fun _ => ⟨[i], (Array.toList_push).symm⟩) fun _ => rfl

theorem instruction_adds (i : Instruction) : Adds (instruction i) := emit_adds _

theorem label_adds (id : Nat) : Adds (label id) := emit_adds _

theorem emitTimes_adds (i : Item) (count : Nat) : Adds (emitTimes i count) := by
  induction count with
  | zero => exact Adds.pure ()
  | succ count ih => exact (emit_adds i).bind fun _ => ih

theorem jump_adds (difference : Int) : Adds (jump difference) :=
  write_adds (fun _ => rfl) (fun _ => ⟨[_], (Array.toList_push).symm⟩) fun _ => rfl

/-- A jump to a label. -/
theorem jumpTo_adds (id : Nat) (difference : Int) : Adds (jumpTo id difference) := by
  refine write_adds (fun _ => rfl) (fun a => ?_) fun _ => rfl
  show a.items.toList <+: ((a.items.push (.reference (.label id))).push (.instruction .jump)).toList
  rw [Array.toList_push, Array.toList_push, List.append_assoc]
  exact List.prefix_append _ _

/-- A conditional jump to a label. -/
theorem jumpToIf_adds (id : Nat) : Adds (jumpToIf id) := by
  refine write_adds (fun _ => rfl) (fun a => ?_) fun _ => rfl
  show a.items.toList <+:
    ((a.items.push (.reference (.label id))).push (.instruction .jumpi)).toList
  rw [Array.toList_push, Array.toList_push, List.append_assoc]
  exact List.prefix_append _ _

theorem newLabel_adds : Adds newLabel := by
  intro s _ t h
  cases h
  exact ⟨rfl, List.prefix_rfl, Nat.le_succ _, List.suffix_rfl, List.suffix_rfl⟩

/-- So is one with a name. -/
theorem namedLabel_adds (name : String) : Adds (namedLabel name) := by
  intro s _ t h
  cases h
  show s.Grows { s with target := (Assembly.namedLabel name s.target).2 }
  rw [Assembly.namedLabel]
  split
  · exact .refl s
  · exact ⟨rfl, List.prefix_rfl, Nat.le_succ _, List.suffix_rfl, List.suffix_rfl⟩

/-- The entry is found or stored, and never changed. -/
theorem entryOf_adds (c : GenContext) (d : Declaration) : Adds (entryOf c d) := by
  refine Adds.get fun s => ?_
  split
  · exact Ensures.pure (.refl s)
  · have hstore : ∀ (t : GenState Assembly) (id : Nat), s.Grows t →
        Ensures (do modify fun s => { s with entries := (d, id) :: s.entries }; pure id) t
          fun (_ : Nat) u => s.Grows u := by
      intro t id ht a u h
      cases h
      exact ht.trans ⟨rfl, List.prefix_rfl, Nat.le_refl _, List.suffix_cons _ _, List.suffix_rfl⟩
    by_cases hnamed : c.namedLabels = true
    · rw [if_pos hnamed]
      exact (namedLabel_adds d.name s).bind fun id t ht => hstore t id ht
    · rw [if_neg hnamed]
      exact (newLabel_adds s).bind fun id t ht => hstore t id ht

/-- The label is found or stored. -/
theorem labelOf_adds (d : Declaration) : Adds (labelOf d) := by
  refine Adds.get fun s => ?_
  split
  · exact Ensures.pure (.refl s)
  · refine Ensures.bind (newLabel_adds s) fun id t ht => ?_
    intro a u h
    cases h
    exact ht.trans ⟨rfl, List.prefix_rfl, Nat.le_refl _, List.suffix_rfl, List.suffix_rfl⟩

theorem setSlot_adds (d : Declaration) (slot : Int) : Adds (setSlot d slot) := by
  intro s _ t h
  cases h
  exact ⟨rfl, List.prefix_rfl, Nat.le_refl _, List.suffix_rfl, List.suffix_rfl⟩

theorem setSlots_adds (scope : Nat) : ∀ (first : Int) (vars : List TypedName),
    Adds (setSlots scope first vars)
  | _, [] => Adds.pure ()
  | first, _ :: rest => (setSlot_adds _ first).bind fun _ => setSlots_adds scope (first + 1) rest

theorem declareSlots_adds (c : GenContext) (p : Place) : ∀ (first : Int) (vars : List TypedName),
    Adds (declareSlots c p first vars)
  | _, [] => Adds.pure ()
  | first, v :: rest => (lookup_adds c p v.line v.name).bind fun found =>
      (setSlot_adds found.1 first).bind fun _ => declareSlots_adds c p (first + 1) rest

/-- Reports are added in front. -/
theorem reportTooDeep_adds (p : Place) (name : String) (depth : Int) :
    Adds (reportTooDeep p name depth) := by
  refine Adds.bind ?_ fun _ => instruction_adds .invalid
  intro s _ t h
  cases h
  exact ⟨rfl, List.prefix_rfl, Nat.le_refl _, List.suffix_rfl, List.suffix_cons _ _⟩

/-- The search reports at most. -/
theorem distance?_adds (c : GenContext) (p : Place) (line : Nat) (name : String)
    (least limit : Int) : Adds (distance? c p line name least limit) := by
  refine (lookup_adds c p line name).bind fun found => Adds.get fun s => ?_
  split
  · exact Ensures.violation
  · refine Ensures.height ?_
    dsimp only
    split
    · exact Ensures.violation
    · split
      · exact ((reportTooDeep_adds p name _).bind fun _ => Adds.pure none) s
      · exact Ensures.pure (.refl s)

/-- Copying a variable. -/
theorem copyVariable_adds (c : GenContext) (p : Place) (line : Nat) (name : String) :
    Adds (copyVariable c p line name) := by
  refine (distance?_adds c p line name 1 maxCopyDepth).bind fun r => ?_
  cases r with
  | none => exact emitTimes_adds _ 1
  | some distance => exact (Adds.orStop _ _).bind fun op => instruction_adds op

/-- Assigning a variable. -/
theorem assignVariable_adds (c : GenContext) (p : Place) (line : Nat) (name : String) :
    Adds (assignVariable c p line name) := by
  refine (distance?_adds c p line name 2 maxAssignDepth).bind fun r => ?_
  cases r with
  | none => exact emitTimes_adds _ 1
  | some distance =>
      exact (Adds.orStop _ _).bind fun op => (instruction_adds op).bind fun _ => emitTimes_adds _ 1

theorem assignVariables_adds (c : GenContext) (p : Place) : ∀ targets : List Identifier,
    Adds (assignVariables c p targets)
  | [] => Adds.pure ()
  | v :: rest => (assignVariables_adds c p rest).bind fun _ => assignVariable_adds c p v.line v.name

/-- Leaving a body. -/
theorem leaveBody_adds (p : Place) (line : Nat) (goal : LoopTargets → Nat) :
    Adds (leaveBody p line goal) := by
  rw [Gen.leaveBody]
  split
  · exact Adds.violation
  · refine Adds.bind (height_adds.bind fun h => (emitTimes_adds _ _).bind fun _ => Adds.pure _)
      fun popped => jumpTo_adds _ popped

/-- Instructions in a row. -/
theorem instructions_adds (ops : List Instruction) : Adds (ops.forM instruction) := by
  induction ops with
  | nil => exact Adds.pure ()
  | cons op rest ih =>
      simp only [List.forM_eq_forM, List.forM_cons] at ih ⊢
      exact (instruction_adds op).bind fun _ => ih

/-- Unwinding a frame. -/
theorem unwindFrame_adds (p : Place) (params returns : Nat) :
    Adds (unwindFrame p params returns) := by
  refine height_adds.bind fun actual => Adds.ite Adds.violation (Adds.ite ?_ ?_)
  · exact (reportTooDeep_adds p "" _).bind fun _ => setHeight_adds _
  · exact (Adds.orStop _ _).bind fun r => (instructions_adds r.1).bind fun _ =>
      Adds.ite (Adds.pure ()) Adds.violation

theorem closeBlock_adds (c : GenContext) (scope line : Nat) (before : Int) :
    Adds (closeBlock c scope line before) :=
  (setLine_adds line).bind fun _ => (emitTimes_adds _ _).bind fun _ =>
    Adds.ite (expectHeight_adds line before "block") (Adds.pure ())

theorem literal_adds (l : Literal) : Adds (Gen.literal l) := by
  rw [Gen.literal]
  split
  · exact (setLine_adds l.line).bind fun _ => emit_adds _
  · exact Adds.throw

theorem objectName_adds (line : Nat) (function : String) (args : List Expr) :
    Adds (objectName line function args) := by
  unfold Gen.objectName
  split
  · exact Adds.ite ((Adds.orStop _ _).bind fun _ => Adds.pure _) Adds.violation
  · exact Adds.violation

/-- A query. -/
theorem objectQuery_adds (c : GenContext) (line : Nat) (function : String) (args : List Expr)
    (own : Item) (attachment : Nat → Reference) :
    Adds (objectQuery c line function args own attachment) := by
  refine (objectName_adds line function args).bind fun name => Adds.ite (emit_adds own) ?_
  split
  · exact emit_adds _
  · exact Adds.violation

end Primitives

end Gen

open Gen

mutual

/-- Expressions add to what is there, by recursion. -/
theorem Expr.generate_grows (c : GenContext) (p : Place) : ∀ e : Expr, Adds (e.generate c p)
  | .literal l => by
      rw [Expr.generate]
      exact literal_adds l
  | .ident line name => by
      rw [Expr.generate]
      refine (lookup_adds c p line name).bind fun found => ?_
      -- What the name refers to decides.
      rcases found with ⟨d, _ | _ | _⟩
      · exact copyVariable_adds c p line name
      · exact (labelOf_adds d).bind fun id => emit_adds _
      · exact Adds.violation
  | .instr line op args => by
      rw [Expr.generate]
      exact (Expr.generateArgs_grows c p args).bind fun _ => (setLine_adds line).bind fun _ =>
        instruction_adds op
  | .call line name args => by
      have hargs := Expr.generateArgs_grows c p args
      rw [Expr.generate]
      rcases c.dialect.builtin? name with _ | b
      · refine (lookup_adds c p line name).bind fun found => ?_
        -- Calling a function needs its entry.
        rcases found with ⟨d, _ | _ | ⟨params, returns⟩⟩
        · exact Adds.violation
        · exact Adds.violation
        · exact newLabel_adds.bind fun back => (emit_adds _).bind fun _ => hargs.bind fun _ =>
            (entryOf_adds c d).bind fun entry => (setLine_adds line).bind fun _ =>
            (jumpTo_adds entry _).bind fun _ => label_adds back
      -- One case for each way in which the builtin is compiled.
      · rcases hcode : b.code with op | _ | _ | _ | _
        · simp only [hcode]
          exact hargs.bind fun _ => instruction_adds op
        · simp only [hcode]
          exact objectQuery_adds c line name args _ _
        · simp only [hcode]
          exact objectQuery_adds c line name args _ _
        · simp only [hcode]
          exact hargs.bind fun _ => instruction_adds .codecopy
        · simp only [hcode]
          by_cases htext : b.literalArguments = true
          · simp only [if_pos htext]
            exact emitTimes_adds _ _
          · simp only [if_neg htext]
            exact hargs.bind fun _ => (emitTimes_adds _ _).bind fun _ => emitTimes_adds _ _

/-- So do arguments. -/
theorem Expr.generateArgs_grows (c : GenContext) (p : Place) : ∀ args : List Expr,
    Adds (Expr.generateArgs c p args)
  | [] => by
      rw [Expr.generateArgs]
      exact Adds.pure ()
  | e :: rest => by
      rw [Expr.generateArgs]
      exact (Expr.generateArgs_grows c p rest).bind fun _ => Expr.generate_grows c p e

end

mutual

/-- The code of a block is added to what is there. -/
theorem Block.generate_grows (c : GenContext) : ∀ (b : Block) (p : Place) (scope : Nat),
    Adds (b.generate c p scope)
  | ⟨line, stmts⟩, p, scope => by
      rw [Block.generate]
      exact height_adds.bind fun before => (Stmt.generateSeq_grows c stmts _ _).bind fun _ =>
        closeBlock_adds c scope line before

/-- So do statements in a row. -/
theorem Stmt.generateSeq_grows (c : GenContext) : ∀ (stmts : List Stmt) (p : Place) (next : Nat),
    Adds (Stmt.generateSeq c p next stmts)
  | [], p, next => by
      rw [Stmt.generateSeq]
      exact Adds.pure ()
  | s :: rest, p, next => by
      rw [Stmt.generateSeq]
      exact (Stmt.generate_grows c s p next).bind fun _ => Stmt.generateSeq_grows c rest p _

/-- The code of a statement is added to what is there. -/
theorem Stmt.generate_grows (c : GenContext) : ∀ (s : Stmt) (p : Place) (next : Nat),
    -- One case for each kind of statement; each part adds to what the earlier ones left.
    Adds (s.generate c p next)
  | .expr line e, p, next => by
      rw [Stmt.generate]
      exact (setLine_adds line).bind fun _ => height_adds.bind fun before =>
        (Expr.generate_grows c p e).bind fun _ =>
        Adds.ite (expectHeight_adds line before _) (Adds.pure ())
  | .assign line targets value, p, next => by
      rw [Stmt.generate]
      exact (setLine_adds line).bind fun _ => (Expr.generate_grows c p value).bind fun _ =>
        assignVariables_adds c p targets
  | .decl line vars value, p, next => by
      rw [Stmt.generate]
      refine (setLine_adds line).bind fun _ => height_adds.bind fun before => ?_
      have hrest : Adds (do
          expectHeight line (before + vars.length) "variable declaration"
          declareSlots c p before vars) :=
        (expectHeight_adds line _ _).bind fun _ => declareSlots_adds c p before vars
      cases value with
      | none => exact (emitTimes_adds _ _).bind fun _ => hrest
      | some e => exact (Expr.generate_grows c p e).bind fun _ => hrest
  | .func line name params returns body, p, next => by
      rw [Stmt.generate]
      exact (setLine_adds line).bind fun _ => (lookup_adds c p line name).bind fun found =>
        (entryOf_adds c found.1).bind fun entry => (setSlots_adds next 1 _).bind fun _ =>
        height_adds.bind fun before => newLabel_adds.bind fun after =>
        (jumpTo_adds after _).bind fun _ => (label_adds entry).bind fun _ =>
        (setHeight_adds _).bind fun _ => (setSlots_adds next _ returns).bind fun _ =>
        (emitTimes_adds _ _).bind fun _ => (Block.generate_grows c body _ _).bind fun _ =>
        (expectHeight_adds line _ _).bind fun _ => (unwindFrame_adds _ _ _).bind fun _ =>
        (setLine_adds line).bind fun _ => (jump_adds _).bind fun _ =>
          (label_adds after).bind fun _ =>
        expectHeight_adds line before _
  | .cond line test body, p, next => by
      rw [Stmt.generate]
      exact (setLine_adds line).bind fun _ => height_adds.bind fun before =>
        (Expr.generate_grows c p test).bind fun _ => (instruction_adds .iszero).bind fun _ =>
        newLabel_adds.bind fun after => (jumpToIf_adds after).bind fun _ =>
        (Block.generate_grows c body p next).bind fun _ => (label_adds after).bind fun _ =>
        expectHeight_adds line before _
  | .switch line subject cases, p, next => by
      rw [Stmt.generate]
      exact (setLine_adds line).bind fun _ => height_adds.bind fun before =>
        (Expr.generate_grows c p subject).bind fun _ => newLabel_adds.bind fun after =>
        (Case.generateTests_grows c cases p next).bind fun bodies =>
        (jumpTo_adds after 0).bind fun _ =>
        (Case.generateBodies_grows c cases p next after bodies).bind fun _ =>
        (label_adds after).bind fun _ => (emitTimes_adds _ 1).bind fun _ =>
        expectHeight_adds line before _
  | .loop line ⟨preLine, pre⟩ test post body, p, next => by
      rw [Stmt.generate]
      refine (setLine_adds line).bind fun _ => height_adds.bind fun before =>
        (Stmt.generateSeq_grows c pre _ _).bind fun _ => newLabel_adds.bind fun start =>
        newLabel_adds.bind fun continued => newLabel_adds.bind fun after =>
        (setLine_adds line).bind fun _ => (label_adds start).bind fun _ =>
        (Expr.generate_grows c _ test).bind fun _ => (instruction_adds .iszero).bind fun _ =>
        (jumpToIf_adds after).bind fun _ => height_adds.bind fun inner =>
        (Block.generate_grows c body _ _).bind fun _ => (label_adds continued).bind fun _ =>
        (Block.generate_grows c post _ _).bind fun _ => (jumpTo_adds start 0).bind fun _ =>
        (label_adds after).bind fun _ => ?_
      exact closeBlock_adds c next preLine before
  | .brk line, p, next => by
      rw [Stmt.generate]
      exact (setLine_adds line).bind fun _ => leaveBody_adds p line _
  | .cont line, p, next => by
      rw [Stmt.generate]
      exact (setLine_adds line).bind fun _ => leaveBody_adds p line _
  | .block ⟨line, stmts⟩, p, next => by
      rw [Stmt.generate]
      exact (setLine_adds line).bind fun _ => Block.generate_grows c ⟨line, stmts⟩ p next
  | .label line name, p, next => by
      rw [Stmt.generate]
      exact (setLine_adds line).bind fun _ => (lookup_adds c p line name).bind fun found =>
        (labelOf_adds found.1).bind fun id => label_adds id
  | .stackAssign line target, p, next => by
      rw [Stmt.generate]
      exact (setLine_adds line).bind fun _ => assignVariable_adds c p line target.name

/-- So do comparisons. -/
theorem Case.generateTests_grows (c : GenContext) : ∀ (cases : List Case) (p : Place) (next : Nat),
    Adds (Case.generateTests c p next cases)
  | [], p, next => by
      rw [Case.generateTests]
      exact Adds.pure _
  | ⟨_, none, body⟩ :: rest, p, next => by
      rw [Case.generateTests]
      exact (Block.generate_grows c body p next).bind fun _ => Case.generateTests_grows c rest p _
  | ⟨_, some l, body⟩ :: rest, p, next => by
      rw [Case.generateTests]
      exact (literal_adds l).bind fun _ => (instruction_adds _).bind fun _ =>
        (instruction_adds .eq).bind fun _ => newLabel_adds.bind fun id =>
        (jumpToIf_adds id).bind fun _ => (Case.generateTests_grows c rest p _).bind fun _ =>
        Adds.pure _

/-- So do bodies. -/
theorem Case.generateBodies_grows (c : GenContext) : ∀ (cases : List Case) (p : Place)
    (next after : Nat) (ids : List Nat), Adds (Case.generateBodies c p next after ids cases)
  | [], p, next, after, ids => by
      cases ids with
      | nil => simp only [Case.generateBodies]; exact Adds.pure ()
      | cons id ids => simp only [Case.generateBodies]; exact Adds.pure ()
  | ⟨_, none, body⟩ :: rest, p, next, after, ids => by
      cases ids with
      | nil => simp only [Case.generateBodies]; exact Case.generateBodies_grows c rest p _ after _
      | cons id ids =>
          simp only [Case.generateBodies]
          exact Case.generateBodies_grows c rest p _ after _
  | ⟨_, some l, body⟩ :: rest, p, next, after, ids => by
      cases ids with
      | nil => simp only [Case.generateBodies]; exact Adds.pure ()
      | cons id ids =>
          simp only [Case.generateBodies]
          have hrest := Case.generateBodies_grows c rest p (next + body.scopeCount) after ids
          exact (label_adds id).bind fun _ => (Block.generate_grows c body p next).bind fun _ =>
            Adds.ite hrest ((jumpTo_adds after 0).bind fun _ => hrest)

end

/-- The code of a program is added to what is there, and the reports are those of the
    end. -/
theorem generate_grows {c : GenContext} {code : Block} {before after : Assembly}
    {tooDeep : List StackTooDeep} (h : generate c code before = .ok (tooDeep, after)) :
    ∃ t, code.generate c ⟨0, none, ""⟩ 0 (.ofTarget before) = .ok ((), t) ∧ t.target = after ∧
      tooDeep = t.tooDeep.reverse ∧ (GenState.ofTarget before).Grows t := by
  rw [generate] at h
  rcases bind_eq_ok h with ⟨⟨⟨⟩, t⟩, hrun, h⟩
  cases h
  exact ⟨t, hrun, rfl, rfl, Block.generate_grows c code _ _ _ _ _ hrun⟩

/-- What was attached before code is generated is attached after. -/
theorem generate_attachments {c : GenContext} {code : Block} {before after : Assembly}
    {tooDeep : List StackTooDeep} (h : generate c code before = .ok (tooDeep, after)) :
    after.attachments = before.attachments := by
  rcases generate_grows h with ⟨_, -, rfl, -, hgrows⟩
  exact hgrows.attachments

end YulToolchain
