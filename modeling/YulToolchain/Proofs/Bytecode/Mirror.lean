import YulToolchain.Proofs.Bytecode.Pieces
import YulToolchain.Proofs.Execution.Soundness

/-!
# Expressions on the Machine

The machine does what the interpreter does when it evaluates an expression.

`Mirrors` relates one outcome of the interpreter to the machine: if there is a value, the
machine comes to a configuration that has to do with it, and if the program halts, the
machine halts in the same way with the same state. Nothing is said of a run that was given
too few steps. There is a rule for sequencing, so that proofs follow the text of the
interpreter as those with `Ends` do, and facts about the values come from there.

The variables of a function lie in its frame on the stack. A frame is written from its
bottom upwards, as a row of words, and `Site.Agrees` says that a row holds the values of the
variables in sight. Part of a row may be missing: then it is said of the variables that are
left.

The interpreter has no positions in the code, and no objects to ask about. It does not
evaluate the arguments of builtins that have nothing but an effect on the stack, whereas
code generation does. Where code is `comparable` none of this makes a difference.

## Main definitions

* `Expr.comparable`, `Block.comparable`: Code that means the same to both.
* `Mirrors`: The machine does what an outcome of the interpreter says.
* `Site.Suits`: A site describes a place of well-formed code.
* `Site.Agrees`: A row of words holds the values of the variables in sight.
* `Caller.Mirrored`: The machine does what calls do.
* `Expr.Mirrored`, `Expr.MirroredArgs`: The machine does what evaluating an expression does.

## Theorems

* `Mirrors.bind`, `Mirrors.walk`: Sequencing.
* `Expr.Mirrored.call_function`, `Expr.Mirrored.call_builtin` and so on: One for each kind of
  expression.
* `Expr.run_mirrored`: All expressions.
-/

namespace YulToolchain

open Bytecode

mutual

/-- Whether an expression calls nothing but builtins. Instructions are not read as such
    where builtins have nothing but an effect on the stack. -/
def Expr.callsBuiltins (d : Dialect) : Expr → Bool
  | .literal _ => true
  | .ident _ _ => true
  | .instr _ _ _ => false
  | .call _ name args => (d.builtin? name).isSome && Expr.callBuiltins d args

/-- Whether some expressions call nothing but builtins. -/
def Expr.callBuiltins (d : Dialect) : List Expr → Bool
  | [] => true
  | e :: rest => e.callsBuiltins d && Expr.callBuiltins d rest

end

mutual

/-- Whether an expression asks neither for its position nor about objects. If builtins have
    nothing but an effect on the stack, functions must not be called in their arguments. -/
def Expr.comparable (d : Dialect) : Expr → Bool
  | .literal _ => true
  | .ident _ _ => true
  | .instr _ op args => op != .pc && Expr.comparableAll d args
  | .call _ name args => match d.builtin? name with
    | some b => match b.code with
      | .instruction op => op != .pc && Expr.comparableAll d args
      | .dataSize => false
      | .dataOffset => false
      | .dataCopy => Expr.comparableAll d args
      | .stackEffectOnly => b.literalArguments || Expr.callBuiltins d args
    | none => Expr.comparableAll d args

/-- Whether some expressions do so. -/
def Expr.comparableAll (d : Dialect) : List Expr → Bool
  | [] => true
  | e :: rest => e.comparable d && Expr.comparableAll d rest

end

/-- Whether the expressions of a statement are such and no variable is assigned twice. -/
def Stmt.comparable (d : Dialect) (s : Stmt) : Bool :=
  decide s.assignsHere.Nodup && s.exprsHere.all (Expr.comparable d)

/-- Whether all statements inside a block are such. -/
def Block.comparable (d : Dialect) (b : Block) : Bool := b.allStmts.all (Stmt.comparable d)

section Outcomes

variable {α β : Type} {limits : Limits} {code : List UInt8} {size : Nat} {c c' : Config}

/-- What an outcome of the interpreter says is what the machine does from a configuration:
    it comes to one with a property, or halts in the same way with the same state. It may do
    anything if there were too few steps. -/
def Mirrors (limits : Limits) (code : List UInt8) (size : Nat) (c : Config) (r : Outcome α)
    (Q : α → RunState → Config → Prop) : Prop :=
  match r with
  | .ok a t => ∃ c', Walks limits code size c c' ∧ Q a t c'
  | .error halt t => halt = .ended .stepLimit ∨ ∃ c', Walks limits code size c c' ∧
      c'.pc < size ∧ step limits code c' = .halted halt t.machine

variable {P P' : α → RunState → Config → Prop} {Q : β → RunState → Config → Prop}

theorem Mirrors.ok {a : α} {t : RunState} (h : P a t c) : Mirrors limits code size c (.ok a t) P :=
  ⟨c, .refl c, h⟩

/-- Before the interpreter does anything, the machine may go on. -/
theorem Mirrors.walk {r : Outcome α} (h : Walks limits code size c c')
    (hr : Mirrors limits code size c' r P) : Mirrors limits code size c r P := by
  cases r with
  | ok a t =>
      rcases hr with ⟨c'', hwalk, hP⟩
      exact ⟨c'', h.trans hwalk, hP⟩
  | error halt t =>
      rcases hr with hlimit | ⟨c'', hwalk, hhalt⟩
      · exact Or.inl hlimit
      · exact Or.inr ⟨c'', h.trans hwalk, hhalt⟩

/-- Afterwards, too. -/
theorem Mirrors.mono {r : Outcome α} (h : Mirrors limits code size c r P)
    (hP : ∀ a t c', P a t c' → ∃ c'', Walks limits code size c' c'' ∧ P' a t c'') :
    Mirrors limits code size c r P' := by
  cases r with
  | ok a t =>
      rcases h with ⟨c', hwalk, h⟩
      rcases hP a t c' h with ⟨c'', hwalk', h'⟩
      exact ⟨c'', hwalk.trans hwalk', h'⟩
  | error halt t => exact h

/-- What mirrors the two parts mirrors the whole. -/
theorem Mirrors.bind {m : Run α} {f : α → Run β} {s : RunState}
    (hm : Mirrors limits code size c (m s) P)
    (hf : ∀ a t c', P a t c' → Mirrors limits code size c' (f a t) Q) :
    Mirrors limits code size c ((m >>= f) s) Q := by
  simp only [Bind.bind, EStateM.bind]
  cases hr : m s with
  | ok a t =>
      rw [hr] at hm
      rcases hm with ⟨c', hwalk, h⟩
      exact (hf a t c' h).walk hwalk
  | error halt t =>
      rw [hr] at hm
      exact hm

/-- What is known of the interpreter alone. -/
theorem Mirrors.and {r : Outcome α} {R : α → RunState → Prop} (h : Mirrors limits code size c r P)
    (hR : Ends r R) : Mirrors limits code size c r fun a t c' => P a t c' ∧ R a t := by
  cases r with
  | ok a t =>
      rcases h with ⟨c', hwalk, h⟩
      exact ⟨c', hwalk, h, hR⟩
  | error halt t => exact h

/-- Counting a step is nothing to the machine. -/
theorem Mirrors.stepped {ctx : RunContext} {m : Run α} {s : RunState}
    (h : ∀ t, Steady s t → t.machine = s.machine → Mirrors limits code size c (m t) P) :
    Mirrors limits code size c ((Run.step ctx >>= fun _ => m) s) P := by
  have hstep : Mirrors limits code size c (Run.step ctx s) fun _ t c' =>
      t = { s with steps := s.steps + 1 } ∧ c' = c := by
    rw [Run.step_eq]
    split
    · exact Or.inl rfl
    · exact ⟨c, .refl c, rfl, rfl⟩
  refine hstep.bind ?_
  rintro _ _ _ ⟨rfl, rfl⟩
  exact h _ ⟨rfl, rfl⟩ rfl

/-- The scope is entered and left without the machine. -/
theorem Mirrors.inScope {m : Run α} {s : RunState}
    (h : Mirrors limits code size c (m { s with env := .empty :: s.env }) fun a t =>
      P a { t with env := t.env.tail }) :
    Mirrors limits code size c (Run.inScope m s) P := by
  rw [Run.inScope]
  refine Mirrors.bind (P := fun _ t c' => t = { s with env := .empty :: s.env } ∧ c' = c)
    ⟨c, .refl c, rfl, rfl⟩ ?_
  rintro _ _ _ ⟨rfl, rfl⟩
  exact h.bind fun a t c' hP => ⟨c', .refl c', hP⟩

/-- A single value is mirrored by nothing. -/
theorem Mirrors.single {line : Nat} {values : List Word} {s : RunState} (h : values.length = 1) :
    Mirrors limits code size c (Run.single line values s) fun value t c' =>
      values = [value] ∧ t = s ∧ c' = c := by
  match values, h with
  | [_], _ => exact ⟨c, .refl c, rfl, rfl, rfl⟩

end Outcomes

/-- The functions in sight are comparable. -/
def FunctionScopes.Comparable (d : Dialect) (fs : FunctionScopes) : Prop :=
  ∀ here ∈ fs, ∀ f ∈ here, f.body.comparable d = true

/-- A site describes a place of well-formed code: it has the functions in sight, all of them
    placed, and slots of their own for the variables. -/
structure Site.Suits (d : Dialect) (items : List Item) (v : Sight) (k : Site) : Prop where
  distinct : v.Distinct
  fit : v.functions.Fit d
  functions : k.functions.functions = v.functions
  placed : k.functions.Placed d items
  comparable : v.functions.Comparable d
  laid : k.Laid

/-- A row of words holds the values of the variables in sight, as far as it goes. -/
def Site.Agrees (k : Site) (v : Sight) (env : Environment) (row : List Word) : Prop :=
  ∀ x ∈ v.visible, ∀ slot < row.length, k.slots.lookup x = some slot →
    row[slot]? = env.get? x

/-- The machine does what calls of placed functions do, and returns to where it is told
    to. -/
def Caller.Mirrored (limits : Limits) (d : Dialect) (items : List Item) (code : List UInt8)
    (call : Caller) : Prop :=
  ∀ (here : List (FunctionDef × Nat)) (outer : EntryTable) (f : FunctionDef)
    (entry first last : Nat)
    (piece : List Item), (f, entry) ∈ here → EntryTable.Placed d items (here :: outer) →
    (EntryTable.functions (here :: outer)).Fit d →
    (EntryTable.functions (here :: outer)).Comparable d →
    f.Coded d (here :: outer) entry piece → Item.Span items first piece last →
    ∀ (args : List Word) (ret : Word) (back : Nat) (stack : List Word) (s : RunState),
      args.length = f.params.length → Points code ret back →
      Mirrors limits code (Item.sizeAll items) ⟨first, args ++ ret :: stack, s.machine⟩
        (call (EntryTable.functions (here :: outer)) f args s) fun values t c' =>
          c' = ⟨back, values.reverse ++ stack, t.machine⟩

section Rows

variable {d : Dialect} {items : List Item} {v : Sight} {k : Site} {env : Environment}
  {row more : List Word}

theorem Site.Suits.push (h : k.Suits d items v) (n : Nat) : (k.push n).Suits d items v :=
  ⟨h.distinct, h.fit, h.functions, h.placed, h.comparable, h.laid.push n⟩

/-- A function in sight is called where it is placed, whatever else is in sight. -/
theorem Site.Suits.callee (h : k.Suits d items v) {name : String} {f : FunctionDef} {entry : Nat}
    (hf : k.functions.find? name = some (f, entry)) : v.functions.find? name = some f ∧
      ∃ here outer first last piece, (f, entry) ∈ here ∧ EntryTable.Placed d items (here :: outer) ∧
        (EntryTable.functions (here :: outer)).Fit d ∧
        (EntryTable.functions (here :: outer)).Comparable d ∧
        f.Coded d (here :: outer) entry piece ∧ Item.Span items first piece last ∧
        ∀ call : Caller, call.Lexical d → ∀ args,
          call v.functions f args = call (EntryTable.functions (here :: outer)) f args := by
  -- No two functions in sight have the same name.
  have hnodup : (k.functions.functions.flatten.map (·.name)).Nodup := by
    rw [h.functions]
    exact h.distinct.functionNames_nodup
  have hfit := h.fit
  have hcomparable := h.comparable
  have hplaced := h.placed
  rw [← h.functions] at hfit hcomparable ⊢
  refine ⟨by rw [EntryTable.find?_functions, hf]; rfl, ?_⟩
  -- The function is found in the innermost table that has its name.
  rcases EntryTable.find?_split hf with ⟨inner, here, outer, htable, hmem, hfind⟩
  rw [htable] at hfit hcomparable hplaced hnodup ⊢
  have hsplit : EntryTable.functions (inner ++ here :: outer)
      = EntryTable.functions inner ++ EntryTable.functions (here :: outer) := List.map_append
  rw [hsplit] at hfit hcomparable hnodup ⊢
  have hplaced := hplaced.suffix
  rcases hplaced.1 _ hmem with ⟨first, piece, last, hcoded, hspan⟩
  refine ⟨here, outer, first, last, piece, hmem, hplaced, hfit.suffix,
    fun fs hfs => hcomparable fs (List.mem_append_right _ hfs), hcoded, hspan,
      -- Calling it from its own table gives the same, since the names in front are different.
      fun call hcall args => ?_⟩
  refine hcall _ _ name f args hfit.suffix ?_ (.append hnodup) ?_
  · rw [List.flatten_append, List.map_append] at hnodup
    exact (List.nodup_append.mp hnodup).2.1
  · rw [EntryTable.find?_functions, hfind]
    rfl

/-- Words on top of a frame do not matter. -/
theorem Site.Agrees.append (h : k.Agrees v env row) (hk : k.Suits d items v)
    (hrow : row.length = k.height) : k.Agrees v env (row ++ more) := by
  intro x hx slot _ hslot
  have hlt : slot < row.length := by
    rw [hrow]
    exact hk.laid.bounded x slot hslot
  rw [List.getElem?_append_left hlt]
  exact h x hx slot hlt hslot

end Rows

section Expressions

variable {ctx : RunContext} {call : Caller} {items : List Item} {code : List UInt8}

/-- An instruction does the same to both. -/
theorem Mirrors.instruction (hl : Loaded items code) {op : Instruction} {first : Nat}
    (h : (Item.instruction op).StandsAt items first) (hop : op.isStackManipulation = false)
    (hpc : op ≠ .pc) {args stack : List Word} (hargs : args.length = op.args) {s : RunState} :
    Mirrors ctx.limits code (Item.sizeAll items) ⟨first, args ++ stack, s.machine⟩
      (Run.instruction ctx op args s) fun values t c' =>
        c' = ⟨first + (Item.instruction op).size, values.reverse ++ stack, t.machine⟩ := by
  simp only [Run.instruction, Run.onMachine, Bind.bind, EStateM.bind]
  cases hr : op.execute ctx.limits args s.machine with
  | ok value machine =>
      refine ⟨_, .one h.lt_sizeAll ((hl.step_operate h hop hpc hargs).trans (by rw [hr])), ?_⟩
      cases value <;> rfl
  | error why machine =>
      refine Or.inr ⟨_, .refl _, h.lt_sizeAll, (hl.step_operate h hop hpc hargs).trans ?_⟩
      rw [hr]

/-- An instruction behind its arguments. -/
theorem Mirrors.operate (hl : Loaded items code) {op : Instruction} {args count : Nat}
    {inner piece : List Item} {first last : Nat} {stack : List Word} {s : RunState}
    {m : Run (List Word)} (h : op.CodedWith args count inner piece) (hpc : (op != .pc) = true)
    (hspan : Item.Span items first piece last)
    (hargs : ∀ middle, Item.Span items first inner middle →
      Mirrors ctx.limits code (Item.sizeAll items) ⟨first, stack, s.machine⟩ (m s)
        fun values t c' =>
        c' = ⟨middle, values ++ stack, t.machine⟩ ∧ values.length = args) :
    Mirrors ctx.limits code (Item.sizeAll items) ⟨first, stack, s.machine⟩
      ((do Run.instruction ctx op (← m)) s) fun values t c' =>
        c' = ⟨last, values.reverse ++ stack, t.machine⟩ := by
  rcases h with ⟨hop, rfl, rfl, rfl⟩
  rcases hspan.append with ⟨middle, hfirst, hlast⟩
  rcases hlast.cons with ⟨hhere, hend⟩
  rw [hend.nil]
  refine (hargs middle hfirst).bind ?_
  rintro values t _ ⟨rfl, hvalues⟩
  exact Mirrors.instruction hl hhere hop (bne_iff_ne.mp hpc) hvalues

/-- If one builtin has nothing but an effect on the stack, then all have. -/
theorem Dialect.stackEffectOnly_of {d : Dialect} {name name' : String} {b b' : Builtin}
    (h : d.builtin? name = some b) (hcode : b.code = .stackEffectOnly)
    (h' : d.builtin? name' = some b') : b'.code = .stackEffectOnly := by
  cases d with
  | typed => exact absurd h (by rintro ⟨⟩)
  | machine m =>
      -- The dry run takes every builtin for its effect on the stack.
      by_cases hdry : m.dryRun = true
      · simp only [Dialect.builtin?, MachineDialect.builtin?, if_pos hdry] at h'
        rcases Option.map_eq_some_iff.mp h' with ⟨_, _, rfl⟩
        rfl
      · simp only [Dialect.builtin?, MachineDialect.builtin?, if_neg hdry] at h
        -- Without the dry run, builtins are queries for objects or instructions.
        rcases Option.or_eq_some_iff.mp h with hobject | ⟨_, hinstruction⟩
        · split at hobject
          · unfold Builtin.objectAccess? at hobject
            split at hobject <;> cases hobject <;> exact absurd hcode (by rintro ⟨⟩)
          · exact absurd hobject (by rintro ⟨⟩)
        · rcases Option.map_eq_some_iff.mp hinstruction with ⟨op, _, rfl⟩
          exact absurd hcode (by rintro ⟨⟩)

section Builtins

variable {limits : Limits} {d : Dialect}

mutual

/-- Where builtins have nothing but an effect on the stack, so has the code of their
    calls. -/
theorem Expr.Coded.walk_builtins (hl : Loaded items code)
    (hd : ∀ name b, d.builtin? name = some b → b.code = .stackEffectOnly) : ∀ (e : Expr)
    (state : MachineState) {k : Site} {count : Nat} {piece : List Item} {first last : Nat}
    {stack : List Word},
      e.callsBuiltins d = true → e.Coded d k count piece → Item.Span items first piece last →
      k.height ≤ stack.length → ∃ values, values.length = count ∧
        Walks limits code (Item.sizeAll items) ⟨first, stack, state⟩ ⟨last, values ++ stack, state⟩
  -- Only such builtins are called, so the machine state stays.
  | .literal l, state, k, count, piece, first, last, stack, _, h, hspan, _ => by
      rw [Expr.Coded] at h
      rcases h with ⟨w, _, rfl, rfl⟩
      rcases hspan.cons with ⟨hhere, hend⟩
      rw [hend.nil]
      exact ⟨[w], rfl, .one hhere.lt_sizeAll (hl.step_constant hhere)⟩
  | .ident line x, state, k, count, piece, first, last, stack, _, h, hspan, hheight => by
      rw [Expr.Coded] at h
      rcases h with ⟨slot, depth, _, hdepth, rfl, rfl⟩
      rcases hspan.cons with ⟨hhere, hend⟩
      rw [hend.nil]
      exact ⟨[stack[depth.val]], rfl, .one hhere.lt_sizeAll
        (hl.step_dup hhere (List.getElem?_eq_getElem (by omega)))⟩
  | .instr line op args, state, k, count, piece, first, last, stack, hplain, _, _, _ => by
      rw [Expr.callsBuiltins] at hplain
      exact absurd hplain Bool.noConfusion
  | .call line name args, state, k, count, piece, first, last, stack, hplain, h, hspan,
      hheight => by
      rw [Expr.callsBuiltins, Bool.and_eq_true] at hplain
      rcases Option.isSome_iff_exists.mp hplain.1 with ⟨b, hb⟩
      -- The arguments are evaluated, dropped and replaced by zeros.
      rw [Expr.Coded] at h
      simp only [hb, hd name b hb] at h
      rcases h with ⟨rfl, h⟩
      split at h
      · subst h
        exact ⟨_, List.length_replicate, hl.walk_zeros hspan⟩
      · rcases h with ⟨inner, hinner, rfl⟩
        rcases hspan.append with ⟨_, hspan, hzeros⟩
        rcases hspan.append with ⟨_, hfirst, hpops⟩
        rcases Expr.CodedArgs.walk_builtins hl hd args state hplain.2 hinner hfirst hheight
          with ⟨values, hvalues, hwalk⟩
        rw [← hvalues] at hpops
        exact ⟨_, List.length_replicate, (hwalk.trans (hl.walk_pops values hpops)).trans
          (hl.walk_zeros hzeros)⟩

/-- The same for the arguments. -/
theorem Expr.CodedArgs.walk_builtins (hl : Loaded items code)
    (hd : ∀ name b, d.builtin? name = some b → b.code = .stackEffectOnly) : ∀ (args : List Expr)
    (state : MachineState) {k : Site} {piece : List Item} {first last : Nat} {stack : List Word},
      Expr.callBuiltins d args = true → Expr.CodedArgs d k args piece →
      Item.Span items first piece last → k.height ≤ stack.length → ∃ values,
        values.length = args.length ∧
        Walks limits code (Item.sizeAll items) ⟨first, stack, state⟩ ⟨last, values ++ stack, state⟩
  | [], state, k, piece, first, last, stack, _, h, hspan, _ => by
      rw [Expr.CodedArgs] at h
      subst h
      rw [hspan.nil]
      exact ⟨[], rfl, .refl _⟩
  | e :: rest, state, k, piece, first, last, stack, hplain, h, hspan, hheight => by
      rw [Expr.callBuiltins, Bool.and_eq_true] at hplain
      rw [Expr.CodedArgs] at h
      rcases h with ⟨later, here, hlater, hhere, rfl⟩
      rcases hspan.append with ⟨middle, hfirst, hlast⟩
      rcases Expr.CodedArgs.walk_builtins hl hd rest state hplain.2 hlater hfirst hheight with
        ⟨values, hvalues, hwalk⟩
      -- The values of the later arguments are on the stack already.
      have hheight' : (k.push rest.length).height ≤ (values ++ stack).length := by
        rw [List.length_append, hvalues, Nat.add_comm]
        exact Nat.add_le_add_right hheight _
      rcases Expr.Coded.walk_builtins hl hd e state hplain.1 hhere hlast hheight' with
        ⟨ones, hones, hwalk'⟩
      refine ⟨ones ++ values, ?_, ?_⟩
      · rw [List.length_append, hones, hvalues, List.length_cons, Nat.add_comm]
      · rw [List.append_assoc]
        exact hwalk.trans hwalk'

end

end Builtins

/-- The machine does what the interpreter does for an expression, from any frame of its place. -/
def Expr.Mirrored (ctx : RunContext) (call : Caller) (items : List Item) (code : List UInt8)
    (e : Expr) : Prop :=
  ∀ ⦃k : Site⦄ ⦃v : Sight⦄ ⦃count : Nat⦄ ⦃piece : List Item⦄ ⦃first last : Nat⦄
    ⦃row below : List Word⦄ ⦃s : RunState⦄,
    e.Coded ctx.dialect k count piece → Item.Span items first piece last →
    e.comparable ctx.dialect = true → e.Yields ctx.dialect v count →
    k.Suits ctx.dialect items v → Environment.Holds v.vars s.env → row.length = k.height →
    k.Agrees v s.env row →
    Mirrors ctx.limits code (Item.sizeAll items) ⟨first, row.reverse ++ below, s.machine⟩
      (e.run ctx call v.functions s) fun values t c' =>
        c' = ⟨last, values.reverse ++ (row.reverse ++ below), t.machine⟩

/-- The machine does what the interpreter does for arguments, from the last to the first. -/
def Expr.MirroredArgs (ctx : RunContext) (call : Caller) (items : List Item) (code : List UInt8)
    (args : List Expr) : Prop :=
  ∀ ⦃k : Site⦄ ⦃v : Sight⦄ ⦃piece : List Item⦄ ⦃first last : Nat⦄ ⦃row below : List Word⦄
    ⦃s : RunState⦄,
    Expr.CodedArgs ctx.dialect k args piece → Item.Span items first piece last →
    Expr.comparableAll ctx.dialect args = true → Expr.YieldOnes ctx.dialect v args →
    k.Suits ctx.dialect items v → Environment.Holds v.vars s.env → row.length = k.height →
    k.Agrees v s.env row →
    Mirrors ctx.limits code (Item.sizeAll items) ⟨first, row.reverse ++ below, s.machine⟩
      (Expr.runArgs ctx call v.functions args s) fun values t c' =>
        c' = ⟨last, values ++ (row.reverse ++ below), t.machine⟩

namespace Expr.Mirrored

/-- A literal is pushed. -/
theorem literal (hl : Loaded items code) {l : Literal} :
    (Expr.literal l).Mirrored ctx call items code := by
  intro k v count piece first last row below s h hspan _ _ _ _ _ _
  rw [Expr.Coded] at h
  rcases h with ⟨w, hw, rfl, rfl⟩
  rcases hspan.cons with ⟨hhere, hend⟩
  rw [hend.nil, Expr.run_literal hw]
  exact ⟨_, .one hhere.lt_sizeAll (hl.step_constant hhere), rfl⟩

/-- A variable is copied from its slot. -/
theorem ident (hl : Loaded items code) {line : Nat} {x : String} :
    (Expr.ident line x).Mirrored ctx call items code := by
  intro k v count piece first last row below s h hspan _ hy hk henv hrow hagrees
  rw [Expr.Coded] at h
  rcases h with ⟨slot, depth, hslot, hdepth, rfl, rfl⟩
  rw [Expr.Yields] at hy
  rcases henv.get?_some hy.1 with ⟨w, hw⟩
  have hvalue : row[slot]? = some w := by
    rw [hagrees x hy.1 slot (by omega) hslot, hw]
  rcases hspan.cons with ⟨hhere, hend⟩
  rw [hend.nil, Expr.run_ident hw]
  have hdepth : slot + depth.val + 1 = row.length := by omega
  exact ⟨_, .one hhere.lt_sizeAll (hl.step_dup hhere ((getElem?_row hdepth).trans hvalue)), rfl⟩

/-- The arguments, then the instruction. -/
theorem instr (hl : Loaded items code) (hsound : call.Sound ctx.dialect) {line : Nat}
    {op : Instruction} {args : List Expr} (hall : Expr.MirroredArgs ctx call items code args) :
    (Expr.instr line op args).Mirrored ctx call items code := by
  intro k v count piece first last row below s h hspan hc hy hk henv hrow hagrees
  rw [Expr.Coded] at h
  rcases h with ⟨inner, hinner, hop⟩
  rw [Expr.comparable, Bool.and_eq_true] at hc
  rw [Expr.Yields] at hy
  rw [Expr.run]
  refine Mirrors.operate hl hop hc.1 hspan fun middle hfirst => ?_
  refine ((hall hinner hfirst hc.2 hy.2.2.2 hk henv
    hrow hagrees).and (Expr.runArgs_sound hsound hk.distinct hk.fit hy.2.2.2 henv)).mono ?_
  rintro values t c' ⟨hc', hvalues, _⟩
  exact ⟨c', .refl c', hc', hvalues⟩

/-- The position to return to is below the arguments, and the results are put in their place. -/
theorem call_function (hl : Loaded items code) (hsound : call.Sound ctx.dialect)
    (hlexical : call.Lexical ctx.dialect) (hcall : call.Mirrored ctx.limits ctx.dialect items code)
    {line : Nat} {name : String} {args : List Expr} (hb : ctx.dialect.builtin? name = none)
    (hall : Expr.MirroredArgs ctx call items code args) :
    (Expr.call line name args).Mirrored ctx call items code := by
  intro k v count piece first last row below s h hspan hc hy hk henv hrow hagrees
  rw [Expr.Coded] at h
  simp only [Expr.comparable] at hc
  simp only [Expr.Yields] at hy
  rw [Expr.run]
  simp only [hb] at h hc hy ⊢
  -- The function that is compiled is the one the interpreter finds.
  rcases h with ⟨f, entry, back, inner, hf, hlength, rfl, hinner, rfl⟩
  rcases hy with ⟨g, hg, -, -, hones⟩
  rcases hk.callee hf with ⟨hfound, here, outer, start, last', body, hmem, hplaced, hfit,
    hcomparable, hbody, hbodyspan, hlocal⟩
  -- A call pushes where to return to, evaluates the arguments and jumps to the entry.
  rcases hspan.cons with ⟨href, hspan⟩
  rcases hspan.append with ⟨position, hspan, hback⟩
  rcases hspan.append with ⟨_, hfirst, hgoTo⟩
  rcases hback.cons with ⟨hlabel, hend⟩
  rcases hl.step_reference href hlabel ctx.limits (row.reverse ++ below) s.machine with
    ⟨ret, hret, hstep⟩
  have hstack : (row ++ [ret]).reverse ++ below = ret :: (row.reverse ++ below) := by
    rw [List.reverse_append]
    rfl
  have hrow' : (row ++ [ret]).length = (k.push 1).height := by
    rw [List.length_append, hrow]
    rfl
  -- The pushed place is no variable.
  have hagrees' : (k.push 1).Agrees v s.env (row ++ [ret]) := hagrees.append hk hrow
  simp only [hfound]
  refine Mirrors.walk (.one href.lt_sizeAll hstep) ?_
  rw [← hstack]
  refine ((hall hinner hfirst hc hones (hk.push 1) henv
    hrow' hagrees').and (Expr.runArgs_sound hsound hk.distinct hk.fit hones henv)).bind ?_
  rintro values t _ ⟨rfl, hvalues, _⟩
  have hvalues := hvalues.trans hlength
  rw [if_pos hvalues, hlocal call hlexical, hstack]
  refine Mirrors.walk (hl.walk_goTo hgoTo (hbody.stands hbodyspan)) ?_
  -- The function leaves its results in the place of the arguments.
  refine (hcall here outer f entry start last' body hmem hplaced hfit hcomparable hbody hbodyspan
    values ret position (row.reverse ++ below) t hvalues hret).mono ?_
  rintro results u _ rfl
  rw [hend.nil]
  exact ⟨_, .one hlabel.lt_sizeAll (hl.step_label hlabel), rfl⟩

/-- A builtin is mirrored by the instruction it stands for. -/
theorem call_builtin (hl : Loaded items code) (hsound : call.Sound ctx.dialect) {line : Nat}
    {name : String} {args : List Expr} {b : Builtin} (hb : ctx.dialect.builtin? name = some b)
    (hall : Expr.MirroredArgs ctx call items code args) :
    (Expr.call line name args).Mirrored ctx call items code := by
  intro k v count piece first last row below s h hspan hc hy hk henv hrow hagrees
  -- The arguments are mirrored, and there are as many values as arguments.
  have hargs : ∀ {inner : List Item}, Expr.CodedArgs ctx.dialect k args inner →
      Expr.comparableAll ctx.dialect args = true → Expr.YieldOnes ctx.dialect v args →
      ∀ middle, Item.Span items first inner middle →
      Mirrors ctx.limits code (Item.sizeAll items) ⟨first, row.reverse ++ below, s.machine⟩
        (Expr.runArgs ctx call v.functions args s) fun values t c' =>
          c' = ⟨middle, values ++ (row.reverse ++ below), t.machine⟩ ∧
            values.length = args.length := by
    intro inner hinner hc hones middle hfirst
    refine ((hall hinner hfirst hc hones hk henv
      hrow hagrees).and (Expr.runArgs_sound hsound hk.distinct hk.fit hones henv)).mono ?_
    rintro values t c' ⟨hc', hvalues, _⟩
    exact ⟨c', .refl c', hc', hvalues⟩
  rw [Expr.Coded] at h
  simp only [Expr.comparable] at hc
  simp only [Expr.Yields] at hy
  rw [Expr.run]
  simp only [hb] at h hc hy ⊢
  rcases hy with ⟨-, -, hones⟩
  -- One case for each way in which a builtin is compiled.
  rcases hcode : b.code with op | _ | _ | _ | _
  · obtain ⟨-, rfl⟩ := Dialect.builtin?_instruction hb hcode
    simp only [hcode, Bool.and_eq_true] at h hc ⊢
    rcases h with ⟨inner, hinner, hop⟩
    exact Mirrors.operate hl hop hc.1 hspan (hargs hinner hc.2 hones)
  -- Queries for objects are not comparable.
  · simp only [hcode] at hc
    exact absurd hc Bool.noConfusion
  · simp only [hcode] at hc
    exact absurd hc Bool.noConfusion
  · obtain rfl := Dialect.builtin?_dataCopy hb hcode
    simp only [hcode] at h hc ⊢
    rcases h with ⟨inner, hinner, hop⟩
    exact Mirrors.operate hl hop rfl hspan (hargs hinner hc hones)
  · -- The machine evaluates the arguments, and drops them.
    simp only [hcode] at h hc ⊢
    rcases h with ⟨rfl, h⟩
    have hzero : (⟨last, List.replicate b.returns 0 ++ (row.reverse ++ below), s.machine⟩ : Config)
        = ⟨last, (List.replicate b.returns 0).reverse ++ (row.reverse ++ below), s.machine⟩ := by
      rw [List.reverse_replicate]
    -- Arguments that are texts are not compiled.
    by_cases htext : b.literalArguments = true
    · rw [if_pos htext] at h
      subst h
      exact ⟨_, hl.walk_zeros hspan, hzero⟩
    · rw [if_neg htext] at h
      rw [Bool.not_eq_true] at htext
      rw [htext, Bool.false_or] at hc
      rcases h with ⟨inner, hinner, rfl⟩
      rcases hspan.append with ⟨_, hspan, hzeros⟩
      rcases hspan.append with ⟨_, hfirst, hpops⟩
      have hheight : k.height ≤ (row.reverse ++ below).length := by
        rw [List.length_append, List.length_reverse, hrow]
        exact Nat.le_add_right _ _
      rcases Expr.CodedArgs.walk_builtins hl (fun _ _ => Dialect.stackEffectOnly_of hb hcode) args
        s.machine hc hinner hfirst hheight with ⟨values, hvalues, hwalk⟩
      rw [← hvalues] at hpops
      exact ⟨_, (hwalk.trans (hl.walk_pops values hpops)).trans (hl.walk_zeros hzeros), hzero⟩

end Expr.Mirrored

namespace Expr.MirroredArgs

/-- Without arguments the machine does nothing. -/
theorem nil : Expr.MirroredArgs ctx call items code [] := by
  intro k v piece first last row below s h hspan _ _ _ _ _ _
  rw [Expr.CodedArgs] at h
  subst h
  rw [hspan.nil, Expr.runArgs]
  exact ⟨_, .refl _, rfl⟩

/-- The later arguments first. -/
theorem cons (hsound : call.Sound ctx.dialect) {e : Expr} {rest : List Expr}
    (hall : Expr.MirroredArgs ctx call items code rest) (hone : e.Mirrored ctx call items code) :
    Expr.MirroredArgs ctx call items code (e :: rest) := by
  intro k v piece first last row below s h hspan hc hy hk henv hrow hagrees
  rw [Expr.CodedArgs] at h
  rcases h with ⟨later, here, hlater, hhere, rfl⟩
  rcases hspan.append with ⟨middle, hfirst, hlast⟩
  rw [Expr.comparableAll, Bool.and_eq_true] at hc
  rw [Expr.YieldOnes] at hy
  rw [Expr.runArgs]
  refine ((hall hlater hfirst hc.2 hy.2 hk henv hrow
    hagrees).and (Expr.runArgs_sound hsound hk.distinct hk.fit hy.2 henv)).bind ?_
  rintro values t _ ⟨rfl, hvalues, hst⟩
  -- The values of the other arguments are part of the frame now.
  have hrow' : (row ++ values.reverse).length = (k.push rest.length).height := by
    rw [List.length_append, List.length_reverse, hrow, hvalues]
    rfl
  have hstack : (row ++ values.reverse).reverse ++ below = values ++ (row.reverse ++ below) := by
    rw [List.reverse_append, List.reverse_reverse, List.append_assoc]
  have hagrees' : (k.push rest.length).Agrees v t.env (row ++ values.reverse) := by
    rw [hst.env]
    exact hagrees.append hk hrow
  have henv' := hst.holds henv
  rw [← hstack]
  refine ((hone hhere hlast hc.1 hy.1 (hk.push _) henv' hrow'
    hagrees').and (Expr.run_sound hsound hk.distinct hk.fit hy.1 henv')).bind ?_
  rintro ones u _ ⟨rfl, hones, _⟩
  refine (Mirrors.single hones).bind ?_
  rintro value _ _ ⟨rfl, rfl, rfl⟩
  rw [hstack]
  exact ⟨_, .refl _, rfl⟩

end Expr.MirroredArgs

mutual

/-- The machine does what the interpreter does for an expression. -/
theorem Expr.run_mirrored (hl : Loaded items code) (hsound : call.Sound ctx.dialect)
    (hlexical : call.Lexical ctx.dialect)
    (hcall : call.Mirrored ctx.limits ctx.dialect items code) : ∀ e : Expr,
    e.Mirrored ctx call items code
  | .literal _ => .literal hl
  | .ident _ _ => .ident hl
  | .instr _ _ args => .instr hl hsound (Expr.runArgs_mirrored hl hsound hlexical hcall args)
  | .call _ name args => by
      have hall := Expr.runArgs_mirrored hl hsound hlexical hcall args
      rcases hb : ctx.dialect.builtin? name with _ | b
      · exact .call_function hl hsound hlexical hcall hb hall
      · exact .call_builtin hl hsound hb hall

/-- The machine does what the interpreter does for arguments. -/
theorem Expr.runArgs_mirrored (hl : Loaded items code) (hsound : call.Sound ctx.dialect)
    (hlexical : call.Lexical ctx.dialect)
    (hcall : call.Mirrored ctx.limits ctx.dialect items code) : ∀ args : List Expr,
    Expr.MirroredArgs ctx call items code args
  | [] => .nil
  | e :: rest => .cons hsound (Expr.runArgs_mirrored hl hsound hlexical hcall rest)
      (Expr.run_mirrored hl hsound hlexical hcall e)

end

end Expressions

end YulToolchain
