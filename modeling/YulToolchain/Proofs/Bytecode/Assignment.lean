import YulToolchain.Proofs.Assembly.Jumps
import YulToolchain.Proofs.Bytecode.Lowering
import YulToolchain.Proofs.Bytecode.Simulation
import YulToolchain.Proofs.Static.Readable

/-!
# Assignments

An assignment leaves the same values in the variables of the interpreter and in the slots of
the stack.

Where a variable lies in the frame of its function depends on the declarations before it
alone. A `FrameLayout` says so for one place, and `Block.assignments` finds the layout of every
assignment of a program. The code of an assignment stores its values from the last to the
first, while the interpreter assigns them from the first to the last. This makes no difference
unless a variable is assigned twice: then the interpreter keeps the last value and the
stack the first.

## Main definitions

* `FrameLayout`: Where the variables in sight lie in the frame.
* `Block.assignments`: The assignments of a program, each with its layout.
* `FrameLayout.Carries`: The words of a frame are the values of the variables.
* `Assignment.Stored`: The code of an assignment is there, and does what the interpreter does.

## Theorems

* `Block.Coded.assignment`: Where the code of an assignment is.
* `assignments_agree`: Assignments do the same on the stack and in the interpreter.
* `repeated_target_keeps_first`: They do not if a variable is assigned twice.
-/

namespace YulToolchain

open Bytecode

/-- Where the variables in sight lie in the frame of the function, and its height. -/
structure FrameLayout where
  /-- The slots of the variables, counted from the bottom of the frame. -/
  slots : List (String × Nat)
  /-- The height of the frame. -/
  height : Nat

namespace FrameLayout

/-- The layout at the start of a program. -/
def empty : FrameLayout := ⟨[], 0⟩

/-- There are more words on the stack. -/
def push (n : Nat) (l : FrameLayout) : FrameLayout := { l with height := l.height + n }

/-- New variables lie on top of the frame. -/
def declare (names : List String) (l : FrameLayout) : FrameLayout :=
  ⟨names.zipIdx l.height ++ l.slots, l.height + names.length⟩

/-- The layout behind some statements. -/
def afterSeq (l : FrameLayout) (stmts : List Stmt) : FrameLayout :=
  stmts.foldl (fun l s => l.declare s.declaresVars) l

/-- The layout of a function: the last parameter lies lowest, and the return variables lie on
    top of the parameters. -/
def ofFunction (params returns : List TypedName) : FrameLayout :=
  empty.declare ((params.reverse ++ returns).map (·.name))

/-- The words of a frame are the values of the variables that lie there. -/
def Carries (l : FrameLayout) (env : Environment) (row : List Word) : Prop :=
  row.length = l.height ∧ ∀ x slot, l.slots.lookup x = some slot → row[slot]? = env.get? x

end FrameLayout

/-- An assignment of a program. -/
structure Assignment where
  /-- Where the variables lie. -/
  layout : FrameLayout
  /-- The variables that are assigned. -/
  targets : List Identifier
  /-- The expression with their values. -/
  value : Expr

mutual

/-- The assignments of a block. -/
def Block.assignments (l : FrameLayout) : Block → List Assignment
  | ⟨_, stmts⟩ => Stmt.assignmentsSeq l stmts

/-- The assignments of some statements. -/
def Stmt.assignmentsSeq (l : FrameLayout) : List Stmt → List Assignment
  | [] => []
  | s :: rest => s.assignments l ++ Stmt.assignmentsSeq (l.declare s.declaresVars) rest

/-- The assignments of a statement. -/
def Stmt.assignments (l : FrameLayout) : Stmt → List Assignment
  | .assign _ targets value => [⟨l, targets, value⟩]
  | .func _ _ params returns body => body.assignments (.ofFunction params returns)
  | .cond _ _ body => body.assignments l
  -- The subject stays on the stack.
  | .switch _ _ cases => Case.assignmentsSeq (l.push 1) cases
  | .loop _ ⟨_, pre⟩ _ post body => Stmt.assignmentsSeq l pre ++
      (body.assignments (l.afterSeq pre) ++ post.assignments (l.afterSeq pre))
  | .block b => b.assignments l
  | _ => []

/-- The assignments of some cases. -/
def Case.assignmentsSeq (l : FrameLayout) : List Case → List Assignment
  | [] => []
  | ⟨_, _, body⟩ :: rest => body.assignments l ++ Case.assignmentsSeq l rest

end

/-- The layout at a site. -/
def Site.layout (k : Site) : FrameLayout := ⟨k.slots, k.height⟩

/-- The layout of a site grows with its statements. -/
theorem Site.layout_afterSeq (k : Site) (stmts : List Stmt) :
    (k.afterSeq stmts).layout = k.layout.afterSeq stmts := by
  induction stmts generalizing k with
  | nil => rfl
  | cons s rest ih => exact ih (k.after s)

/-- A function starts with the layout of its variables. -/
theorem Site.layout_ofFunction (t : EntryTable) (params returns : List TypedName) :
    (Site.ofFunction t params returns).layout = .ofFunction params returns := by
  rw [FrameLayout.ofFunction, FrameLayout.declare, FrameLayout.empty, List.append_nil,
    List.length_map,
    List.length_append, List.length_reverse, Nat.zero_add]
  rfl

/-- The code of an assignment lies within some items: first that of its value, then the stores. -/
def Assignment.Within (d : Dialect) (a : Assignment) (items : List Item) : Prop :=
  ∃ k before inner moves after, Site.layout k = a.layout ∧ k.Laid ∧
    a.value.Coded d k a.targets.length inner ∧ k.CodedAssign a.targets moves ∧
    items = before ++ (inner ++ moves) ++ after

namespace Assignment.Within

variable {d : Dialect} {a : Assignment} {items more : List Item}

theorem before (h : a.Within d items) (more : List Item) : a.Within d (items ++ more) := by
  rcases h with ⟨k, before, inner, moves, after, hlayout, hlaid, hvalue, hmoves, rfl⟩
  exact ⟨k, before, inner, moves, after ++ more, hlayout, hlaid, hvalue, hmoves,
    List.append_assoc _ _ _⟩

theorem behind (h : a.Within d items) (more : List Item) : a.Within d (more ++ items) := by
  rcases h with ⟨k, before, inner, moves, after, hlayout, hlaid, hvalue, hmoves, rfl⟩
  refine ⟨k, more ++ before, inner, moves, after, hlayout, hlaid, hvalue, hmoves, ?_⟩
  rw [List.append_assoc more, List.append_assoc more]

theorem under (h : a.Within d items) (i : Item) : a.Within d (i :: items) := h.behind [i]

end Assignment.Within

section Finding

variable {d : Dialect} {a : Assignment}

mutual

/-- The code of an assignment is within that of the block. -/
theorem Block.Coded.assignment : ∀ (b : Block) {k : Site} {piece : List Item}, k.Laid →
    b.Coded d k piece → a ∈ b.assignments k.layout → a.Within d piece
  | ⟨line, stmts⟩, k, piece, hk, h, ha => by
      rw [Block.Coded] at h
      rw [Block.assignments] at ha
      rcases h with ⟨entry, code, hcode, rfl⟩
      exact (Stmt.CodedSeq.assignment stmts (hk.enter stmts entry) hcode ha).before _

/-- Each statement contributes its assignments, in the site that the earlier ones leave. -/
theorem Stmt.CodedSeq.assignment : ∀ (stmts : List Stmt) {k : Site} {piece : List Item}, k.Laid →
    Stmt.CodedSeq d k stmts piece → a ∈ Stmt.assignmentsSeq k.layout stmts → a.Within d piece
  | [], k, piece, _, _, ha => by
      rw [Stmt.assignmentsSeq] at ha
      exact absurd ha List.not_mem_nil
  | s :: rest, k, piece, hk, h, ha => by
      rw [Stmt.CodedSeq] at h
      rw [Stmt.assignmentsSeq] at ha
      rcases h with ⟨here, later, hhere, hlater, rfl⟩
      rcases List.mem_append.mp ha with ha | ha
      · exact (Stmt.Coded.assignment s hk hhere ha).before _
      · exact (Stmt.CodedSeq.assignment rest (hk.declare s.declaresVars) hlater ha).behind _

/-- The code of a statement has the code of every assignment in it, by recursion on the
    statement. -/
theorem Stmt.Coded.assignment : ∀ (s : Stmt) {k : Site} {piece : List Item}, k.Laid →
    s.Coded d k piece → a ∈ s.assignments k.layout → a.Within d piece
  | .expr _ _, _, _, _, _, ha => by
      simp only [Stmt.assignments, List.not_mem_nil] at ha
  | .assign line targets value, k, piece, hk, h, ha => by
      rw [Stmt.Coded] at h
      rw [Stmt.assignments, List.mem_singleton] at ha
      rcases h with ⟨code, moves, hvalue, hmoves, rfl⟩
      subst ha
      exact ⟨k, [], code, moves, [], rfl, hk, hvalue, hmoves, (List.append_nil _).symm⟩
  | .decl _ _ _, _, _, _, _, ha => by
      simp only [Stmt.assignments, List.not_mem_nil] at ha
  | .func line name params returns body, k, piece, hk, h, ha => by
      rw [Stmt.Coded] at h
      rw [Stmt.assignments, ← Site.layout_ofFunction k.functions] at ha
      rcases h with ⟨entry, after, code, moves, _, hbody, _, rfl⟩
      -- The assignments of a function are in its body, which stands in the middle.
      have hwithin := Block.Coded.assignment body (.ofFunction k.functions params returns) hbody ha
      exact ((((((hwithin.behind _).before _).before _).under _).behind _).before _)
  | .cond line test body, k, piece, hk, h, ha => by
      rw [Stmt.Coded] at h
      rw [Stmt.assignments] at ha
      rcases h with ⟨after, value, code, _, hbody, rfl⟩
      exact ((Block.Coded.assignment body hk hbody ha).behind _).before _
  | .switch line subject cases, k, piece, hk, h, ha => by
      rw [Stmt.Coded] at h
      rw [Stmt.assignments] at ha
      rcases h with ⟨after, ids, value, tests, bodies, _, htests, hbodies, rfl⟩
      -- The default is behind the tests, the other cases are in the bodies.
      rcases Case.Coded.assignment cases (hk.push 1) htests hbodies ha with hwithin | hwithin
      · exact (((hwithin.behind _).before _).before _).before _
      · exact (hwithin.behind _).before _
  | .loop line ⟨preLine, pre⟩ test post body, k, piece, hk, h, ha => by
      rw [Stmt.Coded] at h
      rw [Stmt.assignments] at ha
      rcases h with ⟨entry, start, next, exit, first, value, inner, last, hpre, _, hbody,
        hpost, rfl⟩
      have hlaid : ((k.enter pre entry).afterSeq pre).Laid :=
        Site.Laid.afterSeq (hk.enter pre entry) pre
      have hlayout : ((k.enter pre entry).afterSeq pre).layout = k.layout.afterSeq pre :=
        Site.layout_afterSeq _ _
      -- Assignments are in the init, the body or the post part, each with a layout of its own.
      rw [← hlayout] at ha
      rcases List.mem_append.mp ha with ha | ha
      · exact (Stmt.CodedSeq.assignment pre (hk.enter pre entry) hpre ha).before _
      rcases List.mem_append.mp ha with ha | ha
      · have hwithin := Block.Coded.assignment body (hlaid.inLoop exit next) hbody ha
        exact (((hwithin.behind _).before _).under _).behind _
      · have hwithin := Block.Coded.assignment post hlaid hpost ha
        exact ((((((hwithin.before _).before _).under _).behind _).under _).behind _)
  | .brk _, _, _, _, _, ha => by
      simp only [Stmt.assignments, List.not_mem_nil] at ha
  | .cont _, _, _, _, _, ha => by
      simp only [Stmt.assignments, List.not_mem_nil] at ha
  | .block b, k, piece, hk, h, ha => by
      rw [Stmt.Coded] at h
      rw [Stmt.assignments] at ha
      exact Block.Coded.assignment b hk h ha
  | .label _ _, _, _, _, _, ha => by
      simp only [Stmt.assignments, List.not_mem_nil] at ha
  | .stackAssign _ _, _, _, _, _, ha => by
      simp only [Stmt.assignments, List.not_mem_nil] at ha

-- The body of a default case stands among the tests.
/-- Assignments of the default are in the tests, where its code is, the others in the bodies. -/
theorem Case.Coded.assignment : ∀ (cases : List Case) {k : Site} {ids : List Nat} {after : Nat}
    {tests bodies : List Item}, k.Laid → Case.CodedTests d k cases ids tests →
      Case.CodedBodies d k after ids cases bodies → a ∈ Case.assignmentsSeq k.layout cases →
      a.Within d tests ∨ a.Within d bodies
  | [], _, _, _, _, _, _, _, _, ha => by
      rw [Case.assignmentsSeq] at ha
      exact absurd ha List.not_mem_nil
  | ⟨line, none, body⟩ :: rest, k, ids, after, tests, bodies, hk, htests, hbodies, ha => by
      rw [Case.codedTests_default] at htests
      rcases htests with ⟨rfl, rfl, hbody⟩
      rw [Case.assignmentsSeq, Case.assignmentsSeq, List.append_nil] at ha
      exact Or.inl (Block.Coded.assignment body hk hbody ha)
  | ⟨line, some l, body⟩ :: rest, k, ids, after, tests, bodies, hk, htests, hbodies, ha => by
      rw [Case.codedTests_value] at htests
      rcases htests with ⟨w, id, others, later, _, rfl, hlater, rfl⟩
      rw [Case.CodedBodies] at hbodies
      rcases hbodies with ⟨code, later', hbody, hlater', rfl⟩
      rw [Case.assignmentsSeq] at ha
      rcases List.mem_append.mp ha with ha | ha
      · exact Or.inr ((((Block.Coded.assignment body hk hbody ha).before _).before _).under _)
      · rcases Case.Coded.assignment rest hk hlater hlater' ha with hwithin | hwithin
        · exact Or.inl ((((hwithin.behind _).under _).under _).under _)
        · exact Or.inr ((hwithin.behind _).under _)

end

end Finding

/-- The code of an assignment is there, that of its value first and then a store for every
    target. The stores make of a frame with the values of the variables, and of the values that
    are on top of it, a frame with the values that the interpreter leaves in the variables. -/
def Assignment.Stored (d : Dialect) (items : List Item) (a : Assignment) : Prop :=
  ∃ k before inner depths after, Site.layout k = a.layout ∧
    a.value.Coded d k a.targets.length inner ∧ depths.length = a.targets.length ∧
    items = before ++ (inner ++ (Instruction.stores depths).map .instruction) ++ after ∧
    ∀ (ctx : RunContext) (call : Caller) (functions : FunctionScopes) (line : Nat)
        (s s₀ s₁ : RunState) (values row : List Word),
      Run.step ctx s = .ok () s₀ → a.value.run ctx call functions s₀ = .ok values s₁ →
      values.length = a.targets.length → a.layout.Carries s₁.env row →
      ∃ env row', (Stmt.assign line a.targets a.value).run ctx call functions s
          = .ok .next { s₁ with env } ∧
        a.layout.Carries env row' ∧
        ∀ limits code pc below state, performAll limits code (Instruction.stores depths)
            ⟨pc, (row ++ values).reverse ++ below, state⟩
          = some ⟨pc + (Instruction.stores depths).length, row'.reverse ++ below, state⟩

/-- An environment holds what its names say. -/
theorem Environment.holds_keys (env : Environment) :
    Environment.Holds (env.map Table.keys) env := by
  induction env with
  | nil => exact .nil
  | cons scope outer ih =>
      refine .cons (fun x => ?_) ih
      rw [Table.contains, Table.get?, List.lookup_isSome_iff, Table.keys, List.mem_map]
      constructor
      · rintro ⟨p, hp, hx⟩
        exact ⟨p, hp, (beq_iff_eq.mp hx).symm⟩
      · rintro ⟨p, hp, rfl⟩
        exact ⟨p, hp, beq_self_eq_true _⟩

/-- Assignments to variables that exist succeed. -/
theorem Run.assignAll_exists {pairs : List (String × Word)} {s : RunState}
    (h : ∀ p ∈ pairs, (s.env.get? p.1).isSome = true) :
    ∃ env, Run.assignAll pairs s = .ok () { s with env } ∧
      ∀ x, env.get? x = (pairs.reverse.lookup x).or (s.env.get? x) := by
  have hholds := Environment.holds_keys s.env
  rcases Run.assignAll_eq (v := ⟨[], s.env.map Table.keys, []⟩)
    (fun p hp => (hholds.isSome_get? p.1).mp (h p hp)) hholds with ⟨env, hrun, _, hget⟩
  exact ⟨env, hrun, hget⟩

/-- Assignments to variables that differ are stored as the interpreter makes them. -/
theorem Assignment.Within.stored {d : Dialect} {a : Assignment} {items : List Item}
    -- The code of the value is followed by one swap and pop for each target.
    (h : a.Within d items) (hnodup : (a.targets.map (·.name)).Nodup) : a.Stored d items := by
  rcases h with ⟨k, before, inner, moves, after, hlayout, hlaid, hvalue, hmoves, rfl⟩
  have htargets := hmoves.targets
  rcases hmoves.performed hlaid (n := 0) with ⟨depths, hlength, rfl, hperforms⟩
  refine ⟨k, before, inner, depths, after, hlayout, hvalue, hlength, rfl, ?_⟩
  intro ctx call functions line s s₀ s₁ values row hstep hrun hvalues hrow
  rw [← hlayout] at hrow ⊢
  rcases hperforms row values [] hrow.1 hvalues rfl with ⟨row', hrow', hother, hperform⟩
  -- The names of the list are those of the targets.
  have hfst : ((a.targets.map (·.name)).zip values).map (·.1) = a.targets.map (·.name) :=
    List.map_fst_zip (by rw [List.length_map, hvalues])
  -- Every target has a slot, so its variable exists.
  have hexists : ∀ p ∈ (a.targets.map (·.name)).zip values,
      (s₁.env.get? p.1).isSome = true := by
    intro p hp
    rcases List.mem_map.mp (List.of_mem_zip hp).1 with ⟨target, htarget, hname⟩
    rcases htargets target htarget with ⟨slot, hslot⟩
    have hlt : slot < row.length := by
      rw [hrow.1]
      exact hlaid.bounded target.name slot hslot
    rw [← hname, ← hrow.2 target.name slot hslot, List.getElem?_eq_getElem hlt]
    rfl
  rcases Run.assignAll_exists hexists with ⟨env, hassign, hget⟩
  refine ⟨env, row', ?_, ⟨hrow', fun x slot hslot => ?_⟩, fun limits code pc below state => ?_⟩
  -- The interpreter assigns the values in a list, the code one by one from the top.
  · rw [Stmt.run]
    simp only [Bind.bind, EStateM.bind, hstep, hrun, hvalues, if_true, hassign]
    rfl
  -- Where the targets are different, the order does not matter.
  · rw [hother x slot hslot, hget x, lookup_reverse_of_nodup (by rw [hfst]; exact hnodup),
      hrow.2 x slot hslot]
  · have hstores := hperform limits code pc below state
    rwa [List.append_nil, List.append_nil] at hstores

/-- In the code of an object, every assignment to variables that differ is stored as the
    interpreter makes it. -/
theorem assignments_agree {d : Dialect} (hd : d.flavour ≠ .loose) {o : Object} {source : String}
    (hread : Reads d source o.code) {namedLabels : Bool} {asm : Assembly}
    (hcompile : o.compile d namedLabels Target.fresh = .ok asm) :
    ∀ a ∈ o.code.assignments .empty, (a.targets.map (·.name)).Nodup →
      a.Stored d asm.items.toList := by
  intro a ha hnodup
  have hcoded := Object.compile_coded hd (hread.readable hd) hcompile
  exact (Block.Coded.assignment o.code .empty hcoded ha).stored hnodup

/-- A function with two return variables, whose values go to two variables that are not in the
    order of their slots. -/
theorem assignments_agree_crosswise :
    ∃ (o : Object) (asm : Assembly), parseObject .strictAssembly
        ("\x7b function f() -> a, b \x7b a := 1 b := 2 \x7d " ++
          "let x let y for \x7b let i \x7d lt(i, 3) \x7b i := add(i, 1) \x7d " ++
          "\x7b y, x := f() \x7d sstore(x, y) \x7d") = .ok o ∧
      o.compile .strictAssembly false Target.fresh = .ok asm ∧
      (o.code.assignments .empty).map (fun a => a.targets.map (·.name))
        = [["a"], ["b"], ["y", "x"], ["i"]] ∧
      ∀ a ∈ o.code.assignments .empty, a.Stored .strictAssembly asm.items.toList := by
  refine exists_of_compiled? (fun o _ => decide ((o.code.assignments .empty).map
      (fun a => a.targets.map (·.name)) = [["a"], ["b"], ["y", "x"], ["i"]]) &&
    (o.code.assignments .empty).all fun a => decide (a.targets.map (·.name)).Nodup)
    (by decide +kernel) fun o asm hread hcompile htest => ?_
  rw [Bool.and_eq_true, decide_eq_true_eq, List.all_eq_true] at htest
  exact ⟨htest.1, fun a ha => assignments_agree (by decide) (.inr ⟨o, hread, o.code_mem_codes⟩)
    hcompile a ha (of_decide_eq_true (htest.2 a ha))⟩

/-- The two values of `f` go to the same variable. The stack is left with the first one and
    the interpreter with the last. -/
theorem repeated_target_keeps_first :
    ∃ (o : Object) (asm : Assembly), parseObject .strictAssembly
        ("\x7b function f() -> a, b \x7b a := 1 b := 2 \x7d let x x, x := f() " ++
          "sstore(0, x) \x7d") = .ok o ∧
      o.compile .strictAssembly false Target.fresh = .ok asm ∧
      (∃ bytes state, asm.finish = .ok bytes ∧
        Bytecode.run .standard bytes 100 (start []) = some (.off [] state) ∧
        state.storage.get? 0 = some 1) ∧
      ∃ result, interpret .strictAssembly .standard [] o.code = .ok result ∧
        result.state.storage.get? 0 = some 2 := by
  -- Both runs are evaluated, and the stored values compared.
  refine exists_of_compiled? (fun o asm => (asm.finish.toOption.any fun bytes =>
      ((Bytecode.run .standard bytes 100 (start [])).bind (·.off?)).any fun left =>
        decide (left.1 = [] ∧ left.2.storage.get? 0 = some 1)) &&
    (interpret .strictAssembly .standard [] o.code).toOption.any fun result =>
      decide (result.state.storage.get? 0 = some 2)) (by decide +kernel) fun o asm _ _ htest => ?_
  rw [Bool.and_eq_true] at htest
  rcases exists_ok_of_any htest.1 with ⟨bytes, hfinish, hfirst⟩
  rcases exists_ok_of_any htest.2 with ⟨result, hresult, hlast⟩
  rcases exists_some_of_any hfirst with ⟨⟨stack, state⟩, hoff, hleft⟩
  rcases Option.bind_eq_some_iff.mp hoff with ⟨ending, hrun, hending⟩
  rw [Bytecode.Ending.off?_eq_some] at hending
  obtain ⟨rfl, hstorage⟩ := of_decide_eq_true hleft
  exact ⟨⟨bytes, state, hfinish, hending ▸ hrun, hstorage⟩, result, hresult,
    of_decide_eq_true hlast⟩

end YulToolchain
