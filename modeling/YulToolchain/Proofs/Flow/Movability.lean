import YulToolchain.Proofs.Flow.Movable
import YulToolchain.Proofs.Static.Acceptance
import YulToolchain.Proofs.Rename.Written
import YulToolchain.Proofs.Syntax.Parts

/-!
# Movable Means Constant

Wherever an expression of an accepted program is found to be movable, it has a value in every
state in which its variables have one, evaluating it leaves the state as it was, and the value
depends on nothing but these variables and the call data.

This is about all expressions of a program, those inside others included. What acceptance
says about the outermost expressions (`Block.Stands.placed`) therefore has to be passed on to
their parts (`Expr.Counts.parts`). Of what is in sight only the variables matter, so it does
not matter where in the program the expression stands (`Expr.Counts.yields`).

## Main definitions

* `Expr.Placed`: An expression that is well formed at some place of a program.

## Theorems

* `Expr.Counts.parts`: Parts of well-formed expressions are well formed.
* `Expr.Counts.yields`: Movable expressions are well formed where their variables are in sight.
* `Block.Stands.placed`: The outermost expressions of well-formed code are well formed.
* `Block.exprs_placed`: So are all expressions of an accepted program.
* `movable_expressions_are_constant`: Movable expressions of accepted programs.
-/

namespace YulToolchain

section Parts

variable {d : Dialect} {g : Ground}

/-- A quoted expression counts as one value. -/
theorem Expr.Quoted.counts {e : Expr} (h : e.Quoted) : e.Counts d g 1 := by
  rcases h with ⟨l, rfl, hkind, hwritten⟩
  have hvalue : ∃ w, l.value = .ok w := by
    have hstring := hwritten.2
    rw [hkind] at hstring
    rcases hstring.2 with ⟨bytes, hbytes, hlength⟩
    refine ⟨Word.ofLeadingBytes bytes, ?_⟩
    rw [Literal.value, hkind]
    simp only [hbytes, Bind.bind, Except.bind, if_neg (Nat.not_lt.mpr hlength)]
  rw [Expr.Counts]
  exact ⟨hwritten, hvalue, rfl⟩

/-- A quoted expression is a text. -/
theorem Expr.Quoted.textual {e : Expr} (h : e.Quoted) : e.Textual := by
  rcases h with ⟨l, rfl, hkind, hwritten⟩
  have hstring := hwritten.2
  rw [hkind] at hstring
  rcases hstring.2 with ⟨bytes, hbytes, _⟩
  exact ⟨hkind, bytes, hbytes⟩

/-- Quoted expressions count as one value each. -/
theorem Expr.CountOnes.of_quoted : ∀ {es : List Expr}, (∀ e ∈ es, e.Quoted) →
    Expr.CountOnes d g es
  | [], _ => by rw [Expr.CountOnes]; trivial
  | e :: rest, h => by
      rw [Expr.CountOnes]
      exact ⟨(h e List.mem_cons_self).counts,
        Expr.CountOnes.of_quoted fun e' he' => h e' (List.mem_cons_of_mem _ he')⟩

/-- The arguments of a well-formed call are well formed, the names of objects among them. -/
theorem Expr.Counts.callArgs {line : Nat} {name : String} {args : List Expr} {n : Nat}
    (h : (Expr.call line name args).Counts d g n) : Expr.CountOnes d g args := by
  rw [Expr.Counts] at h
  rcases hb : d.builtin? name with _ | b
  · simp only [hb] at h
    exact h.2.2
  · simp only [hb] at h
    by_cases hlit : b.literalArguments = true
    · rw [if_pos hlit] at h
      exact .of_quoted h.2.2.2
    · rw [if_neg hlit] at h
      exact h.2.2.2

mutual

/-- Every part of a well-formed expression is well formed. -/
theorem Expr.Counts.parts {p : Expr} : ∀ {e : Expr} {n : Nat}, e.Counts d g n → p ∈ e.parts →
    ∃ m, p.Counts d g m
  | .literal _, n, h, hp => ⟨n, List.mem_singleton.mp hp ▸ h⟩
  | .ident _ _, n, h, hp => ⟨n, List.mem_singleton.mp hp ▸ h⟩
  | .instr _ _ args, n, h, hp => by
      rw [Expr.parts] at hp
      rcases List.mem_cons.mp hp with rfl | hp
      · exact ⟨n, h⟩
      · rw [Expr.Counts] at h
        exact Expr.CountOnes.parts h.2.2.2 hp
  | .call _ _ args, n, h, hp => by
      rw [Expr.parts] at hp
      rcases List.mem_cons.mp hp with rfl | hp
      · exact ⟨n, h⟩
      · exact Expr.CountOnes.parts h.callArgs hp

/-- A part of counted arguments is counted. -/
theorem Expr.CountOnes.parts {p : Expr} : ∀ {es : List Expr}, Expr.CountOnes d g es →
    p ∈ Expr.partsAll es → ∃ m, p.Counts d g m
  | [], _, hp => by
      rw [Expr.partsAll] at hp
      exact absurd hp List.not_mem_nil
  | e :: rest, h, hp => by
      rw [Expr.CountOnes] at h
      rw [Expr.partsAll] at hp
      rcases List.mem_append.mp hp with hp | hp
      · exact Expr.Counts.parts h.1 hp
      · exact Expr.CountOnes.parts h.2 hp

end

variable {v : Sight}

mutual

/-- A movable expression calls no function, so of what is in sight it needs the variables
    only. -/
theorem Expr.Counts.yields (hops : ∀ op, g.ops op → op.isStackManipulation = false) :
    ∀ {e : Expr} {n : Nat}, e.movable d = true → e.Counts d g n →
      (∀ x ∈ e.reads, x ∈ v.visible) → e.Yields d v n
  | .literal _, _, _, h, _ => by
      rw [Expr.Counts] at h
      rw [Expr.Yields]
      exact h.2
  | .ident _ y, _, _, h, hx => by
      rw [Expr.Counts] at h
      rw [Expr.Yields]
      exact ⟨hx y (by rw [Expr.reads]; exact List.mem_singleton_self y), h.2.2⟩
  | .instr _ op args, _, hm, h, hx => by
      rw [Expr.movable, Bool.and_eq_true] at hm
      rw [Expr.reads] at hx
      rw [Expr.Counts] at h
      rw [Expr.Yields]
      exact ⟨hops op h.1, h.2.1, h.2.2.1, Expr.CountOnes.yields hops hm.2 h.2.2.2 hx⟩
  | .call _ name args, _, hm, h, hx => by
      rw [Expr.movable, Bool.and_eq_true] at hm
      rw [Expr.reads] at hx
      rw [Expr.Counts] at h
      rw [Expr.Yields]
      -- Only a builtin is movable, since a call of a function is not.
      rcases hb : d.builtin? name with _ | b
      · rw [hb] at hm
        exact absurd hm.1 Bool.noConfusion
      · simp only [hb] at h ⊢
        refine ⟨h.2.1, h.2.2.1, ?_⟩
        -- Literal arguments are texts and are not evaluated.
        by_cases hlit : b.literalArguments = true
        · rw [if_pos hlit] at h ⊢
          exact fun e he => (h.2.2.2 e he).textual
        · rw [if_neg hlit] at h ⊢
          exact Expr.CountOnes.yields hops hm.2 h.2.2.2 hx

/-- Movable arguments that are counted yield one value each. -/
theorem Expr.CountOnes.yields (hops : ∀ op, g.ops op → op.isStackManipulation = false) :
    ∀ {es : List Expr}, Expr.movableAll d es = true → Expr.CountOnes d g es →
      (∀ x ∈ Expr.readsAll es, x ∈ v.visible) → Expr.YieldOnes d v es
  | [], _, _, _ => by rw [Expr.YieldOnes]; trivial
  | e :: rest, hm, h, hx => by
      rw [Expr.movableAll, Bool.and_eq_true] at hm
      rw [Expr.readsAll] at hx
      rw [Expr.CountOnes] at h
      rw [Expr.YieldOnes]
      exact ⟨Expr.Counts.yields hops hm.1 h.1 fun x hx' => hx x (List.mem_append_left _ hx'),
        Expr.CountOnes.yields hops hm.2 h.2 fun x hx' => hx x (List.mem_append_right _ hx')⟩

end

end Parts

section Programs

variable {S : Setting}

/-- An expression that is well formed at some place of a program. -/
def Expr.Placed (S : Setting) (e : Expr) : Prop :=
  ∃ (g : Ground) (n : Nat), g.ops = S.ops ∧ e.Counts S.dialect g n

theorem Expr.Counts.placed {o : Outlook} {e : Expr} {n : Nat}
    (h : e.Counts S.dialect (o.ground S) n) : e.Placed S := ⟨_, n, rfl, h⟩

theorem Expr.Counts.placed_lasting {o : Outlook} {e : Expr} {n : Nat}
    (h : e.Counts S.dialect (o.lasting S) n) : e.Placed S := ⟨_, n, rfl, h⟩

/-- The expressions that stand directly in a statement are placed. -/
theorem Stmt.Stands.placed_here {s : Stmt} {o : Outlook} {inLoop : Bool} (h : s.Stands S o inLoop) :
    ∀ e ∈ s.exprsHere, e.Placed S := by
  intro e he
  cases s with
  | expr _ value =>
      rw [Stmt.Stands] at h
      rcases h with ⟨_, h, _⟩
      exact List.mem_singleton.mp he ▸ h.placed
  | assign _ _ value =>
      rw [Stmt.Stands] at h
      exact List.mem_singleton.mp he ▸ h.2.2.placed_lasting
  | decl _ _ value =>
      rw [Stmt.Stands] at h
      cases value with
      | none => exact absurd he List.not_mem_nil
      | some value => exact List.mem_singleton.mp he ▸ (h.2.2 value rfl).placed_lasting
  | cond _ test _ =>
      rw [Stmt.Stands] at h
      exact List.mem_singleton.mp he ▸ h.1.placed
  | switch _ subject _ =>
      rw [Stmt.Stands] at h
      exact List.mem_singleton.mp he ▸ h.1.placed
  | loop _ pre test _ _ =>
      rcases pre with ⟨preLine, pre⟩
      rw [Stmt.Stands] at h
      exact List.mem_singleton.mp he ▸ h.2.1.placed
  -- These statements have no expressions of their own.
  | func | brk | cont | block | label | stackAssign => exact absurd he List.not_mem_nil

mutual

/-- The outermost expressions of well-formed code are well formed where they stand. -/
theorem Block.Stands.placed : ∀ {b : Block} {o : Outlook} {inLoop : Bool}, b.Stands S o inLoop →
    ∀ s ∈ b.allStmts, ∀ e ∈ s.exprsHere, e.Placed S
  | ⟨_, stmts⟩, o, inLoop, h, s, hs, e, he => by
      rw [Block.Stands] at h
      rw [Block.allStmts] at hs
      exact Stmt.StandSeq.placed h s hs e he

/-- All expressions in statements that stand are placed. -/
theorem Stmt.StandSeq.placed : ∀ {stmts : List Stmt} {o : Outlook} {inLoop : Bool},
    Stmt.StandSeq S o inLoop stmts →
    ∀ s ∈ Stmt.allStmtsSeq stmts, ∀ e ∈ s.exprsHere, e.Placed S
  | [], _, _, _, s, hs, _, _ => by
      rw [Stmt.allStmtsSeq] at hs
      exact absurd hs List.not_mem_nil
  | s₁ :: rest, o, inLoop, h, s, hs, e, he => by
      rw [Stmt.StandSeq] at h
      rw [Stmt.allStmtsSeq, List.mem_cons, List.mem_append] at hs
      rcases hs with rfl | hs | hs
      · exact Stmt.Stands.placed_here h.1 e he
      · exact Stmt.Stands.placed_inner h.1 s hs e he
      · exact Stmt.StandSeq.placed h.2 s hs e he

/-- The expressions in the inner statements of a statement are placed. -/
theorem Stmt.Stands.placed_inner : ∀ {s₁ : Stmt} {o : Outlook} {inLoop : Bool},
    s₁.Stands S o inLoop → ∀ s ∈ s₁.allInner, ∀ e ∈ s.exprsHere, e.Placed S
  | .func _ _ _ _ body, _, _, h, s, hs, e, he => by
      rw [Stmt.Stands] at h
      exact Block.Stands.placed h.2.2 s hs e he
  | .cond _ _ body, _, _, h, s, hs, e, he => by
      rw [Stmt.Stands] at h
      exact Block.Stands.placed h.2 s hs e he
  | .switch _ _ cases, _, _, h, s, hs, e, he => by
      rw [Stmt.Stands] at h
      exact Case.StandSeq.placed h.2.2 s hs e he
  | .loop _ ⟨_, pre⟩ _ post body, _, _, h, s, hs, e, he => by
      rw [Stmt.Stands] at h
      -- The inner statements of a loop are those of its init part, its body and its post part.
      rw [Stmt.allInner, List.mem_append, List.mem_append, Block.allStmts] at hs
      rcases hs with (hs | hs) | hs
      · exact Stmt.StandSeq.placed h.1 s hs e he
      · exact Block.Stands.placed h.2.2.1 s hs e he
      · exact Block.Stands.placed h.2.2.2 s hs e he
  | .block b, _, _, h, s, hs, e, he => by
      rw [Stmt.Stands] at h
      exact Block.Stands.placed h s hs e he
  | .expr _ _, _, _, _, _, hs, _, _ => absurd hs List.not_mem_nil
  | .assign _ _ _, _, _, _, _, hs, _, _ => absurd hs List.not_mem_nil
  | .decl _ _ _, _, _, _, _, hs, _, _ => absurd hs List.not_mem_nil
  | .brk _, _, _, _, _, hs, _, _ => absurd hs List.not_mem_nil
  | .cont _, _, _, _, _, hs, _, _ => absurd hs List.not_mem_nil
  | .label _ _, _, _, _, _, hs, _, _ => absurd hs List.not_mem_nil
  | .stackAssign _ _, _, _, _, _, hs, _, _ => absurd hs List.not_mem_nil

/-- All expressions in the cases of a switch are placed. -/
theorem Case.StandSeq.placed : ∀ {cases : List Case} {o : Outlook} {inLoop : Bool}
    {seen : List Word}, Case.StandSeq S o inLoop seen cases →
    ∀ s ∈ Case.allStmtsSeq cases, ∀ e ∈ s.exprsHere, e.Placed S
  | [], _, _, _, _, s, hs, _, _ => by
      rw [Case.allStmtsSeq] at hs
      exact absurd hs List.not_mem_nil
  | ⟨_, none, body⟩ :: rest, _, _, _, h, s, hs, e, he => by
      rw [Case.StandSeq] at h
      rw [h.2, Case.allStmtsSeq, Case.allStmtsSeq, List.append_nil] at hs
      exact Block.Stands.placed h.1 s hs e he
  | ⟨_, some _, body⟩ :: rest, _, _, _, h, s, hs, e, he => by
      rw [Case.StandSeq] at h
      rcases h with ⟨_, w, _, _, hbody, hrest⟩
      rw [Case.allStmtsSeq, List.mem_append] at hs
      rcases hs with hs | hs
      · exact Block.Stands.placed hbody s hs e he
      · exact Case.StandSeq.placed hrest s hs e he

end

/-- The instructions that code can call are not those that address the stack or the code. -/
theorem Dialect.Offers.not_stack {d : Dialect} (hd : d.flavour ≠ .loose) {op : Instruction}
    (h : d.Offers op) : op.isStackManipulation = false := by
  have hresolve := h.2 0 []
  unfold Parse.resolveCall at hresolve
  split at hresolve
  · rename_i op' hop
    cases hresolve
    rcases functionalInstruction?_eq hd hop with ⟨b, hb, hcode⟩
    exact (builtin?_instruction hb hcode).1
  · split at hresolve <;> exact absurd hresolve (by rintro ⟨⟩)

/-- Every expression of a program that is read and accepted is well formed where it stands. -/
theorem Block.exprs_placed {d : Dialect} (hd : d.flavour ≠ .loose) {source : String}
    {code : Block} {ss : Scopes} (hread : Reads d source code)
    (haccept : YulToolchain.analyze d code = .ok ss) {e : Expr} (he : e ∈ code.exprs) :
    e.Placed ⟨d, fun op => op.isStackManipulation = false,
      code.stmts.flatMap Stmt.labelsHere⟩ := by
  have hstands : code.Stands ⟨d, fun op => op.isStackManipulation = false, _⟩ [] false :=
    YulToolchain.analyze_stands (fun _ => Dialect.Offers.not_stack hd) hread.written
      (fun hloose => absurd hloose hd) haccept
  rcases Block.mem_exprs.mp he with ⟨outer, houter, hpart⟩
  rcases Block.mem_values.mp houter with ⟨s, hs, hvalue⟩
  rcases hstands.placed s hs outer hvalue with ⟨g, n, hops, hcounts⟩
  rcases hcounts.parts hpart with ⟨m, hcounts⟩
  exact ⟨g, m, hops, hcounts⟩

end Programs

/-- A movable expression of an accepted program, at whatever place and inside whatever other
    expression it stands, has values in every state in which the variables that it reads have
    one. Evaluating it leaves the state as it was, and the values are the same in every state
    with the same values of these variables and the same call data, whichever functions are in
    sight and whatever calls do. -/
theorem movable_expressions_are_constant {d : Dialect} (hd : d.flavour ≠ .loose) {source : String}
    {code : Block} {ss : Scopes} (hread : Reads d source code) (haccept : analyze d code = .ok ss)
    {e : Expr} (he : e ∈ code.exprs) (hmovable : e.movable d = true) (limits : Limits)
    (metered : Bool) {s t : RunState} (hbound : ∀ x ∈ e.reads, ∃ w, s.env.get? x = some w)
    (hdata : t.machine.calldata = s.machine.calldata)
    (hagree : ∀ x ∈ e.reads, t.env.get? x = s.env.get? x) :
    ∃ ws, ∀ (call : Caller) (fs : FunctionScopes),
      e.run ⟨d, limits, metered⟩ call fs s = .ok ws s ∧
        e.run ⟨d, limits, metered⟩ call fs t = .ok ws t := by
  rcases Block.exprs_placed hd hread haccept he with ⟨g, n, hops, hcounts⟩
  have hyields : e.Yields d ⟨[], [e.reads], []⟩ n :=
    hcounts.yields (fun op hop => by rwa [hops] at hop) hmovable
      fun x hx => List.mem_flatten.mpr ⟨e.reads, List.mem_singleton_self _, hx⟩
  rcases Expr.movable_value (c := ⟨d, limits, metered⟩) hmovable hyields hbound with
    ⟨ws, _, _, hmeans⟩
  exact ⟨ws, fun call fs => ⟨hmeans call fs s rfl fun _ _ => rfl, hmeans call fs t hdata hagree⟩⟩

/-- An expression with an instruction, a variable and the name of an object, in two states that
    differ in their memory, their steps and another variable. -/
theorem movable_expressions_are_constant_in_call :
    ∃ code ss, parseBlock .strictAssemblyForObjects
        ("\x7b function f(x) -> y " ++
          "\x7b y := sload(add(calldataload(x), datasize(\"a\"))) \x7d \x7d") = .ok code ∧
      analyze .strictAssemblyForObjects code = .ok ss ∧
      ∃ e ∈ code.exprs, e.movable .strictAssemblyForObjects = true ∧ e.reads = ["x"] ∧
        let s : RunState :=
          ⟨.initial [1, 2], 7, Environment.declareAll [("x", 1)] [.empty]⟩
        let t : RunState :=
          ⟨{ MachineState.initial [1, 2] with memory := #[3] }, 9,
            Environment.declareAll [("x", 1), ("y", 4)] [.empty]⟩
        ∃ ws, ∀ (call : Caller) (fs : FunctionScopes),
          e.run ⟨.strictAssemblyForObjects, .standard, true⟩ call fs s = .ok ws s ∧
            e.run ⟨.strictAssemblyForObjects, .standard, true⟩ call fs t = .ok ws t := by
  refine exists_of_accepted? (fun code => code.exprs.any fun e =>
    e.movable .strictAssemblyForObjects && e.reads = ["x"]) (by decide +kernel)
    fun code ss hread haccept htest => ?_
  rcases List.any_eq_true.mp htest with ⟨e, he, htest⟩
  rw [Bool.and_eq_true] at htest
  have hreads : e.reads = ["x"] := of_decide_eq_true htest.2
  -- The values that are asked for are those of the parameter, in both states.
  refine ⟨e, he, htest.1, hreads, movable_expressions_are_constant (by decide) (.inl hread) haccept
    he htest.1 .standard true (fun x hx => ?_) rfl fun x hx => ?_⟩
  · obtain rfl := List.mem_singleton.mp (hreads ▸ hx)
    exact ⟨1, by decide⟩
  · obtain rfl := List.mem_singleton.mp (hreads ▸ hx)
    decide

end YulToolchain
