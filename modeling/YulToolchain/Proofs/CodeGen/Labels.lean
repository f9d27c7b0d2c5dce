import YulToolchain.Proofs.CodeGen.Accounts

/-!
# Labels Are Defined Once

Every label that code generation hands out is defined exactly once, and everything
that is written has a meaning.

The account of expressions and statements is put together from those of their parts.
An expression defines the labels that its calls return to. A statement defines the
labels of its own places, and the entries of the functions it holds. Functions are
told apart by the number of the scope that declares them and their name, and scopes
are numbered in the order of the code, so no two functions share an entry. In a whole
program no function is called that is not defined in it, and then nothing is left
owing.

Nothing is named here: labels with names are shared by all functions of a name, and
then this fails.

## Main definitions

* `Block.functionKeys`, `Stmt.functionKeys`: The functions that code defines, with the
  numbers of the scopes they are declared in.
* `Place.InRange`: The labels that a place jumps to were handed out.
* `Block.Booked`, `Stmt.Booked`: The accounts of blocks and statements.

## Theorems

* `Block.nodup_functionKeys`: No two functions are declared in the same place.
* `Expr.generate_quiet`: Expressions.
* `Stmt.Booked.func`, `Stmt.Booked.loop` and so on: One for each kind of statement, from the
  accounts of its parts.
* `Stmt.generate_books`, `Block.generate_books`: Statements and blocks.
* `generate_labels`: Programs that are read and accepted.
-/

namespace YulToolchain

mutual

/-- The functions that a block with a number defines. -/
def Block.functionKeys (id : Nat) : Block → List Declaration
  | ⟨_, stmts⟩ => Stmt.functionKeysSeq id (id + 1) stmts

/-- The functions that statements in a scope define. -/
def Stmt.functionKeysSeq (scope next : Nat) : List Stmt → List Declaration
  | [] => []
  | s :: rest => s.functionKeys scope next ++ Stmt.functionKeysSeq scope (next + s.scopeCount) rest

/-- The functions that a statement in a scope defines, there and in the scopes that it
    opens. -/
def Stmt.functionKeys (scope next : Nat) : Stmt → List Declaration
  | .func _ name _ _ body => ⟨scope, name⟩ :: body.functionKeys (next + 1)
  | .cond _ _ body => body.functionKeys next
  | .switch _ _ cases => Case.functionKeysSeq next cases
  | .loop _ ⟨_, pre⟩ _ post body =>
    Stmt.functionKeysSeq next (next + 1) pre
      ++ body.functionKeys (next + 1 + Stmt.scopeCountSeq pre)
      ++ post.functionKeys (next + 1 + Stmt.scopeCountSeq pre + body.scopeCount)
  | .block b => b.functionKeys next
  | .expr _ _ => []
  | .assign _ _ _ => []
  | .decl _ _ _ => []
  | .brk _ => []
  | .cont _ => []
  | .label _ _ => []
  | .stackAssign _ _ => []

/-- The functions that the cases of a switch define. -/
def Case.functionKeysSeq (next : Nat) : List Case → List Declaration
  | [] => []
  | ⟨_, _, body⟩ :: rest =>
    body.functionKeys next ++ Case.functionKeysSeq (next + body.scopeCount) rest

end

section Functions

mutual

/-- The functions of a block are declared in the scopes that it opens. -/
theorem Block.mem_functionKeys : ∀ {b : Block} {id : Nat} {k : Declaration},
    k ∈ b.functionKeys id → id ≤ k.scope ∧ k.scope < id + b.scopeCount
  | ⟨_, stmts⟩, id, k, h => by
      rw [Block.functionKeys] at h
      rw [Block.scopeCount]
      rcases Stmt.scope_of_mem_functionKeysSeq h with ⟨f, -, rfl⟩ | hk
      · exact ⟨Nat.le_refl _, by dsimp only; omega⟩
      · omega

/-- A function of a list of statements is defined in its scope or in one that it opens. -/
theorem Stmt.scope_of_mem_functionKeysSeq : ∀ {stmts : List Stmt} {scope next : Nat}
    {k : Declaration}, k ∈ Stmt.functionKeysSeq scope next stmts →
      (∃ f ∈ stmts.filterMap Stmt.function?, k = ⟨scope, f.name⟩) ∨
        (next ≤ k.scope ∧ k.scope < next + Stmt.scopeCountSeq stmts)
  | [], _, _, _, h => by
      rw [Stmt.functionKeysSeq] at h
      exact absurd h List.not_mem_nil
  | s :: rest, scope, next, k, h => by
      rw [Stmt.functionKeysSeq, List.mem_append] at h
      rw [Stmt.scopeCountSeq]
      rcases h with h | h
      -- Scopes of the first statement come before those of the others.
      · rcases Stmt.scope_of_mem_functionKeys h with ⟨f, hf, rfl⟩ | hk
        · exact Or.inl ⟨f, List.mem_filterMap.mpr ⟨s, List.mem_cons_self, hf⟩, rfl⟩
        · exact Or.inr (by omega)
      · rcases Stmt.scope_of_mem_functionKeysSeq h with ⟨f, hf, rfl⟩ | hk
        · rcases List.mem_filterMap.mp hf with ⟨s', hs', hf'⟩
          exact Or.inl ⟨f, List.mem_filterMap.mpr ⟨s', List.mem_cons_of_mem _ hs', hf'⟩, rfl⟩
        · exact Or.inr (by omega)

/-- The functions of a statement are declared where it stands or in the scopes that it
    opens. -/
theorem Stmt.scope_of_mem_functionKeys : ∀ {s : Stmt} {scope next : Nat} {k : Declaration},
    k ∈ s.functionKeys scope next → (∃ f, s.function? = some f ∧ k = ⟨scope, f.name⟩) ∨
      -- One case for each statement with blocks in it.
      (next ≤ k.scope ∧ k.scope < next + s.scopeCount)
  | .func line name params returns body, scope, next, k, h => by
      rw [Stmt.functionKeys, List.mem_cons] at h
      rcases h with rfl | h
      · exact Or.inl ⟨⟨line, name, params, returns, body⟩, rfl, rfl⟩
      · have := Block.mem_functionKeys h
        rw [Stmt.scopeCount]
        exact Or.inr (by omega)
  | .cond _ _ body, scope, next, k, h => by
      rw [Stmt.functionKeys] at h
      rw [Stmt.scopeCount]
      exact Or.inr (Block.mem_functionKeys h)
  | .switch _ _ cases, scope, next, k, h => by
      rw [Stmt.functionKeys] at h
      rw [Stmt.scopeCount]
      exact Or.inr (Case.mem_functionKeysSeq h)
  | .loop _ ⟨_, pre⟩ _ post body, scope, next, k, h => by
      rw [Stmt.functionKeys, List.mem_append, List.mem_append] at h
      rw [Stmt.scopeCount, Block.scopeCount]
      refine Or.inr ?_
      rcases h with (h | h) | h
      · rcases Stmt.scope_of_mem_functionKeysSeq h with ⟨f, -, rfl⟩ | hk
        · exact ⟨Nat.le_refl _, by dsimp only; omega⟩
        · omega
      · have := Block.mem_functionKeys h
        omega
      · have := Block.mem_functionKeys h
        omega
  | .block b, scope, next, k, h => by
      rw [Stmt.functionKeys] at h
      rw [Stmt.scopeCount]
      exact Or.inr (Block.mem_functionKeys h)
  | .expr _ _, _, _, _, h | .assign _ _ _, _, _, _, h | .decl _ _ _, _, _, _, h
  | .brk _, _, _, _, h | .cont _, _, _, _, h | .label _ _, _, _, _, h
  | .stackAssign _ _, _, _, _, h => by
      rw [Stmt.functionKeys] at h
      exact absurd h List.not_mem_nil

/-- The functions of cases are in scopes that the cases open. -/
theorem Case.mem_functionKeysSeq : ∀ {cases : List Case} {next : Nat} {k : Declaration},
    k ∈ Case.functionKeysSeq next cases →
      next ≤ k.scope ∧ k.scope < next + Case.scopeCountSeq cases
  | [], _, _, h => by
      rw [Case.functionKeysSeq] at h
      exact absurd h List.not_mem_nil
  | ⟨_, _, body⟩ :: rest, next, k, h => by
      rw [Case.functionKeysSeq, List.mem_append] at h
      rw [Case.scopeCountSeq]
      rcases h with h | h
      · have := Block.mem_functionKeys h
        omega
      · have := Case.mem_functionKeysSeq h
        omega

end

variable {d : Dialect} {ss : Scopes}

mutual

/-- No two functions of a program are declared in the same scope with the same name. -/
theorem Block.nodup_functionKeys : ∀ {b : Block} {v : Sight} {scope id : Nat} {inLoop : Bool},
    b.Resolved d ss v scope id inLoop → (b.functionKeys id).Nodup
  | ⟨_, stmts⟩, v, scope, id, inLoop, h => by
      rw [Block.Resolved] at h
      rw [Block.functionKeys]
      exact Stmt.nodup_functionKeysSeq (Nat.lt_succ_self id) h.1.1 h.2.2.2

/-- No two functions of a list of statements have the same key. -/
theorem Stmt.nodup_functionKeysSeq : ∀ {stmts : List Stmt} {v : Sight} {scope next : Nat}
    {inLoop : Bool}, scope < next → ((stmts.filterMap Stmt.function?).map (·.name)).Nodup →
      Stmt.ResolvedSeq d ss v scope next inLoop stmts →
      (Stmt.functionKeysSeq scope next stmts).Nodup
  | [], _, _, _, _, _, _, _ => by
      rw [Stmt.functionKeysSeq]
      exact List.nodup_nil
  | s :: rest, v, scope, next, inLoop, hscope, hnames, h => by
      rw [Stmt.ResolvedSeq] at h
      rw [Stmt.functionKeysSeq]
      have hsplit : ((s :: rest).filterMap Stmt.function?).map (·.name)
          = s.function?.toList.map (·.name) ++ (rest.filterMap Stmt.function?).map (·.name) := by
        rw [← List.map_append, List.filterMap_cons]
        cases s.function? <;> rfl
      rw [hsplit, List.nodup_append] at hnames
      refine List.nodup_append.mpr ⟨Stmt.nodup_functionKeys hscope h.1,
        Stmt.nodup_functionKeysSeq (by omega) hnames.2.1 h.2, ?_⟩
      -- A function here and one further down differ in their names, anything else in
      -- the scope.
      rintro k hk _ hk' rfl
      rcases Stmt.scope_of_mem_functionKeys hk with ⟨f, hf, rfl⟩ | hk
      · rcases Stmt.scope_of_mem_functionKeysSeq hk' with ⟨g, hg, heq⟩ | hk'
        · refine hnames.2.2 f.name ?_ g.name (List.mem_map_of_mem hg) ?_
          · rw [hf]
            exact List.mem_singleton_self _
          · exact congrArg Declaration.name heq
        · dsimp only at hk'
          omega
      · rcases Stmt.scope_of_mem_functionKeysSeq hk' with ⟨g, -, rfl⟩ | hk'
        · dsimp only at hk
          omega
        · omega

/-- Nor do two functions of a statement. -/
theorem Stmt.nodup_functionKeys : ∀ {s : Stmt} {v : Sight} {scope next : Nat} {inLoop : Bool},
    scope < next → s.Resolved d ss v scope next inLoop → (s.functionKeys scope next).Nodup
  | .func _ _ _ _ body, v, scope, next, inLoop, hscope, h => by
      rw [Stmt.Resolved] at h
      rw [Stmt.functionKeys]
      -- The function itself is in an outer scope.
      refine List.nodup_cons.mpr ⟨fun hc => ?_, Block.nodup_functionKeys h.2.2.2.2⟩
      have := Block.mem_functionKeys hc
      dsimp only at this
      omega
  | .cond _ _ body, v, scope, next, inLoop, _, h => by
      rw [Stmt.Resolved] at h
      rw [Stmt.functionKeys]
      exact Block.nodup_functionKeys h.2
  | .switch _ _ cases, v, scope, next, inLoop, _, h => by
      rw [Stmt.Resolved] at h
      rw [Stmt.functionKeys]
      exact Case.nodup_functionKeysSeq h.2
  | .loop _ ⟨_, pre⟩ _ post body, v, scope, next, inLoop, _, h => by
      rw [Stmt.Resolved] at h
      rcases h with ⟨hfree, -, -, hpre, -, hbody, hpost⟩
      rw [Stmt.functionKeys]
      -- The three parts open different scopes.
      refine List.nodup_append.mpr ⟨List.nodup_append.mpr
        ⟨Stmt.nodup_functionKeysSeq (Nat.lt_succ_self next) hfree.1 hpre,
          Block.nodup_functionKeys hbody, ?_⟩, Block.nodup_functionKeys hpost, ?_⟩
      · rintro k hk _ hk' rfl
        have := Block.mem_functionKeys hk'
        rcases Stmt.scope_of_mem_functionKeysSeq hk with ⟨f, -, rfl⟩ | hk
        · dsimp only at this
          omega
        · omega
      · rintro k hk _ hk' rfl
        have := Block.mem_functionKeys hk'
        rcases List.mem_append.mp hk with hk | hk
        · rcases Stmt.scope_of_mem_functionKeysSeq hk with ⟨f, -, rfl⟩ | hk
          · dsimp only at this
            omega
          · omega
        · have := Block.mem_functionKeys hk
          omega
  | .block b, v, scope, next, inLoop, _, h => by
      rw [Stmt.Resolved] at h
      rw [Stmt.functionKeys]
      exact Block.nodup_functionKeys h
  | .expr _ _, _, _, _, _, _, _ | .assign _ _ _, _, _, _, _, _, _ | .decl _ _ _, _, _, _, _, _, _
  | .brk _, _, _, _, _, _, _ | .cont _, _, _, _, _, _, _ | .label _ _, _, _, _, _, _, _
  | .stackAssign _ _, _, _, _, _, _, _ => by
      rw [Stmt.functionKeys]
      exact List.nodup_nil

/-- No two functions of the cases have the same key. -/
theorem Case.nodup_functionKeysSeq : ∀ {cases : List Case} {v : Sight} {scope next : Nat}
    {inLoop : Bool} {seen : List Word}, Case.ResolvedSeq d ss v scope next inLoop seen cases →
      (Case.functionKeysSeq next cases).Nodup
  | [], _, _, _, _, _, _ => by
      rw [Case.functionKeysSeq]
      exact List.nodup_nil
  | ⟨_, none, body⟩ :: rest, v, scope, next, inLoop, seen, h => by
      rw [Case.ResolvedSeq] at h
      obtain rfl := h.2
      rw [Case.functionKeysSeq, Case.functionKeysSeq, List.append_nil]
      exact Block.nodup_functionKeys h.1
  | ⟨_, some l, body⟩ :: rest, v, scope, next, inLoop, seen, h => by
      rw [Case.ResolvedSeq] at h
      rcases h with ⟨w, -, -, hbody, hrest⟩
      rw [Case.functionKeysSeq]
      -- The body opens scopes in front of those of the other cases.
      refine List.nodup_append.mpr
        ⟨Block.nodup_functionKeys hbody, Case.nodup_functionKeysSeq hrest, ?_⟩
      rintro k hk _ hk' rfl
      have := Block.mem_functionKeys hk
      have := Case.mem_functionKeysSeq hk'
      omega

end

end Functions

open Gen

section Expressions

variable {c : GenContext} {p : Place} {next : Nat} {v : Sight}

mutual

/-- An expression defines the labels that its calls return to, and no others. -/
theorem Expr.generate_quiet (hnamed : c.namedLabels = false)
    (ht : c.scopes.Tells p.scope next v) : ∀ (e : Expr) {n : Nat}, e.Yields c.dialect v n →
      -- By recursion on the expression; only calls hand out labels, and they define them at once.
      Quiet c p.scope v.functions (e.generate c p)
  | .literal l, n, hy => by
      rw [Expr.generate]
      exact literal_quiet l
  | .ident line x, n, hy => by
      rw [Expr.Yields] at hy
      -- The variable is looked up in scopes that tell where it is.
      rcases ht.seen x hy.1 with ⟨m, type, hl, _⟩
      rw [Expr.generate, Gen.lookup, hl]
      exact copyVariable_quiet p line x
  | .instr line op args, n, hy => by
      rw [Expr.Yields] at hy
      -- No expression pushes as an instruction.
      have hpush : op.isPush = false := by
        cases op <;> first | rfl | exact absurd hy.1 Bool.noConfusion
      rw [Expr.generate]
      exact (Expr.generateArgs_quiet hnamed ht args hy.2.2.2).bind fun _ =>
        (setLine_quiet line).bind fun _ => instruction_quiet hpush
  | .call line name args, n, hy => by
      rw [Expr.Yields] at hy
      rw [Expr.generate]
      rcases hb : c.dialect.builtin? name with _ | b
      · -- The label to return to is handed out before the arguments and defined behind
        -- the jump.
        simp only [hb] at hy ⊢
        rcases hy with ⟨f, hf, -, -, hones⟩
        rcases ht.called name f hf with ⟨m, hl, _⟩
        have hargs := Expr.generateArgs_quiet hnamed ht args hones
        have hcalls : v.functions.Calls c.scopes p.scope ⟨m, name⟩ := ⟨name, f, _, hf, hl⟩
        intro s hs
        refine (lookup_ensures hl).bind ?_
        rintro _ _ ⟨rfl, rfl⟩
        refine (newLabel_books p.scope v.functions hs).bind ?_
        rintro back s₁ ⟨h₁, hback⟩
        -- The reference comes before the label, which exists by now.
        refine (reference_quiet p.scope v.functions h₁.sound hback).bind fun _ s₂ h₂ => ?_
        refine (hargs s₂ h₂.sound).bind fun _ s₃ h₃ => ?_
        refine (entryOf_books hnamed hcalls h₃.sound).bind ?_
        rintro entry s₄ ⟨h₄, _, hentry⟩
        refine (setLine_quiet line).step h₄ fun _ s₅ h₅ => ?_
        refine (jumpTo_quiet p.scope v.functions _ h₅.sound (h₅.has hentry)).bind fun _ s₆ h₆ => ?_
        refine (label_books p.scope v.functions back h₆.sound).mono fun _ s₇ h₇ => ?_
        -- Altogether the label to return to was handed out and defined.
        refine ((((((h₁.onward h₂).onward h₃).onward h₄).onward h₅).onward h₆).onward h₇).cast ?_
        funext x
        simp only [Pi.add_apply, Pi.neg_apply, Pi.zero_apply]
        omega
      · simp only [hb] at hy ⊢
        rcases hy with ⟨-, -, hargs⟩
        -- One case for each way in which the builtin is compiled.
        rcases hcode : b.code with op | _ | _ | _ | _
        · rcases Dialect.builtin?_instruction hb hcode with ⟨hop, rfl⟩
          have hpush : op.isPush = false := by
            cases op <;> first | rfl | exact absurd hop Bool.noConfusion
          simp only [Builtin.ofInstruction, Bool.false_eq_true, if_false] at hargs ⊢
          exact (Expr.generateArgs_quiet hnamed ht args hargs).bind fun _ =>
            instruction_quiet hpush
        · exact objectQuery_quiet line name args rfl (fun _ => trivial) fun _ hid _ => hid
        · exact objectQuery_quiet line name args rfl (fun _ => trivial) fun _ hid _ => hid
        · obtain rfl := Dialect.builtin?_dataCopy hb hcode
          simp only [Builtin.dataCopy, Bool.false_eq_true, if_false] at hargs
          exact (Expr.generateArgs_quiet hnamed ht args hargs).bind fun _ => instruction_quiet rfl
        · by_cases htext : b.literalArguments = true
          · simp only [if_pos htext]
            exact zeros_quiet b.returns
          · rw [if_neg htext] at hargs
            simp only [if_neg htext]
            exact (Expr.generateArgs_quiet hnamed ht args hargs).bind fun _ =>
              (pops_quiet _).bind fun _ => zeros_quiet _

/-- Arguments are quiet as their expressions are. -/
theorem Expr.generateArgs_quiet (hnamed : c.namedLabels = false)
    (ht : c.scopes.Tells p.scope next v) : ∀ (args : List Expr), Expr.YieldOnes c.dialect v args →
      Quiet c p.scope v.functions (Expr.generateArgs c p args)
  | [], _ => by
      rw [Expr.generateArgs]
      exact Quiet.pure ()
  | e :: rest, h => by
      rw [Expr.YieldOnes] at h
      rw [Expr.generateArgs]
      exact (Expr.generateArgs_quiet hnamed ht rest h.2).bind fun _ =>
        Expr.generate_quiet hnamed ht e h.1

end

end Expressions

section Switches

/-- The functions of the default case, whose code stands among the comparisons. -/
def Case.defaultKeys (next : Nat) : List Case → List Declaration
  | [] => []
  | ⟨_, none, body⟩ :: rest =>
    body.functionKeys next ++ Case.defaultKeys (next + body.scopeCount) rest
  | ⟨_, some _, body⟩ :: rest => Case.defaultKeys (next + body.scopeCount) rest

/-- The functions of the cases that have a value. -/
def Case.valueKeys (next : Nat) : List Case → List Declaration
  | [] => []
  | ⟨_, none, body⟩ :: rest => Case.valueKeys (next + body.scopeCount) rest
  | ⟨_, some _, body⟩ :: rest =>
    body.functionKeys next ++ Case.valueKeys (next + body.scopeCount) rest

/-- The default and the other cases make up all cases, in another order. -/
theorem Case.functionKeysSeq_perm (cases : List Case) (next : Nat) :
    (Case.defaultKeys next cases ++ Case.valueKeys next cases).Perm
      (Case.functionKeysSeq next cases) := by
  induction cases generalizing next with
  | nil =>
      rw [Case.defaultKeys, Case.valueKeys, Case.functionKeysSeq]
      exact List.Perm.refl _
  | cons first rest ih =>
      rcases first with ⟨_, _ | _, body⟩
      · rw [Case.defaultKeys, Case.valueKeys, Case.functionKeysSeq, List.append_assoc]
        exact (ih _).append_left _
      · rw [Case.defaultKeys, Case.valueKeys, Case.functionKeysSeq]
        exact (List.perm_append_comm_assoc _ _ _).trans ((ih _).append_left _)

end Switches

section Scoping

variable {c : GenContext}

/-- A function of a list of statements has a key there. -/
theorem Stmt.mem_functionKeysSeq {f : FunctionDef} : ∀ {stmts : List Stmt} {scope next : Nat},
    f ∈ stmts.filterMap Stmt.function? → ⟨scope, f.name⟩ ∈ Stmt.functionKeysSeq scope next stmts
  | [], _, _, h => absurd h List.not_mem_nil
  | s :: rest, scope, next, h => by
      rw [Stmt.functionKeysSeq, List.mem_append]
      rcases List.mem_filterMap.mp h with ⟨s', hs', hf⟩
      rcases List.mem_cons.mp hs' with rfl | hs'
      · cases s' with
        | func line name params returns body =>
            obtain rfl := Option.some.inj hf
            rw [Stmt.functionKeys]
            exact Or.inl List.mem_cons_self
        | _ => exact absurd hf (by rintro ⟨⟩)
      · exact Or.inr (Stmt.mem_functionKeysSeq (List.mem_filterMap.mpr ⟨s', hs', hf⟩))

/-- A function that is called inside a block is one of its own, or is called from
    outside. -/
theorem Scopes.Opened.calls {ss : Scopes} {inner outer : Nat} {v : Sight} {stmts : List Stmt}
    (hin : ss.Inherits inner outer v) (ho : ss.Opened inner stmts) {k : Declaration} (next : Nat)
    (hk : (v.enter stmts).functions.Calls ss inner k) :
    k ∈ Stmt.functionKeysSeq inner next stmts ∨ v.functions.Calls ss outer k := by
  rcases hk with ⟨x, f, symbol, hf, hl⟩
  rw [Sight.functions_enter, FunctionScopes.find?] at hf
  rcases hhere : findFunction? x (stmts.filterMap Stmt.function?) with _ | g
  · rw [hhere] at hf
    exact Or.inr ⟨x, f, symbol, hf, (hin.functions x f hf).symm.trans hl⟩
  · have hname : g.name = x := by simpa only [beq_iff_eq] using List.find?_some hhere
    have hmem := List.mem_reverse.mp (List.mem_of_find?_eq_some hhere)
    have hown := ho.functions g hmem
    rw [hname, hl, Option.some.injEq, Prod.mk.injEq] at hown
    rw [hown.1, ← hname]
    exact Or.inl (Stmt.mem_functionKeysSeq hmem)

/-- The functions of a block are in sight inside it. -/
theorem Sight.exists_find?_enter (v : Sight) {stmts : List Stmt} {f : FunctionDef}
    (hf : f ∈ stmts.filterMap Stmt.function?) :
    ∃ g, (v.enter stmts).functions.find? f.name = some g := by
  rw [Sight.functions_enter, FunctionScopes.find?]
  rcases hhere : findFunction? f.name (stmts.filterMap Stmt.function?) with _ | g
  · have hnone := List.find?_eq_none.mp hhere f (List.mem_reverse.mpr hf)
    exact absurd (beq_self_eq_true f.name) hnone
  · exact ⟨g, rfl⟩

/-- The labels that a place jumps to were handed out. -/
def Place.InRange (p : Place) (s : GenState Assembly) : Prop :=
  ∀ targets, p.loop = some targets → s.Has targets.exit ∧ s.Has targets.next

theorem Place.InRange.later {p : Place} {scope : Nat} {fs : FunctionScopes} {owed : Nat → Int}
    {keys : List Declaration} {s t : GenState Assembly} (h : p.InRange s)
    (hb : Books c scope fs owed keys s t) : p.InRange t := fun targets hp =>
  ⟨hb.has (h targets hp).1, hb.has (h targets hp).2⟩

/-- Leaving a body refers to a label that exists. -/
theorem Gen.leaveBody_quiet {p : Place} {scope : Nat} {fs : FunctionScopes} (line : Nat)
    {goal : LoopTargets → Nat} {s : GenState Assembly} (hs : s.Sound c)
    (hgoal : ∀ targets, p.loop = some targets → s.Has (goal targets)) :
    Ensures (leaveBody p line goal) s fun _ => Books c scope fs 0 [] s := by
  rw [Gen.leaveBody]
  split
  · exact Ensures.violation
  · rename_i targets hp
    have hpop : Quiet c scope fs (popUntil targets.height) :=
      height_quiet.bind fun h => (pops_quiet _).bind fun _ => Quiet.pure _
    exact (hpop s hs).bind fun popped t ht =>
      (jumpTo_quiet scope fs popped ht.sound (ht.has (hgoal targets hp))).mono
        fun _ _ hu => ht.trans hu

end Scoping

section Statements

variable {c : GenContext}

/-- How many cases of a switch have a value. -/
def Case.valueCount (cases : List Case) : Nat := cases.countP fun k => k.value.isSome

/-- The account of a block: its labels and entries, and what is owed for calls around it. -/
def Block.Booked (c : GenContext) (b : Block) : Prop :=
  ∀ ⦃p : Place⦄ ⦃id : Nat⦄ ⦃v : Sight⦄ ⦃inLoop : Bool⦄ ⦃s : GenState Assembly⦄,
    b.Resolved c.dialect c.scopes v p.scope id inLoop → c.scopes.Tells p.scope id v →
    s.Sound c → p.InRange s →
    Ensures (b.generate c p id) s fun _ => Books c p.scope v.functions 0 (b.functionKeys id) s

/-- The account of statements in a scope. -/
def Stmt.BookedSeq (c : GenContext) (stmts : List Stmt) : Prop :=
  ∀ ⦃p : Place⦄ ⦃next : Nat⦄ ⦃v : Sight⦄ ⦃inLoop : Bool⦄ ⦃s : GenState Assembly⦄,
    Stmt.ResolvedSeq c.dialect c.scopes v p.scope next inLoop stmts →
    c.scopes.Tells p.scope next v → p.scope < next →
    (∀ f ∈ stmts.filterMap Stmt.function?, ∃ g, v.functions.find? f.name = some g) →
    s.Sound c → p.InRange s →
    Ensures (Stmt.generateSeq c p next stmts) s fun _ =>
      Books c p.scope v.functions 0 (Stmt.functionKeysSeq p.scope next stmts) s

/-- The account of a statement in a scope: what it defines are its own labels, which it hands out,
    and the entries of the functions that it holds. -/
def Stmt.Booked (c : GenContext) (stmt : Stmt) : Prop :=
  ∀ ⦃p : Place⦄ ⦃next : Nat⦄ ⦃v : Sight⦄ ⦃inLoop : Bool⦄ ⦃s : GenState Assembly⦄,
    stmt.Resolved c.dialect c.scopes v p.scope next inLoop → c.scopes.Tells p.scope next v →
    p.scope < next → (∀ f, stmt.function? = some f → ∃ g, v.functions.find? f.name = some g) →
    s.Sound c → p.InRange s →
    Ensures (stmt.generate c p next) s fun _ =>
      Books c p.scope v.functions 0 (stmt.functionKeys p.scope next) s

/-- The account of the comparisons of a switch, which owe the labels of the bodies. -/
def Case.BookedTests (c : GenContext) (cases : List Case) : Prop :=
  ∀ ⦃p : Place⦄ ⦃next : Nat⦄ ⦃v : Sight⦄ ⦃inLoop : Bool⦄ ⦃seen : List Word⦄ ⦃s : GenState Assembly⦄,
    Case.ResolvedSeq c.dialect c.scopes v p.scope next inLoop seen cases →
    c.scopes.Tells p.scope next v → s.Sound c → p.InRange s →
    Ensures (Case.generateTests c p next cases) s fun ids t =>
      Books c p.scope v.functions (-onceEach ids) (Case.defaultKeys next cases) s t ∧
        ids.length = Case.valueCount cases

/-- The account of the bodies, which define these. -/
def Case.BookedBodies (c : GenContext) (cases : List Case) : Prop :=
  ∀ (ids : List Nat) ⦃after : Nat⦄ ⦃p : Place⦄ ⦃next : Nat⦄ ⦃v : Sight⦄ ⦃inLoop : Bool⦄
    ⦃seen : List Word⦄ ⦃s : GenState Assembly⦄,
    Case.ResolvedSeq c.dialect c.scopes v p.scope next inLoop seen cases →
    c.scopes.Tells p.scope next v → ids.length = Case.valueCount cases → s.Sound c →
    p.InRange s → s.Has after →
    Ensures (Case.generateBodies c p next after ids cases) s fun _ =>
      Books c p.scope v.functions (onceEach ids) (Case.valueKeys next cases) s

/-- The books of a block are those of its statements. -/
theorem Block.Booked.of_stmts {line : Nat} {stmts : List Stmt} (hinner : Stmt.BookedSeq c stmts) :
    Block.Booked c ⟨line, stmts⟩ := by
  intro p id v inLoop s hb ht hs hp
  rw [Block.Resolved] at hb
  rcases hb with ⟨-, hin, hopened, hstmts⟩
  rw [Block.generate, Block.functionKeys]
  refine Ensures.height ?_
  refine (hinner (p := { p with scope := id }) hstmts (ht.enter hin hopened)
    (Nat.lt_succ_self id) (fun f hf => v.exists_find?_enter hf) hs hp).bind fun _ t h₁ => ?_
  refine (closeBlock_quiet id line _).last h₁ fun _ u h₂ => ?_
  exact ((h₁.onward h₂).cast (add_zero 0)).leave fun k hk => hopened.calls hin _ hk

namespace Stmt.BookedSeq

theorem nil : Stmt.BookedSeq c [] := by
  intro p next v inLoop s _ _ _ _ hs _
  rw [Stmt.generateSeq, Stmt.functionKeysSeq]
  exact Ensures.pure (.refl hs)

/-- The books of the first statement come first. -/
theorem cons {first : Stmt} {rest : List Stmt} (hone : first.Booked c)
    (hmore : Stmt.BookedSeq c rest) : Stmt.BookedSeq c (first :: rest) := by
  intro p next v inLoop s hstmts ht hscope hseen hs hp
  rw [Stmt.ResolvedSeq] at hstmts
  rw [Stmt.generateSeq, Stmt.functionKeysSeq]
  have hfirst : ∀ f, first.function? = some f → ∃ g, v.functions.find? f.name = some g :=
    fun f hf => hseen f (List.mem_filterMap.mpr ⟨first, List.mem_cons_self, hf⟩)
  refine (hone hstmts.1 ht hscope hfirst hs hp).bind fun _ t h₁ => ?_
  refine (hmore hstmts.2 (ht.after hstmts.1 hscope) (by omega)
    (fun f hf => ?_) h₁.sound (hp.later h₁)).mono fun _ u h₂ => ?_
  · rw [Sight.functions_after]
    rcases List.mem_filterMap.mp hf with ⟨s', hs', hf'⟩
    exact hseen f (List.mem_filterMap.mpr ⟨s', List.mem_cons_of_mem _ hs', hf'⟩)
  · rw [Sight.functions_after] at h₂
    exact (h₁.trans h₂).cast (add_zero 0)

end Stmt.BookedSeq

namespace Stmt.Booked

/-- Expressions define no labels that stay open. -/
theorem expr (hnamed : c.namedLabels = false) {line : Nat} {e : Expr} :
    (Stmt.expr line e).Booked c := by
  intro p next v inLoop s h ht _ _ hs _
  rw [Stmt.Resolved] at h
  rw [Stmt.generate, Stmt.functionKeys]
  exact ((setLine_quiet line).bind fun _ => height_quiet.bind fun _ =>
    (Expr.generate_quiet hnamed ht e h).bind fun _ =>
      Quiet.ite (expectHeight_quiet line _ _) (Quiet.pure ())) s hs

/-- Nor do assignments. -/
theorem assign (hnamed : c.namedLabels = false) {line : Nat} {targets : List Identifier}
    {value : Expr} : (Stmt.assign line targets value).Booked c := by
  intro p next v inLoop s h ht _ _ hs _
  rw [Stmt.Resolved] at h
  rw [Stmt.generate, Stmt.functionKeys]
  exact ((setLine_quiet line).bind fun _ => (Expr.generate_quiet hnamed ht value h.1).bind
    fun _ => assignVariables_quiet p targets) s hs

/-- Nor do declarations. -/
theorem decl (hnamed : c.namedLabels = false) {line : Nat} {vars : List TypedName}
    {value : Option Expr} : (Stmt.decl line vars value).Booked c := by
  intro p next v inLoop s h ht _ _ hs _
  rw [Stmt.Resolved] at h
  rw [Stmt.generate, Stmt.functionKeys]
  have hrest : ∀ before, Quiet c p.scope v.functions (do
      expectHeight line (before + vars.length) "variable declaration"
      declareSlots c p before vars) := fun before =>
    (expectHeight_quiet line _ _).bind fun _ => declareSlots_quiet p before vars
  refine ((setLine_quiet line).bind fun _ => height_quiet.bind fun before => ?_) s hs
  cases value with
  | none => exact (zeros_quiet vars.length).bind fun _ => hrest before
  | some e => exact (Expr.generate_quiet hnamed ht e (h.1 e rfl)).bind fun _ => hrest before

/-- The label behind a function is handed out and defined here, and the entry is defined once. It
    may have been handed out before, where the function is called. -/
theorem func (hnamed : c.namedLabels = false) {line : Nat} {name : String}
    {params returns : List TypedName} {body : Block} (hinner : body.Booked c) :
    (Stmt.func line name params returns body).Booked c := by
  intro p next v inLoop s h ht hscope hseen hs hp
  rw [Stmt.Resolved] at h
  rcases h with ⟨-, hname, hin, hdecl, hbody⟩
  rcases hseen _ rfl with ⟨g, hg⟩
  have hcalls : v.functions.Calls c.scopes p.scope ⟨p.scope, name⟩ := ⟨name, g, _, hg, hname⟩
  rw [Stmt.generate, Stmt.functionKeys]
  have h₀ : Books c p.scope v.functions 0 [] s s := .refl hs
  -- The entry is asked for, which may be the first time.
  refine (setLine_quiet line).step h₀ fun _ s₁ h₁ => ?_
  refine (lookup_ensures hname).bind ?_
  rintro _ _ ⟨rfl, rfl⟩
  refine (entryOf_books hnamed hcalls h₁.sound).bind ?_
  rintro entry s₂ ⟨h₂, hentry, _⟩
  refine (setSlots_quiet next 1 _).step h₂ fun _ s₃ h₃ => Ensures.height ?_
  refine (newLabel_books p.scope v.functions h₃.sound).bind ?_
  rintro after s₄ ⟨h₄, hafter⟩
  -- The code of the function is jumped over.
  refine (jumpTo_quiet p.scope v.functions _ h₄.sound hafter).bind fun _ s₅ h₅ => ?_
  refine (label_books p.scope v.functions entry h₅.sound).bind fun _ s₆ h₆ => ?_
  refine (setHeight_quiet _).step h₆ fun _ s₇ h₇ => ?_
  refine (setSlots_quiet next _ returns).step h₇ fun _ s₈ h₈ => ?_
  refine (zeros_quiet returns.length).step h₈ fun _ s₉ h₉ => ?_
  refine (hinner (p := ⟨next, none, name⟩) hbody
    (ht.enterFunction hin hdecl) h₉.sound (fun _ hc => absurd hc (by rintro ⟨⟩))).bind
    fun _ s₁₀ h₁₀ => ?_
  -- What the body calls from around the function is called from there.
  have h₁₀ : Books c p.scope v.functions 0 (body.functionKeys (next + 1)) s₉ s₁₀ := by
    refine h₁₀.leave ?_
    rintro k ⟨x, f, symbol, hf, hl⟩
    exact Or.inr ⟨x, f, symbol, hf, (hin x f hf).symm.trans hl⟩
  -- Behind the body the frame is unwound and the return address jumped to.
  refine (expectHeight_quiet line _ _).step h₁₀ fun _ s₁₁ h₁₁ => ?_
  refine (unwindFrame_quiet _ _ _).step h₁₁ fun _ s₁₂ h₁₂ => ?_
  refine (setLine_quiet line).step h₁₂ fun _ s₁₃ h₁₃ => ?_
  refine (jump_quiet _).step h₁₃ fun _ s₁₄ h₁₄ => ?_
  refine (label_books p.scope v.functions after h₁₄.sound).bind fun _ s₁₅ h₁₅ => ?_
  refine (expectHeight_quiet line _ _).last h₁₅ fun _ s₁₆ h₁₆ => ?_
  have h₂₉ := ((((((h₃.trans h₄).trans h₅).trans h₆).trans h₇).trans h₈).trans h₉)
  have h₁₀₁₆ := (((((h₁₀.onward h₁₁).onward h₁₂).onward h₁₃).onward h₁₄).onward h₁₅).onward h₁₆
  have hall := (h₁.trans h₂).trans (h₂₉.trans h₁₀₁₆)
  -- The label of the entry was defined once for the function itself.
  refine (hall.entry ((h₂₉.trans h₁₀₁₆).keeps _ _ hentry)).cast ?_
  funext x
  simp only [Pi.add_apply, Pi.sub_apply, Pi.neg_apply, Pi.zero_apply]
  omega

/-- The label behind the body is handed out and defined. -/
theorem cond (hnamed : c.namedLabels = false) {line : Nat} {test : Expr} {body : Block}
    (hinner : body.Booked c) : (Stmt.cond line test body).Booked c := by
  intro p next v inLoop s h ht hscope _ hs hp
  rw [Stmt.Resolved] at h
  rw [Stmt.generate, Stmt.functionKeys]
  have h₀ : Books c p.scope v.functions 0 [] s s := .refl hs
  refine (setLine_quiet line).step h₀ fun _ s₁ h₁ => Ensures.height ?_
  refine (Expr.generate_quiet hnamed ht test h.1).step h₁ fun _ s₂ h₂ => ?_
  refine (instruction_quiet rfl).step h₂ fun _ s₃ h₃ => ?_
  refine (newLabel_books p.scope v.functions h₃.sound).bind ?_
  rintro after s₄ ⟨h₄, hafter⟩
  refine (jumpToIf_quiet p.scope v.functions h₄.sound hafter).bind fun _ s₅ h₅ => ?_
  have h₀₅ := (((h₁.trans h₂).trans h₃).trans h₄).trans h₅
  refine (hinner h.2 ht h₅.sound (hp.later h₀₅)).bind fun _ s₆ h₆ => ?_
  refine (label_books p.scope v.functions after h₆.sound).bind fun _ s₇ h₇ => ?_
  refine (expectHeight_quiet line _ _).last h₇ fun _ s₈ h₈ => ?_
  -- What was handed out and what was defined cancel out.
  refine (((h₀₅.trans h₆).onward h₇).onward h₈).cast ?_
  funext x
  simp only [Pi.add_apply, Pi.neg_apply, Pi.zero_apply]
  omega

/-- The labels of the cases are handed out by the comparisons and defined by the bodies. -/
theorem switch (hnamed : c.namedLabels = false) {line : Nat} {subject : Expr} {cases : List Case}
    (hcompare : Case.BookedTests c cases) (hinner : Case.BookedBodies c cases) :
    (Stmt.switch line subject cases).Booked c := by
  intro p next v inLoop s h ht hscope _ hs hp
  rw [Stmt.Resolved] at h
  rw [Stmt.generate, Stmt.functionKeys]
  have h₀ : Books c p.scope v.functions 0 [] s s := .refl hs
  refine (setLine_quiet line).step h₀ fun _ s₁ h₁ => Ensures.height ?_
  refine (Expr.generate_quiet hnamed ht subject h.1).step h₁ fun _ s₂ h₂ => ?_
  refine (newLabel_books p.scope v.functions h₂.sound).bind ?_
  rintro after s₃ ⟨h₃, hafter⟩
  have h₀₃ := (h₁.trans h₂).trans h₃
  -- Each comparison hands out one label.
  refine (hcompare h.2 ht h₃.sound (hp.later h₀₃)).bind ?_
  rintro ids s₄ ⟨h₄, hcount⟩
  refine (jumpTo_quiet p.scope v.functions _ h₄.sound (h₄.has hafter)).bind fun _ s₅ h₅ => ?_
  have h₀₅ := (h₀₃.trans h₄).onward h₅
  have hafter₅ := h₅.has (h₄.has hafter)
  refine (hinner ids h.2 ht hcount h₅.sound (hp.later h₀₅) hafter₅).bind fun _ s₆ h₆ => ?_
  refine (label_books p.scope v.functions after h₆.sound).bind fun _ s₇ h₇ => ?_
  refine (pops_quiet 1).step h₇ fun _ s₈ h₈ => ?_
  refine (expectHeight_quiet line _ _).last h₈ fun _ s₉ h₉ => ?_
  -- The labels of the cases cancel out, and that behind the switch does too.
  refine (((((h₀₅.trans h₆).onward h₇).onward h₈).onward h₉).cast ?_).perm
    (Case.functionKeysSeq_perm cases next)
  funext x
  simp only [Pi.add_apply, Pi.neg_apply, Pi.zero_apply]
  omega

/-- The three labels of a loop are handed out in front of it and defined in it. -/
theorem loop (hnamed : c.namedLabels = false) {line preLine : Nat} {pre : List Stmt} {test : Expr}
    {post body : Block} (hinit : Stmt.BookedSeq c pre) (hround : body.Booked c)
    (hthen : post.Booked c) : (Stmt.loop line ⟨preLine, pre⟩ test post body).Booked c := by
  intro p next v inLoop s h ht hscope _ hs hp
  rw [Stmt.Resolved] at h
  rcases h with ⟨-, hin, hopened, hpre, htest, hbody, hpost⟩
  have hfs : ((v.enter pre).afterSeq pre).functions = (v.enter pre).functions :=
    Sight.functions_afterSeq _ _
  have ht' := ht.enter hin hopened
  have htells := ht'.afterSeq hpre (Nat.lt_succ_self next)
  rw [Stmt.generate, Stmt.functionKeys]
  -- All of it is the code of the scope that the loop opens.
  suffices h : Ensures _ s fun _ => Books c next (v.enter pre).functions 0 _ s from
    h.mono fun _ t h => h.leave fun k hk => (hopened.calls hin (next + 1) hk).imp_left
      fun hmem => List.mem_append_left _ (List.mem_append_left _ hmem)
  have h₀ : Books c next (v.enter pre).functions 0 [] s s := .refl hs
  -- The functions of the init block are in sight in all parts.
  refine (setLine_quiet line).step h₀ fun _ s₁ h₁ => Ensures.height ?_
  refine (hinit (p := { p with scope := next }) hpre ht'
    (Nat.lt_succ_self next) (fun f hf => v.exists_find?_enter hf) h₁.sound (hp.later h₁)).bind
    fun _ s₂ h₂ => ?_
  have h₀₂ := h₁.trans h₂
  refine (newLabel_books next (v.enter pre).functions h₂.sound).bind ?_
  rintro start s₃ ⟨h₃, hstart⟩
  refine (newLabel_books next (v.enter pre).functions h₃.sound).bind ?_
  rintro continued s₄ ⟨h₄, hcontinued⟩
  refine (newLabel_books next (v.enter pre).functions h₄.sound).bind ?_
  rintro after s₅ ⟨h₅, hafter⟩
  refine (setLine_quiet line).step h₅ fun _ s₆ h₆ => ?_
  refine (label_books next (v.enter pre).functions start h₆.sound).bind fun _ s₇ h₇ => ?_
  -- The condition is generated where the init block has declared its variables.
  have hquiet := Expr.generate_quiet (p := { p with scope := next }) hnamed htells test htest
  rw [hfs] at hquiet
  refine hquiet.step h₇ fun _ s₈ h₈ => ?_
  refine (instruction_quiet rfl).step h₈ fun _ s₉ h₉ => ?_
  have h₅₉ := ((h₆.trans h₇).trans h₈).trans h₉
  refine (jumpToIf_quiet next (v.enter pre).functions h₉.sound (h₅₉.has hafter)).bind
    fun _ s₁₀ h₁₀ => Ensures.height ?_
  have h₅₁₀ := h₅₉.trans h₁₀
  have h₂₁₀ := ((h₃.trans h₄).trans h₅).trans h₅₁₀
  refine (hround (p := ⟨next, some ⟨after, continued, s₁₀.height⟩, p.function⟩) hbody htells
    h₁₀.sound ?_).bind fun _ s₁₁ h₁₁ => ?_
  -- Jumps out of the body go to labels that exist.
  · intro targets htargets
    obtain rfl := Option.some.inj htargets
    exact ⟨h₅₁₀.has hafter, h₅₁₀.has (h₅.has hcontinued)⟩
  rw [hfs] at h₁₁
  refine (label_books next (v.enter pre).functions continued h₁₁.sound).bind
    fun _ s₁₂ h₁₂ => ?_
  have h₀₁₂ := (h₀₂.onward h₂₁₀).trans (h₁₁.onward h₁₂)
  -- The post part is in the scope of the loop again.
  refine (hthen (p := { p with scope := next }) hpost
    (htells.later (Nat.le_add_right _ _)) h₁₂.sound (hp.later h₀₁₂)).bind fun _ s₁₃ h₁₃ => ?_
  rw [hfs] at h₁₃
  have hstart₁₃ := h₁₃.has ((h₁₁.onward h₁₂).has (h₅₁₀.has (h₅.has (h₄.has hstart))))
  refine (jumpTo_quiet next (v.enter pre).functions 0 h₁₃.sound hstart₁₃).bind
    fun _ s₁₄ h₁₄ => ?_
  refine (label_books next (v.enter pre).functions after h₁₄.sound).bind fun _ s₁₅ h₁₅ => ?_
  refine (closeBlock_quiet next preLine _).last h₁₅ fun _ s₁₆ h₁₆ => ?_
  -- Three labels were handed out, and all three defined.
  refine (((h₀₁₂.trans h₁₃).onward h₁₄).onward (h₁₅.onward h₁₆)).cast ?_
  funext x
  simp only [Pi.add_apply, Pi.neg_apply, Pi.zero_apply]
  omega

/-- A break refers to a label that exists. -/
theorem brk {line : Nat} : (Stmt.brk line).Booked c := by
  intro p next v inLoop s _ _ _ _ hs hp
  rw [Stmt.generate, Stmt.functionKeys]
  have h₀ : Books c p.scope v.functions 0 [] s s := .refl hs
  refine (setLine_quiet line).step h₀ fun _ s₁ h₁ => ?_
  exact (leaveBody_quiet line h₁.sound fun targets hl => (hp.later h₁ targets hl).1).mono
    fun _ s₂ h₂ => h₁.trans h₂

/-- So does a continue. -/
theorem cont {line : Nat} : (Stmt.cont line).Booked c := by
  intro p next v inLoop s _ _ _ _ hs hp
  rw [Stmt.generate, Stmt.functionKeys]
  have h₀ : Books c p.scope v.functions 0 [] s s := .refl hs
  refine (setLine_quiet line).step h₀ fun _ s₁ h₁ => ?_
  exact (leaveBody_quiet line h₁.sound fun targets hl => (hp.later h₁ targets hl).2).mono
    fun _ s₂ h₂ => h₁.trans h₂

/-- The books of a block are those inside. -/
theorem block {line : Nat} {stmts : List Stmt} (hinner : Block.Booked c ⟨line, stmts⟩) :
    (Stmt.block ⟨line, stmts⟩).Booked c := by
  intro p next v inLoop s h ht _ _ hs hp
  rw [Stmt.Resolved] at h
  rw [Stmt.generate, Stmt.functionKeys]
  have h₀ : Books c p.scope v.functions 0 [] s s := .refl hs
  refine (setLine_quiet line).step h₀ fun _ s₁ h₁ => ?_
  exact (hinner h ht h₁.sound (hp.later h₁)).mono fun _ s₂ h₂ => h₁.trans h₂

-- What is in loose assembly only is not accepted here.
theorem label {line : Nat} {name : String} : (Stmt.label line name).Booked c := by
  intro _ _ _ _ _ h _ _ _ _ _
  rw [Stmt.Resolved] at h
  exact h.elim

/-- Assignments from the stack are not resolved. -/
theorem stackAssign {line : Nat} {target : Identifier} :
    (Stmt.stackAssign line target).Booked c := by
  intro _ _ _ _ _ h _ _ _ _ _
  rw [Stmt.Resolved] at h
  exact h.elim

end Stmt.Booked

namespace Case.BookedTests

theorem nil : Case.BookedTests c [] := by
  intro p next v inLoop seen s _ _ hs _
  rw [Case.generateTests, Case.defaultKeys]
  exact Ensures.pure ⟨(Books.refl hs).cast (by rw [onceEach_nil, neg_zero]), rfl⟩

/-- The default hands out no label. -/
theorem default {line : Nat} {body : Block} {rest : List Case} (hinner : body.Booked c) :
    Case.BookedTests c (⟨line, none, body⟩ :: rest) := by
  intro p next v inLoop seen s h ht hs hp
  rw [Case.ResolvedSeq] at h
  obtain rfl := h.2
  rw [Case.generateTests, Case.generateTests, Case.defaultKeys, Case.defaultKeys,
    List.append_nil]
  refine (hinner h.1 ht hs hp).bind fun _ t h₁ => ?_
  exact Ensures.pure ⟨h₁.cast (by rw [onceEach_nil, neg_zero]), rfl⟩

/-- A comparison hands out one label. -/
theorem value {line : Nat} {l : Literal} {body : Block} {rest : List Case}
    (hmore : Case.BookedTests c rest) : Case.BookedTests c (⟨line, some l, body⟩ :: rest) := by
  intro p next v inLoop seen s h ht hs hp
  rw [Case.ResolvedSeq] at h
  rcases h with ⟨w, -, -, -, hrest⟩
  rw [Case.generateTests, Case.defaultKeys]
  have h₀ : Books c p.scope v.functions 0 [] s s := .refl hs
  refine (literal_quiet l).step h₀ fun _ s₁ h₁ => ?_
  refine (instruction_quiet rfl).step h₁ fun _ s₂ h₂ => ?_
  refine (instruction_quiet rfl).step h₂ fun _ s₃ h₃ => ?_
  refine (newLabel_books p.scope v.functions h₃.sound).bind ?_
  rintro id s₄ ⟨h₄, hid⟩
  refine (jumpToIf_quiet p.scope v.functions h₄.sound hid).bind fun _ s₅ h₅ => ?_
  have h₀₅ := (((h₁.trans h₂).trans h₃).trans h₄).trans h₅
  refine (hmore hrest (ht.later (Nat.le_add_right _ _)) h₅.sound
    (hp.later h₀₅)).bind ?_
  rintro ids s₆ ⟨h₆, hcount⟩
  refine Ensures.pure ⟨(h₀₅.trans h₆).cast ?_, ?_⟩
  -- One more label is owed.
  · rw [onceEach_cons]
    funext x
    simp only [Pi.add_apply, Pi.neg_apply, Pi.zero_apply]
    omega
  · rw [List.length_cons, hcount, Case.valueCount, Case.valueCount, List.countP_cons]
    rfl

end Case.BookedTests

namespace Case.BookedBodies

/-- Without cases no label is defined. -/
theorem nil : Case.BookedBodies c [] := by
  intro ids after p next v inLoop seen s _ _ hcount hs _ _
  obtain rfl := List.length_eq_zero_iff.mp hcount
  rw [Case.generateBodies, Case.valueKeys]
  · exact Ensures.pure (.refl hs)
  all_goals simp

/-- The default defines no label of its own. -/
theorem default {line : Nat} {body : Block} {rest : List Case} :
    Case.BookedBodies c (⟨line, none, body⟩ :: rest) := by
  intro ids after p next v inLoop seen s h _ hcount hs _ _
  rw [Case.ResolvedSeq] at h
  obtain rfl := h.2
  obtain rfl := List.length_eq_zero_iff.mp hcount
  rw [Case.generateBodies, Case.generateBodies, Case.valueKeys, Case.valueKeys]
  · exact Ensures.pure (.refl hs)
  all_goals simp

/-- The body of a case defines one of the labels. -/
theorem value {line : Nat} {l : Literal} {body : Block} {rest : List Case} (hinner : body.Booked c)
    (hmore : Case.BookedBodies c rest) : Case.BookedBodies c (⟨line, some l, body⟩ :: rest) := by
  intro ids after p next v inLoop seen s h ht hcount hs hp hafter
  cases ids with
  | nil =>
      rw [Case.valueCount, List.countP_cons] at hcount
      exact absurd hcount (by simp)
  | cons id ids =>
      rw [Case.ResolvedSeq] at h
      rcases h with ⟨w, -, -, hbody, hrest⟩
      -- As many labels are left as there are cases with a value.
      have hcount' : ids.length = Case.valueCount rest := by
        rw [Case.valueCount, List.countP_cons] at hcount
        exact Nat.succ.inj hcount
      rw [Case.generateBodies, Case.valueKeys]
      refine (label_books p.scope v.functions id hs).bind fun _ s₁ h₁ => ?_
      refine (hinner hbody ht h₁.sound (hp.later h₁)).bind
        fun _ s₂ h₂ => ?_
      have hothers : ∀ s₃, Books c p.scope v.functions (once id) (body.functionKeys next) s s₃ →
          Ensures (Case.generateBodies c p (next + body.scopeCount) after ids rest) s₃ fun _ =>
            Books c p.scope v.functions (onceEach (id :: ids))
              (body.functionKeys next ++ Case.valueKeys (next + body.scopeCount) rest) s := by
        intro s₃ h₀₃
        refine (hmore ids hrest (ht.later (Nat.le_add_right _ _))
          hcount' h₀₃.sound (hp.later h₀₃) (h₀₃.has hafter)).mono fun _ s₄ h₄ => ?_
        exact (h₀₃.trans h₄).cast (onceEach_cons id ids).symm
      -- The label of this case is defined by now.
      have h₀₂ := (h₁.trans h₂).cast (add_zero _)
      by_cases hlast : ids.isEmpty = true
      · rw [if_pos hlast]
        exact hothers s₂ h₀₂
      · rw [if_neg hlast]
        exact (jumpTo_quiet p.scope v.functions 0 h₂.sound (h₀₂.has hafter)).bind fun _ s₃ h₃ =>
          hothers s₃ ((h₀₂.onward h₃).cast (add_zero _))

end Case.BookedBodies

mutual

/-- The account of a block. -/
theorem Block.generate_books (hnamed : c.namedLabels = false) : ∀ b : Block, b.Booked c
  | ⟨_, stmts⟩ => .of_stmts (Stmt.generateSeq_books hnamed stmts)

/-- The account of statements is that of one after the other. -/
theorem Stmt.generateSeq_books (hnamed : c.namedLabels = false) : ∀ stmts : List Stmt,
    Stmt.BookedSeq c stmts
  | [] => .nil
  | first :: rest => .cons (Stmt.generate_books hnamed first) (Stmt.generateSeq_books hnamed rest)

/-- The account of a statement: it defines the labels of its own places and the entries
    of its functions, and hands out no others. -/
theorem Stmt.generate_books (hnamed : c.namedLabels = false) : ∀ stmt : Stmt, stmt.Booked c
  | .expr _ _ => .expr hnamed
  | .assign _ _ _ => .assign hnamed
  | .decl _ _ _ => .decl hnamed
  | .func _ _ _ _ body => .func hnamed (Block.generate_books hnamed body)
  | .cond _ _ body => .cond hnamed (Block.generate_books hnamed body)
  | .switch _ _ cases => .switch hnamed (Case.generateTests_books hnamed cases)
      (Case.generateBodies_books hnamed cases)
  | .loop _ ⟨_, pre⟩ _ post body => .loop hnamed (Stmt.generateSeq_books hnamed pre)
      (Block.generate_books hnamed body) (Block.generate_books hnamed post)
  | .brk _ => .brk
  | .cont _ => .cont
  | .block ⟨line, stmts⟩ => .block (Block.generate_books hnamed ⟨line, stmts⟩)
  | .label _ _ => .label
  | .stackAssign _ _ => .stackAssign

/-- The comparisons of a switch owe the labels of the bodies that they jump to. -/
theorem Case.generateTests_books (hnamed : c.namedLabels = false) : ∀ cases : List Case,
    Case.BookedTests c cases
  | [] => .nil
  | ⟨_, none, body⟩ :: _ => .default (Block.generate_books hnamed body)
  | ⟨_, some _, _⟩ :: rest => .value (Case.generateTests_books hnamed rest)

/-- The bodies define them. -/
theorem Case.generateBodies_books (hnamed : c.namedLabels = false) : ∀ cases : List Case,
    Case.BookedBodies c cases
  | [] => .nil
  | ⟨_, none, _⟩ :: _ => .default
  | ⟨_, some _, body⟩ :: rest => .value (Block.generate_books hnamed body)
      (Case.generateBodies_books hnamed rest)

end

end Statements

/-- The entries that are found are those that are listed. -/
theorem GenState.Sound.lookup_iff {c : GenContext} {s : GenState Assembly} (hs : s.Sound c)
    {k : Declaration} {id : Nat} : s.entries.lookup k = some id ↔ (k, id) ∈ s.entries := by
  constructor
  · intro h
    rcases List.lookup_eq_some_iff.mp h with ⟨before, after, hsplit, -⟩
    rw [hsplit]
    exact List.mem_append_right _ List.mem_cons_self
  · intro h
    rcases List.append_of_mem h with ⟨before, after, hsplit⟩
    refine List.lookup_eq_some_iff.mpr ⟨before, after, hsplit, fun e he => ?_⟩
    have hnodup := hs.functions
    rw [hsplit, List.map_append, List.map_cons, List.nodup_middle, List.nodup_cons] at hnodup
    refine bne_iff_ne.mpr fun hc => hnodup.1 (List.mem_append_left _ ?_)
    exact List.mem_map.mpr ⟨e, he, hc.symm⟩

/-- In a whole program every label that was handed out is defined once. -/
theorem Books.defined_once {c : GenContext} {scope : Nat} {keys : List Declaration}
    {s t : GenState Assembly} (h : Books c scope [] 0 keys s t) (hkeys : keys.Nodup)
    (hitems : s.target.items = #[]) (hlast : s.target.lastLabel = 0) (hentries : s.entries = [])
    (id : Nat) : t.defined id = if 0 < id ∧ id ≤ t.target.lastLabel then 1 else 0 := by
  -- Nothing is called from outside, so all entries are those of its own functions.
  have hown : ∀ k id', t.entries.lookup k = some id' → k ∈ keys := by
    intro k id' hk
    rcases h.calls k id' hk with ⟨_, hs⟩ | hs | ⟨x, f, _, hf, -⟩
    · rw [hentries] at hs
      exact absurd hs (by rintro ⟨⟩)
    · exact hs
    · exact absurd hf (by rintro ⟨⟩)
  have hout : s.out id = 0 := if_neg fun hc => by omega
  have hdefined : s.defined id = 0 := by
    rw [GenState.defined, hitems]
    rfl
  -- What is out, what is defined and what the functions have are in balance.
  have hbalance := h.balance id
  rw [hout, hdefined, Pi.zero_apply, GenState.out] at hbalance
  by_cases hentry : id ∈ t.entries.map (·.2)
  · -- The label of an entry: exactly one of the functions has it.
    rcases List.mem_map.mp hentry with ⟨⟨k, id'⟩, hmem, hid⟩
    obtain rfl : id' = id := hid
    have hk := h.sound.lookup_iff.mpr hmem
    have hcount : keys.countP (fun k' => t.entries.lookup k' == some id') = 1 := by
      rw [← List.count_eq_one_of_mem hkeys (hown k _ hk), List.count]
      refine List.countP_congr fun k' _ => ?_
      rw [beq_iff_eq, beq_iff_eq]
      constructor
      · intro hk'
        have hmem' := h.sound.lookup_iff.mp hk'
        exact congrArg Prod.fst (List.inj_on_of_nodup_map h.sound.labels hmem' hmem rfl)
      · rintro rfl
        exact hk
    rw [hcount, if_neg fun hc => hc.2.2 hentry] at hbalance
    have hrange : 0 < id' ∧ id' ≤ t.target.lastLabel := h.sound.range _ hmem
    rw [if_pos hrange]
    push_cast at hbalance
    omega
  -- No function has the label, so it is defined if it was handed out.
  · -- The label of a place: no function has it.
    have hcount : keys.countP (fun k' => t.entries.lookup k' == some id) = 0 := by
      refine List.countP_eq_zero.mpr fun k' _ hk' => hentry ?_
      exact List.mem_map.mpr ⟨(k', id), h.sound.lookup_iff.mp (beq_iff_eq.mp hk'), rfl⟩
    simp only [hentry, not_false_eq_true, and_true] at hbalance
    rw [hcount] at hbalance
    push_cast at hbalance
    omega

/-- In the code of a program that is read and accepted every label that was handed out
    is defined once, and no others are; all items have a meaning. -/
theorem generate_labels {c : GenContext} (hnamed : c.namedLabels = false) {code : Block}
    (hcode : code.Resolved c.dialect c.scopes .empty 0 0 false) {before after : Assembly}
    {errors : List StackTooDeep} (hitems : before.items = #[]) (hlast : before.lastLabel = 0)
    (h : generate c code before = .ok (errors, after)) :
    (definedLabels after.items.toList).Nodup ∧
      (∀ id, id ∈ definedLabels after.items.toList ↔ 0 < id ∧ id ≤ after.lastLabel) ∧
      ∀ i ∈ after.items.toList, i.Proper c.objects after.lastLabel := by
  rcases generate_grows h with ⟨t, hrun, rfl, -, -⟩
  -- At the start there are neither items nor labels.
  have hsound : (GenState.ofTarget before).Sound c := by
    refine ⟨List.nodup_nil, List.nodup_nil, fun e he => absurd he List.not_mem_nil, fun i hi => ?_⟩
    rw [show (GenState.ofTarget before).target.items = #[] from hitems] at hi
    exact absurd hi List.not_mem_nil
  have hbooks := Block.generate_books (p := ⟨0, none, ""⟩) hnamed code hcode (.empty _ _ _) hsound
    (fun _ hc => absurd hc (by rintro ⟨⟩)) () t hrun
  -- So each label that was handed out is defined once.
  have honce := hbooks.defined_once (Block.nodup_functionKeys hcode) hitems hlast rfl
  refine ⟨List.nodup_iff_count_le_one.mpr fun id => ?_, fun id => ?_, hbooks.sound.items⟩
  · have hid := honce id
    rw [GenState.defined] at hid
    split at hid <;> omega
  · have hid := honce id
    rw [GenState.defined] at hid
    rw [← List.count_pos_iff]
    split at hid <;> rename_i hin
    · exact ⟨fun _ => hin, fun _ => by omega⟩
    · exact ⟨fun _ => by omega, fun hc => absurd hc hin⟩

end YulToolchain
