import YulToolchain.Proofs.Pass.Simplified
import YulToolchain.Proofs.Syntax.Parts

/-!
# Normal Forms of Expressions

Simplifying leaves no expression, at whatever depth, to which a rule applies.

The rules are applied to an expression once its arguments are in normal form, until none
applies. Each application has to make the expression smaller, so that this comes to an end,
and must not put anything new below the root, so that what is there stays in normal form. Both
can be seen from the shapes of the rules: a replacement is a literal, a part of the match, or a
single instruction around a part that lies two instructions deep (`Rule.shrinks`).

A rule that matches and is not applied, because an operand would get lost or there is no value,
hides the rules behind it. Normal form therefore means that the expression stays as it is, not
that no rule matches.

## Main definitions

* `Expr.Normal`: An expression no part of which is changed by a rule.
* `Rule.shrinks`: The shapes of rules whose replacements are smaller than the match.

## Theorems

* `Expr.simplifyStep?_shrinks`: A rule makes an expression smaller, out of parts it had.
* `Expr.simplifyRoot_done`: The rules come to an end.
* `Expr.simplify_normal`: Simplified expressions are in normal form.
* `Expr.Normal.simplify`: Expressions in normal form stay as they are.
* `simplify_reaches_normal_form`: The same for programs.
-/

namespace YulToolchain

section Rules

/-- The shapes of rules whose replacements are smaller than the match and have nothing below
    the root that the match has not. -/
def Rule.shrinks : Rule → Bool
  | ⟨.op _ (_ :: _), .number _, _⟩ => true
  | ⟨.op _ (_ :: _), .fold, _⟩ => true
  | ⟨.op _ _, .keep _, _⟩ => true
  | ⟨.op _ [.op _ _], .op _ [.keep _], _⟩ => true
  | _ => false

theorem arithmeticRules_shrink : ∀ r ∈ arithmeticRules, r.shrinks = true :=
  List.all_eq_true.mp (by decide)

/-- What the letters of an instruction's pattern stand for is found inside the match. -/
theorem Pattern.match?_inner {i : Instruction} {ps : List Pattern} {e : Expr} {bs : Bindings}
    (h : (Pattern.op i ps).match? e [] = some bs) : ∀ b ∈ bs, b.2 ∈ e.inner := by
  rcases match?_op h with ⟨line, args, rfl, hargs⟩
  refine matchAll?_bound (P := (· ∈ Expr.partsAll args)) (fun line' j args' hinstr a ha => ?_) hargs
    (fun a ha => Expr.mem_partsAll.mpr ⟨a, ha, a.mem_parts_self⟩)
    fun b hb => absurd hb List.not_mem_nil
  refine Expr.partsAll_trans (List.mem_cons_of_mem _ ?_) hinstr
  exact Expr.mem_partsAll.mpr ⟨a, ha, a.mem_parts_self⟩

/-- The argument of a match, where an instruction's pattern has a single one. -/
theorem Pattern.match?_single {i : Instruction} {p : Pattern} {e : Expr} {bs : Bindings}
    (h : (Pattern.op i [p]).match? e [] = some bs) :
    ∃ line a, e = .instr line i [a] ∧ p.match? a [] = some bs := by
  rcases match?_op h with ⟨line, args, rfl, hargs⟩
  cases args with
  | nil => simp only [matchAll?, reduceCtorEq] at hargs
  | cons a rest =>
      rw [matchAll?, Option.bind_eq_some_iff] at hargs
      rcases hargs with ⟨bs', hmatch, hrest⟩
      cases rest with
      | nil =>
          rw [matchAll?, Option.some.injEq] at hrest
          exact ⟨line, a, rfl, hrest ▸ hmatch⟩
      | cons => simp only [matchAll?, reduceCtorEq] at hrest

/-- An instruction with a pattern for an argument has an argument. -/
theorem Pattern.match?_args {i : Instruction} {p : Pattern} {ps : List Pattern} {e : Expr}
    {bs : Bindings} (h : (Pattern.op i (p :: ps)).match? e [] = some bs) : 1 < e.size := by
  rcases match?_op h with ⟨line, args, rfl, hargs⟩
  cases args with
  | nil => simp only [matchAll?, reduceCtorEq] at hargs
  | cons a rest =>
      have hpos := a.size_pos
      rw [Expr.size, Expr.sizeAll]
      omega

/-- A rule makes an expression smaller. What is below its root afterwards was there before. -/
theorem Expr.simplifyStep?_shrinks {d : Dialect} {e e' : Expr} (h : e.simplifyStep? d = some e') :
    e'.size < e.size ∧ e'.inner ⊆ e.inner := by
  rcases simplifyStep?_eq_some h with ⟨index, r, bs, hfind, hbuild, -⟩
  rcases findRule?_eq_some hfind with ⟨hr, hmatch⟩
  have hshrinks := arithmeticRules_shrink r hr
  -- A literal is smaller than whatever has arguments.
  have hliteral : ∀ line w, 1 < e.size →
      (Expr.number line w).size < e.size ∧ (Expr.number line w).inner ⊆ e.inner :=
    fun line w hsize => ⟨hsize, List.nil_subset _⟩
  rcases r with ⟨pattern, action, drops⟩
  unfold Rule.shrinks at hshrinks
  -- One case for each kind of action: a literal, a folded instruction, a kept operand, an operand
  -- under one instruction, and none else.
  split at hshrinks
  case h_1 heq =>
      cases heq
      cases hbuild
      exact hliteral _ _ (Pattern.match?_args hmatch)
  case h_2 heq =>
      cases heq
      rcases fold?_eq_some hbuild with ⟨line, i, args, values, w, -, -, -, rfl⟩
      exact hliteral _ _ (Pattern.match?_args hmatch)
  case h_3 heq =>
      cases heq
      have hinner := Pattern.match?_inner hmatch _ (Bindings.mem_of_lookup hbuild)
      exact ⟨size_of_inner hinner, fun p hp =>
        inner_trans (parts_eq e' ▸ List.mem_cons_of_mem _ hp) hinner⟩
  case h_4 heq =>
      cases heq
      rcases Option.map_eq_some_iff.mp hbuild with ⟨es, hes, rfl⟩
      rcases Action.buildAll?_cons hes with ⟨x, rest, rfl, hx, hrest⟩
      cases hrest
      rcases Pattern.match?_single hmatch with ⟨line, a, rfl, hinside⟩
      have hinner : x ∈ a.inner := Pattern.match?_inner hinside _ (Bindings.mem_of_lookup hx)
      have hsize := size_of_inner hinner
      refine ⟨?_, fun p hp => ?_⟩
      · simp only [Expr.size, Expr.sizeAll]
        omega
      · rcases mem_partsAll.mp hp with ⟨x', hx', hpart⟩
        obtain rfl := List.mem_singleton.mp hx'
        refine mem_partsAll.mpr ⟨a, List.mem_singleton_self a, ?_⟩
        exact parts_eq a ▸ List.mem_cons_of_mem _ (inner_trans hpart hinner)
  case h_5 => exact absurd hshrinks Bool.noConfusion

end Rules

section Normal

variable {d : Dialect}

/-- An expression no part of which is changed by a rule. -/
def Expr.Normal (d : Dialect) (e : Expr) : Prop := ∀ p ∈ e.parts, p.simplifyStep? d = none

/-- Normal parts make a normal expression, if no rule is left for it. -/
theorem Expr.normal_of_inner {e : Expr} (hinner : ∀ p ∈ e.inner, p.simplifyStep? d = none)
    (he : e.simplifyStep? d = none) : e.Normal d := by
  intro p hp
  rw [parts_eq] at hp
  rcases List.mem_cons.mp hp with rfl | hp
  · exact he
  · exact hinner p hp

/-- At the root the rules come to an end within as many steps as there are nodes. -/
theorem Expr.simplifyRoot_done : ∀ {steps : Nat} {e : Expr}, e.size ≤ steps →
    (e.simplifyRoot d steps).simplifyStep? d = none
  | 0, e, hsize => absurd e.size_pos (Nat.not_lt.mpr hsize)
  | steps + 1, e, hsize => by
      rw [Expr.simplifyRoot]
      rcases hstep : e.simplifyStep? d with _ | e'
      · exact hstep
      · have hsmaller := (simplifyStep?_shrinks hstep).1
        exact Expr.simplifyRoot_done (by omega)

/-- Applying rules at the root puts nothing new below it. -/
theorem Expr.simplifyRoot_inner : ∀ {steps : Nat} {e : Expr},
    (e.simplifyRoot d steps).inner ⊆ e.inner
  | 0, _ => List.Subset.refl _
  | steps + 1, e => by
      rw [Expr.simplifyRoot]
      rcases hstep : e.simplifyStep? d with _ | e'
      · exact List.Subset.refl _
      · exact List.Subset.trans Expr.simplifyRoot_inner (simplifyStep?_shrinks hstep).2

mutual

/-- Simplified expressions are in normal form. -/
theorem Expr.simplify_normal : ∀ e : Expr, (e.simplify d).Normal d
  | .literal _ => normal_of_inner (fun _ hp => absurd hp List.not_mem_nil) rfl
  | .ident _ _ => normal_of_inner (fun _ hp => absurd hp List.not_mem_nil) rfl
  | .instr line op args => by
      rw [Expr.simplify]
      refine normal_of_inner (fun p hp => ?_) (simplifyRoot_done (Nat.le_refl _))
      exact Expr.simplifyAll_normal args p (simplifyRoot_inner hp)
  | .call line name args => normal_of_inner (Expr.simplifyAll_normal args) rfl

/-- Simplified arguments are normal in all their parts. -/
theorem Expr.simplifyAll_normal : ∀ es : List Expr,
    ∀ p ∈ Expr.partsAll (Expr.simplifyAll d es), p.simplifyStep? d = none
  | [], _, hp => absurd hp List.not_mem_nil
  | e :: rest, p, hp => by
      rw [Expr.simplifyAll, Expr.partsAll] at hp
      rcases List.mem_append.mp hp with hp | hp
      · exact Expr.simplify_normal e p hp
      · exact Expr.simplifyAll_normal rest p hp

end

/-- Without a rule for it an expression stays. -/
theorem Expr.simplifyRoot_of_none {e : Expr} (h : e.simplifyStep? d = none) (steps : Nat) :
    e.simplifyRoot d steps = e := by
  cases steps with
  | zero => rfl
  | succ steps => rw [Expr.simplifyRoot, h]

mutual

/-- Expressions in normal form stay as they are. -/
theorem Expr.Normal.simplify : ∀ {e : Expr}, e.Normal d → e.simplify d = e
  | .literal _, _ => rfl
  | .ident _ _, _ => rfl
  | .instr line op args, h => by
      have hargs : Expr.simplifyAll d args = args :=
        Expr.Normal.simplifyAll fun p hp => h p (List.mem_cons_of_mem _ hp)
      rw [Expr.simplify, hargs]
      exact simplifyRoot_of_none (h _ List.mem_cons_self) _
  | .call line name args, h => by
      have hargs : Expr.simplifyAll d args = args :=
        Expr.Normal.simplifyAll fun p hp => h p (List.mem_cons_of_mem _ hp)
      rw [Expr.simplify, hargs]

/-- Normal arguments stay. -/
theorem Expr.Normal.simplifyAll : ∀ {es : List Expr},
    (∀ p ∈ Expr.partsAll es, p.simplifyStep? d = none) → Expr.simplifyAll d es = es
  | [], _ => rfl
  | e :: rest, h => by
      rw [Expr.simplifyAll, Expr.Normal.simplify fun p hp => h p (List.mem_append_left _ hp),
        Expr.Normal.simplifyAll fun p hp => h p (List.mem_append_right _ hp)]

end

end Normal

section Programs

variable {onExpr onExpr' : Expr → Expr}

mutual

/-- Changing the expressions of a program twice is changing them once by both. -/
theorem Block.bottomUp_comp : ∀ b : Block,
    (b.bottomUp onExpr fun s => [s]).bottomUp onExpr' (fun s => [s]) =
      b.bottomUp (onExpr' ∘ onExpr) fun s => [s]
  | ⟨line, stmts⟩ => by
      simp only [Block.bottomUp, Stmt.bottomUpSeq_comp stmts]

/-- Two rewritings of expressions in a row are one, in statements. -/
theorem Stmt.bottomUpSeq_comp : ∀ stmts : List Stmt,
    Stmt.bottomUpSeq onExpr' (fun s => [s]) (Stmt.bottomUpSeq onExpr (fun s => [s]) stmts) =
      Stmt.bottomUpSeq (onExpr' ∘ onExpr) (fun s => [s]) stmts
  | [] => rfl
  | s :: rest => by
      simp only [Stmt.bottomUpSeq, List.singleton_append, Stmt.bottomUpInner_comp s,
        Stmt.bottomUpSeq_comp rest]

/-- Two rewritings of expressions in a row are one, inside of a statement. -/
theorem Stmt.bottomUpInner_comp : ∀ s : Stmt,
    (s.bottomUpInner onExpr fun s => [s]).bottomUpInner onExpr' (fun s => [s]) =
      s.bottomUpInner (onExpr' ∘ onExpr) fun s => [s]
  | .expr _ _ => rfl
  | .assign _ _ _ => rfl
  | .decl _ _ value => by cases value <;> rfl
  | .func _ _ _ _ body => by simp only [Stmt.bottomUpInner, Block.bottomUp_comp body]
  | .cond _ _ body => by
      simp only [Stmt.bottomUpInner, Block.bottomUp_comp body, Function.comp_apply]
  | .switch _ _ cases => by
      simp only [Stmt.bottomUpInner, Case.bottomUpSeq_comp cases, Function.comp_apply]
  | .loop _ pre _ post body => by
      simp only [Stmt.bottomUpInner, Block.bottomUp_comp pre, Block.bottomUp_comp post,
        Block.bottomUp_comp body, Function.comp_apply]
  | .brk _ => rfl
  | .cont _ => rfl
  | .block b => by simp only [Stmt.bottomUpInner, Block.bottomUp_comp b]
  | .label _ _ => rfl
  | .stackAssign _ _ => rfl

/-- Two rewritings of expressions in a row are one, in cases. -/
theorem Case.bottomUpSeq_comp : ∀ cases : List Case,
    Case.bottomUpSeq onExpr' (fun s => [s]) (Case.bottomUpSeq onExpr (fun s => [s]) cases) =
      Case.bottomUpSeq (onExpr' ∘ onExpr) (fun s => [s]) cases
  | [] => rfl
  | ⟨_, _, body⟩ :: rest => by
      simp only [Case.bottomUpSeq, Block.bottomUp_comp body, Case.bottomUpSeq_comp rest]

end

/-- The expressions of a statement are rewritten one by one. -/
theorem Stmt.exprsHere_bottomUpInner (s : Stmt) :
    (s.bottomUpInner onExpr fun s => [s]).exprsHere = s.exprsHere.map onExpr := by
  cases s with
  | decl _ _ value => cases value <;> rfl
  | _ => rfl

mutual

/-- The statements of a program are changed one by one. -/
theorem Block.allStmts_bottomUp : ∀ b : Block,
    (b.bottomUp onExpr fun s => [s]).allStmts =
      b.allStmts.map (Stmt.bottomUpInner onExpr fun s => [s])
  | ⟨_, stmts⟩ => by
      rw [Block.bottomUp, Block.allStmts, Stmt.allStmtsSeq_bottomUpSeq, Block.allStmts]

/-- The statements of a list are rewritten one by one. -/
theorem Stmt.allStmtsSeq_bottomUpSeq : ∀ stmts : List Stmt,
    Stmt.allStmtsSeq (Stmt.bottomUpSeq onExpr (fun s => [s]) stmts) =
      (Stmt.allStmtsSeq stmts).map (Stmt.bottomUpInner onExpr fun s => [s])
  | [] => rfl
  | s :: rest => by
      simp only [Stmt.bottomUpSeq, List.singleton_append, Stmt.allStmtsSeq, List.map_cons,
        List.map_append, Stmt.allInner_bottomUpInner s, Stmt.allStmtsSeq_bottomUpSeq rest]

/-- The inner statements of a statement are rewritten one by one. -/
theorem Stmt.allInner_bottomUpInner : ∀ s : Stmt,
    (s.bottomUpInner onExpr fun s => [s]).allInner =
      s.allInner.map (Stmt.bottomUpInner onExpr fun s => [s])
  | .expr _ _ => rfl
  | .assign _ _ _ => rfl
  | .decl _ _ _ => rfl
  | .func _ _ _ _ body => Block.allStmts_bottomUp body
  | .cond _ _ body => Block.allStmts_bottomUp body
  | .switch _ _ cases => Case.allStmtsSeq_bottomUpSeq cases
  | .loop _ pre _ post body => by
      simp only [Stmt.bottomUpInner, Stmt.allInner, Block.allStmts_bottomUp pre,
        Block.allStmts_bottomUp body, Block.allStmts_bottomUp post, List.map_append]
  | .brk _ => rfl
  | .cont _ => rfl
  | .block b => Block.allStmts_bottomUp b
  | .label _ _ => rfl
  | .stackAssign _ _ => rfl

/-- The statements of cases are rewritten one by one. -/
theorem Case.allStmtsSeq_bottomUpSeq : ∀ cases : List Case,
    Case.allStmtsSeq (Case.bottomUpSeq onExpr (fun s => [s]) cases) =
      (Case.allStmtsSeq cases).map (Stmt.bottomUpInner onExpr fun s => [s])
  | [] => rfl
  | ⟨_, _, body⟩ :: rest => by
      simp only [Case.bottomUpSeq, Case.allStmtsSeq, Block.allStmts_bottomUp body,
        Case.allStmtsSeq_bottomUpSeq rest, List.map_append]

end

/-- The expressions of a block are rewritten one by one. -/
theorem Block.values_bottomUp (b : Block) :
    (b.bottomUp onExpr fun s => [s]).values = b.values.map onExpr := by
  simp only [Block.values, Block.allStmts_bottomUp, List.flatMap_map, List.map_flatMap,
    Stmt.exprsHere_bottomUpInner]

end Programs

/-- At every expression the rules come to an end by themselves, within as many steps as the
    expression has nodes, since each of them makes it smaller. A simplified program has no
    expression, at whatever place and inside whatever other expression, that a rule would still
    change, and simplifying it again changes nothing. -/
theorem simplify_reaches_normal_form (d : Dialect) (code : Block) :
    (∀ e e' : Expr, e.simplifyStep? d = some e' → e'.size < e.size) ∧
      (∀ (e : Expr) (steps : Nat), e.size ≤ steps →
        (e.simplifyRoot d steps).simplifyStep? d = none) ∧
      (∀ e ∈ (Pass.simplify d code).exprs, e.simplifyStep? d = none) ∧
      Pass.simplify d (Pass.simplify d code) = Pass.simplify d code := by
  refine ⟨fun e e' h => (Expr.simplifyStep?_shrinks h).1, fun e steps => Expr.simplifyRoot_done,
    fun e he => ?_, ?_⟩
  · rcases Block.mem_exprs.mp he with ⟨outer, houter, hpart⟩
    rw [Pass.simplify, Block.values_bottomUp] at houter
    rcases List.mem_map.mp houter with ⟨before, -, rfl⟩
    exact Expr.simplify_normal before e hpart
  · have htwice : Expr.simplify d ∘ Expr.simplify d = Expr.simplify d :=
      funext fun e => (Expr.simplify_normal e).simplify
    rw [Pass.simplify, Pass.simplify, Block.bottomUp_comp, htwice]

/-- A program with a rule that applies to what another one leaves, one that needs a part two
    instructions deep, and one that is held back because a read of storage would get lost. -/
theorem simplify_reaches_normal_form_nested :
    ∃ code ss, parseBlock .strictAssembly
        "{ let x := iszero(iszero(iszero(add(calldataload(0), 0))))
          sstore(mul(sload(0), sub(x, x)), x) }"
          = .ok code ∧
      analyze .strictAssembly code = .ok ss ∧
      (Pass.simplify .strictAssembly code).exprs.length < code.exprs.length ∧
      (∀ e ∈ (Pass.simplify .strictAssembly code).exprs, e.simplifyStep? .strictAssembly = none) ∧
      Pass.simplify .strictAssembly (Pass.simplify .strictAssembly code) =
        Pass.simplify .strictAssembly code := by
  refine exists_of_accepted? (fun code =>
    (Pass.simplify .strictAssembly code).exprs.length < code.exprs.length) (by decide +kernel)
    fun code _ _ _ htest => ?_
  exact ⟨of_decide_eq_true htest, (simplify_reaches_normal_form .strictAssembly code).2.2⟩

end YulToolchain
