import YulToolchain.Proofs.Static.Passage

/-!
# Charts

What the finished scopes of an accepted program hold, and how many values its
expressions have there.

The analysis fills scopes while it walks over a program. Once it is done the scopes can
be read off the text: a scope holds what the statements of its block declare, and scopes
are numbered in the order of the text (`Charted`). An expression still has as many values
in the finished scopes as it had when it was passed, since a name that was found keeps its
meaning.

Nothing is asked of the code but that it is accepted, in whatever dialect.

## Main definitions

* `Stmt.symbols`: What the scope of some statements holds.
* `Block.Charted`, `Stmt.Charted`: Finished scopes fit the text.

## Theorems

* `Expr.valueCount_grows`: Expressions keep their number of values.
* `Block.analyze_charted`, `Stmt.analyze_charted`: Accepted code is charted.
* `analyze_charted`: So are accepted programs.
-/

namespace YulToolchain

/-- Some names are variables in a scope. -/
def Scopes.Assigns (ss : Scopes) (scope : Nat) (targets : List Identifier) : Prop :=
  ∀ x ∈ targets, ∃ decl type, ss.lookup scope x.name = some (decl, .var type)

/-- What the scope of some statements holds, the latest name first. -/
def Stmt.symbols (stmts : List Stmt) : List (String × Symbol) :=
  (stmts.flatMap Stmt.hoists ++ stmts.flatMap Stmt.adds).reverse

mutual

/-- The scopes fit a block with a number inside a scope. -/
def Block.Charted (d : Dialect) (ss : Scopes) (parent : Option Nat) (id : Nat) : Block → Prop
  | ⟨_, stmts⟩ => ss.get? id = some ⟨parent, false, Stmt.symbols stmts⟩ ∧
      Stmt.ChartedSeq d ss id (id + 1) stmts

/-- The scopes fit statements in a scope, which open scopes from a number on. -/
def Stmt.ChartedSeq (d : Dialect) (ss : Scopes) (scope next : Nat) : List Stmt → Prop
  | [] => True
  | s :: rest => s.Charted d ss scope next ∧
      Stmt.ChartedSeq d ss scope (next + s.scopeCount) rest

/-- The scopes fit a statement in a scope, which opens scopes from a number on. -/
def Stmt.Charted (d : Dialect) (ss : Scopes) (scope next : Nat) : Stmt → Prop
  | .expr _ e => ∃ n, e.valueCount d ss scope = .ok n ∧ (n = 0 ∨ d.flavour = .loose)
  | .assign _ targets value => value.valueCount d ss scope = .ok targets.length ∧
      ss.Assigns scope targets
  | .decl _ vars value => ss.Declares scope vars ∧
      ∀ e, value = some e → e.valueCount d ss scope = .ok vars.length
  | .func _ _ params returns body =>
    ss.get? next = some ⟨some scope, true, (TypedName.symbols (params ++ returns)).reverse⟩ ∧
      body.Charted d ss (some next) (next + 1)
  | .cond _ test body => test.valueCount d ss scope = .ok 1 ∧
      body.Charted d ss (some scope) next
  | .switch _ subject cases => subject.valueCount d ss scope = .ok 1 ∧
      Case.ChartedSeq d ss scope next cases
  | .loop _ ⟨_, pre⟩ test post body =>
    ss.get? next = some ⟨some scope, false, Stmt.symbols pre⟩ ∧
      Stmt.ChartedSeq d ss next (next + 1) pre ∧ test.valueCount d ss next = .ok 1 ∧
      body.Charted d ss (some next) (next + 1 + Stmt.scopeCountSeq pre) ∧
      post.Charted d ss (some next) (next + 1 + Stmt.scopeCountSeq pre + body.scopeCount)
  | .brk _ => True
  | .cont _ => True
  | .block b => b.Charted d ss (some scope) next
  | .label _ _ => True
  | .stackAssign _ target => ss.Assigns scope [target]

/-- The scopes fit the cases of a switch. -/
def Case.ChartedSeq (d : Dialect) (ss : Scopes) (scope next : Nat) : List Case → Prop
  | [] => True
  | ⟨_, _, body⟩ :: rest => body.Charted d ss (some scope) next ∧
      Case.ChartedSeq d ss scope (next + body.scopeCount) rest

end

section Growing

variable {d : Dialect} {ss final : Scopes} {scope : Nat}

mutual

/-- An expression keeps its number of values while scopes grow. -/
theorem Expr.valueCount_grows (h : Scopes.Grows ss final) : ∀ {e : Expr} {n : Nat},
    e.valueCount d ss scope = .ok n → e.valueCount d final scope = .ok n
  | .literal _, _, hn => hn
  | .ident _ x, _, hn => by
      rw [Expr.valueCount] at hn ⊢
      -- What was found stays found.
      rcases hl : ss.lookup scope x with _ | r
      · simp only [hl, reduceCtorEq] at hn
      · simp only [h _ _ _ hl]
        simpa only [hl] using hn
  | .instr _ op args, _, hn => by
      rw [Expr.valueCount] at hn ⊢
      by_cases hlength : args.length ≠ op.args
      · rw [if_pos hlength] at hn
        exact absurd hn (by rintro ⟨⟩)
      · rw [if_neg hlength] at hn ⊢
        rcases bind_eq_ok hn with ⟨_, hargs, hn⟩
        rw [Expr.checkArgs_grows h hargs]
        exact hn
  -- The dialect does not change, so a builtin stays a builtin.
  | .call _ x args, _, hn => by
      rw [Expr.valueCount] at hn ⊢
      rcases hb : d.builtin? x with _ | b
      · simp only [hb] at hn ⊢
        rcases hl : ss.lookup scope x with _ | ⟨decl, symbol⟩
        · simp only [hl, reduceCtorEq] at hn
        · simp only [hl] at hn
          simp only [h _ _ _ hl]
          cases symbol with
          | var type => exact absurd hn (by rintro ⟨⟩)
          | label => exact absurd hn (by rintro ⟨⟩)
          -- The number of parameters is that of the symbol, which is the same one.
          | function params returns =>
              by_cases hlength : args.length ≠ params.length
              · simp only [if_pos hlength] at hn
                exact absurd hn (by rintro ⟨⟩)
              · simp only [if_neg hlength] at hn ⊢
                rcases bind_eq_ok hn with ⟨_, hargs, hn⟩
                rw [Expr.checkArgs_grows h hargs]
                exact hn
      · simp only [hb] at hn ⊢
        -- Literal arguments are checked without any scopes.
        by_cases hliteral : b.literalArguments = true
        · rw [if_pos hliteral] at hn ⊢
          exact hn
        · rw [if_neg hliteral] at hn ⊢
          by_cases hlength : args.length ≠ b.params
          · rw [if_pos hlength] at hn
            exact absurd hn (by rintro ⟨⟩)
          · rw [if_neg hlength] at hn ⊢
            rcases bind_eq_ok hn with ⟨_, hargs, hn⟩
            rw [Expr.checkArgs_grows h hargs]
            exact hn
termination_by structural e => e

/-- Arguments that pass go on passing as scopes grow. -/
theorem Expr.checkArgs_grows (h : Scopes.Grows ss final) : ∀ {es : List Expr},
    Expr.checkArgs d ss scope es = .ok () → Expr.checkArgs d final scope es = .ok ()
  | [], hok => hok
  | e :: rest, hok => by
      rw [Expr.checkArgs] at hok ⊢
      rcases bind_eq_ok hok with ⟨_, hrest, hok⟩
      rcases bind_eq_ok hok with ⟨n, hn, hok⟩
      rw [Expr.checkArgs_grows h hrest, Expr.valueCount_grows h hn]
      exact hok
termination_by structural es => es

end

/-- A value counted before stays a value of the final scopes. -/
theorem Analysis.expectValues_grows (h : Scopes.Grows ss final) {e : Expr} {n : Nat}
    (hok : Analysis.expectValues d ss scope e n = .ok ()) : e.valueCount d final scope = .ok n := by
  rcases bind_eq_ok hok with ⟨m, hm, hok⟩
  by_cases hne : m ≠ n
  · rw [if_pos hne] at hok
    exact absurd hok (by rintro ⟨⟩)
  · obtain rfl := not_not.mp hne
    exact Expr.valueCount_grows h hm

/-- Variables are assigned to, and still are once the scopes are finished. -/
theorem Analysis.expectVariables_assigns (h : Scopes.Grows ss final) :
    ∀ targets : List Identifier, targets.forM (Analysis.expectVariable ss scope) = .ok () →
      final.Assigns scope targets
  | [], _ => fun _ hx => absurd hx List.not_mem_nil
  | target :: rest, hok => by
      rcases bind_eq_ok hok with ⟨_, htarget, hrest⟩
      refine List.forall_mem_cons.mpr ⟨?_, Analysis.expectVariables_assigns h rest hrest⟩
      rw [Analysis.expectVariable] at htarget
      split at htarget
      · rename_i decl type hl
        exact ⟨decl, type, h _ _ _ hl⟩
      · exact absurd htarget (by rintro ⟨⟩)
      · exact absurd htarget (by rintro ⟨⟩)

/-- Declared variables are found in their scope once the scopes are finished. -/
theorem Analysis.declareVariables_declares {ss' : Scopes} {vars : List TypedName}
    (h : ss.Place scope) (hok : Analysis.declareVariables d scope vars ss = .ok ss')
    (hgrows : Scopes.Grows ss' final) : final.Declares scope vars := by
  intro x hx
  refine hgrows _ _ _ ((Analysis.declareVariables_passed h hok).1.lookup h ?_)
  exact List.mem_map_of_mem (f := fun v : TypedName => (v.name, Symbol.var v.type)) hx

end Growing

namespace Scopes

variable {scope n : Nat} {added : List (String × Symbol)} {a b c final : Scopes}

/-- What was opened before a piece of code is final if all is. -/
theorem Passed.completes (hbc : Passed scope added n b c) (h : Completes a c final)
    (hscope : scope < a.toArray.size) : Completes a b final := by
  refine ⟨hbc.grows.trans h.grows, fun i hi hi' => ?_⟩
  have hsize := hbc.size
  rw [h.opened i hi (by omega), hbc.same i hi' (by omega)]

/-- What a new scope holds in the end. -/
theorem Passed.filled {parent : Option Nat} {isFunction : Bool}
    (hin : Passed a.toArray.size added n (a.push parent isFunction).2 b)
    (hfinal : Completes a b final) :
    final.get? a.toArray.size = some ⟨parent, isFunction, added.reverse⟩ := by
  have hsize := hin.size
  rw [size_push] at hsize
  rw [hfinal.opened _ (Nat.le_refl _) (by omega), hin.here _ get?_push_new, List.append_nil]

end Scopes

section Statements

variable {d : Dialect}

mutual

/-- The finished scopes fit a block that was accepted. -/
theorem Block.analyze_charted : ∀ {b : Block} {ss ss' final : Scopes} {scope : Nat}
    {inLoop : Bool}, ss.Place scope → b.analyze d (some scope) inLoop ss = .ok ss' →
      Scopes.Completes ss ss' final → b.Charted d final (some scope) ss.toArray.size
  | ⟨_, stmts⟩, ss, ss', final, scope, inLoop, h, hok, hfinal => by
      rw [Block.analyze] at hok
      rcases bind_eq_ok hok with ⟨ss₁, hhoist, hseq⟩
      have h₁ := (Analysis.hoist_passed (h.push false) hhoist).1
      have hplace₁ := h₁.place (h.push false)
      have hsize := h₁.size
      rw [Scopes.size_push, Nat.add_zero] at hsize
      have hseq' := Stmt.analyzeSeq_charted hplace₁ hseq
        (hfinal.later (b := ss₁) (by omega))
      rw [hsize] at hseq'
      rw [Block.Charted]
      exact ⟨(h₁.trans (Stmt.analyzeSeq_passed hplace₁ hseq)).filled hfinal, hseq'⟩
termination_by structural b => b

/-- The statements of a sequence are charted one behind the other. -/
theorem Stmt.analyzeSeq_charted : ∀ {stmts : List Stmt} {ss ss' final : Scopes} {scope : Nat}
    {inLoop : Bool}, ss.Place scope → Stmt.analyzeSeq d scope inLoop stmts ss = .ok ss' →
      Scopes.Completes ss ss' final → Stmt.ChartedSeq d final scope ss.toArray.size stmts
  | [], ss, ss', final, scope, inLoop, _, _, _ => by
      rw [Stmt.ChartedSeq]
      trivial
  | s :: rest, ss, ss', final, scope, inLoop, h, hok, hfinal => by
      rw [Stmt.analyzeSeq] at hok
      rcases bind_eq_ok hok with ⟨ss₁, hs, hrest⟩
      have h₁ := Stmt.analyze_passed h hs
      have h₂ := Stmt.analyzeSeq_passed (h₁.place h) hrest
      have hsize := h₁.size
      have hrest' := Stmt.analyzeSeq_charted (h₁.place h) hrest
        (hfinal.later (b := ss₁) (by omega))
      rw [hsize] at hrest'
      rw [Stmt.ChartedSeq]
      exact ⟨Stmt.analyze_charted h hs (h₂.completes hfinal h.opened), hrest'⟩
termination_by structural stmts => stmts

/-- The finished scopes fit a statement that was accepted. -/
theorem Stmt.analyze_charted : ∀ {s : Stmt} {ss ss' final : Scopes} {scope : Nat}
    {inLoop : Bool}, ss.Place scope → s.analyze d scope inLoop ss = .ok ss' →
      Scopes.Completes ss ss' final → s.Charted d final scope ss.toArray.size
  | .expr _ e, ss, ss', final, scope, inLoop, _, hok, hfinal => by
      rcases Stmt.analyze_expr_ok hok with ⟨rfl, n, hn, hzero⟩
      rw [Stmt.Charted]
      exact ⟨n, Expr.valueCount_grows hfinal.grows hn, hzero⟩
  | .assign _ targets value, ss, ss', final, scope, inLoop, _, hok, hfinal => by
      rw [Stmt.analyze] at hok
      rcases bind_eq_ok hok with ⟨_, hvalue, hok⟩
      rcases bind_eq_ok hok with ⟨_, htargets, hok⟩
      cases hok
      rw [Stmt.Charted]
      exact ⟨Analysis.expectValues_grows hfinal.grows hvalue,
        Analysis.expectVariables_assigns hfinal.grows targets htargets⟩
  -- A declaration is charted by what the analysis registered for it.
  | .decl _ vars none, ss, ss', final, scope, inLoop, h, hok, hfinal => by
      rw [Stmt.analyze] at hok
      rw [Stmt.Charted]
      exact ⟨Analysis.declareVariables_declares h hok hfinal.grows,
        fun e he => absurd he (by rintro ⟨⟩)⟩
  | .decl _ vars (some value), ss, ss', final, scope, inLoop, h, hok, hfinal => by
      rw [Stmt.analyze] at hok
      rcases bind_eq_ok hok with ⟨_, hvalue, hok⟩
      -- The value is counted before the declaration, so two growths lie between it and the end.
      have hgrows := (Analysis.declareVariables_passed h hok).1.grows.trans hfinal.grows
      rw [Stmt.Charted]
      refine ⟨Analysis.declareVariables_declares h hok hfinal.grows, fun e he => ?_⟩
      obtain rfl := Option.some.inj he
      exact Analysis.expectValues_grows hgrows hvalue
  | .func _ _ params returns body, ss, ss', final, scope, inLoop, h, hok, hfinal => by
      rw [Stmt.analyze] at hok
      rcases bind_eq_ok hok with ⟨ss₁, hvars, hbody⟩
      -- The scope opened for the function is the next free number.
      have h₁ := (Analysis.declareVariables_passed (h.push true) hvars).1
      have hplace₁ := h₁.place (h.push true)
      have h₂ := h₁.trans (Block.analyze_passed hplace₁ hbody)
      -- Declaring parameters opens no scope, so the body starts right behind.
      have hsize := h₁.size
      rw [Scopes.size_push, Nat.add_zero] at hsize
      have hbody' := Block.analyze_charted hplace₁ hbody (hfinal.later (b := ss₁) (by omega))
      -- The function's scope holds its variables and nothing that is declared later.
      have hfilled := h₂.filled hfinal
      rw [hsize] at hbody'
      rw [List.append_nil] at hfilled
      rw [Stmt.Charted]
      exact ⟨hfilled, hbody'⟩
  | .cond _ test body, ss, ss', final, scope, inLoop, h, hok, hfinal => by
      rw [Stmt.analyze] at hok
      rcases bind_eq_ok hok with ⟨_, htest, hbody⟩
      -- The condition was read in earlier scopes than the final ones.
      have hgrows := (Block.analyze_passed h hbody).grows.trans hfinal.grows
      rw [Stmt.Charted]
      exact ⟨Analysis.expectValues_grows hgrows htest, Block.analyze_charted h hbody hfinal⟩
  | .switch _ subject cases, ss, ss', final, scope, inLoop, h, hok, hfinal => by
      rw [Stmt.analyze] at hok
      rcases bind_eq_ok hok with ⟨_, hsubject, hcases⟩
      have hgrows := (Case.analyzeSeq_passed h hcases).grows.trans hfinal.grows
      rw [Stmt.Charted]
      exact ⟨Analysis.expectValues_grows hgrows hsubject, Case.analyzeSeq_charted h hcases hfinal⟩
  | .loop _ ⟨_, pre⟩ test post body, ss, ss', final, scope, inLoop, h, hok, hfinal => by
      rw [Stmt.analyze] at hok
      rcases bind_eq_ok hok with ⟨ss₁, hhoist, hok⟩
      rcases bind_eq_ok hok with ⟨ss₂, hpre, hok⟩
      rcases bind_eq_ok hok with ⟨_, htest, hok⟩
      rcases bind_eq_ok hok with ⟨ss₃, hbody, hpost⟩
      -- The four parts, each with a place to be analyzed in.
      have h₁ := (Analysis.hoist_passed (h.push false) hhoist).1
      have hplace₁ := h₁.place (h.push false)
      have h₂ := Stmt.analyzeSeq_passed hplace₁ hpre
      have hplace₂ := h₂.place hplace₁
      have h₃ := Block.analyze_passed hplace₂ hbody
      have hplace₃ := h₃.place hplace₂
      have h₄ := Block.analyze_passed hplace₃ hpost
      -- All that the scope of the loop ever gets is declared by the init block.
      have hfilled := (((h₁.trans h₂).trans h₃).trans h₄).filled hfinal
      rw [List.append_nil, List.append_nil] at hfilled
      have hsize₁ := h₁.size
      rw [Scopes.size_push, Nat.add_zero] at hsize₁
      have hsize₂ := h₂.size
      have hsize₃ := h₃.size
      -- The scope of the loop was opened first, and each part is final behind the one before.
      have hfinal₁ := hfinal.later (b := ss₁) (by omega)
      have hfinal₂ := hfinal.later (b := ss₂) (by omega)
      have hopened₁ : ss.toArray.size < ss₁.toArray.size := by omega
      have hopened₂ : ss.toArray.size < ss₂.toArray.size := by omega
      have hpre' := Stmt.analyzeSeq_charted hplace₁ hpre
        ((h₃.trans h₄).completes hfinal₁ hopened₁)
      have htest' := Analysis.expectValues_grows
        ((h₃.trans h₄).grows.trans hfinal.grows) htest
      have hbody' := Block.analyze_charted hplace₂ hbody (h₄.completes hfinal₂ hopened₂)
      have hpost' := Block.analyze_charted hplace₃ hpost (hfinal.later (b := ss₃) (by omega))
      -- The numbers of the scopes are sums of what the parts before opened.
      rw [hsize₁] at hpre'
      rw [hsize₂, hsize₁] at hbody'
      rw [hsize₃, hsize₂, hsize₁] at hpost'
      rw [Stmt.Charted]
      exact ⟨hfilled, hpre', htest', hbody', hpost'⟩
  | .brk _, ss, ss', final, scope, inLoop, _, _, _ => by
      rw [Stmt.Charted]
      trivial
  | .cont _, ss, ss', final, scope, inLoop, _, _, _ => by
      rw [Stmt.Charted]
      trivial
  | .block b, ss, ss', final, scope, inLoop, h, hok, hfinal => by
      rw [Stmt.analyze] at hok
      rw [Stmt.Charted]
      exact Block.analyze_charted h hok hfinal
  | .label _ _, ss, ss', final, scope, inLoop, _, _, _ => by
      rw [Stmt.Charted]
      trivial
  -- One target is checked as a list of one.
  | .stackAssign _ target, ss, ss', final, scope, inLoop, _, hok, hfinal => by
      rw [Stmt.analyze] at hok
      rcases bind_eq_ok hok with ⟨_, htarget, hok⟩
      cases hok
      rw [Stmt.Charted]
      refine Analysis.expectVariables_assigns hfinal.grows [target] ?_
      show (Analysis.expectVariable ss scope target >>= fun _ => pure ()) = .ok ()
      rw [htarget]
      rfl
termination_by structural s => s

/-- The cases are charted one behind the other, each with its own scopes. -/
theorem Case.analyzeSeq_charted : ∀ {cases : List Case} {ss ss' final : Scopes} {scope : Nat}
    {inLoop : Bool} {seen : List Word}, ss.Place scope →
    Case.analyzeSeq d scope inLoop seen cases ss = .ok ss' →
      Scopes.Completes ss ss' final → Case.ChartedSeq d final scope ss.toArray.size cases
  | [], ss, ss', final, scope, inLoop, seen, _, _, _ => by
      rw [Case.ChartedSeq]
      trivial
  | ⟨line, value, body⟩ :: rest, ss, ss', final, scope, inLoop, seen, h, hok, hfinal => by
      rcases Case.analyzeSeq_cons_ok hok with ⟨ss₁, seen', hbody, hrest⟩
      have h₁ := Block.analyze_passed h hbody
      have h₂ := Case.analyzeSeq_passed (h₁.place h) hrest
      have hsize := h₁.size
      have hrest' := Case.analyzeSeq_charted (h₁.place h) hrest
        (hfinal.later (b := ss₁) (by omega))
      rw [hsize] at hrest'
      rw [Case.ChartedSeq]
      exact ⟨Block.analyze_charted h hbody (h₂.completes hfinal h.opened), hrest'⟩
termination_by structural cases => cases

end

/-- The scopes of an accepted program fit its text, and no scope is inside a later one. -/
theorem analyze_charted {code : Block} {ss : Scopes} (h : analyze d code = .ok ss) :
    code.Charted d ss none 0 ∧ ss.Ordered := by
  rcases code with ⟨line, stmts⟩
  rw [analyze, Block.analyze] at h
  rcases bind_eq_ok h with ⟨ss₁, hhoist, hseq⟩
  have h₁ := (Analysis.hoist_passed Scopes.place_root hhoist).1
  have hplace₁ := h₁.place Scopes.place_root
  have h₂ := h₁.trans (Stmt.analyzeSeq_passed hplace₁ hseq)
  have hfinal : ∀ a : Scopes, Scopes.Completes a ss ss := fun a => ⟨.refl ss, fun _ _ _ => rfl⟩
  have hsize : ss₁.toArray.size = 0 + 1 := h₁.size
  have hseq' := Stmt.analyzeSeq_charted hplace₁ hseq (hfinal ss₁)
  rw [hsize] at hseq'
  rw [Block.Charted]
  exact ⟨⟨Scopes.Passed.filled (a := .empty) h₂ (hfinal _), hseq'⟩, h₂.ordered⟩

end Statements

end YulToolchain
