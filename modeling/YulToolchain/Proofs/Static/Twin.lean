import YulToolchain.Proofs.Static.Resolved

/-!
# Analysis and the Twin of a Dialect

The twin of a machine dialect has the same builtins with the same numbers of
arguments and values. Only what they are lowered to is different, which the analysis
does not look at, so it can not tell a dialect from its twin.

What the analysis does check is that every call of a builtin has as many arguments
as the builtin takes. Code generation relies on that without checking it again: a
twin drops the arguments that are there, an instruction takes as many as it needs.

## Main definitions

* `Expr.Counted`: Calls of builtins have the right number of arguments.

## Theorems

* `analyze_noOutput`: The analysis does not tell a dialect from its twin.
* `analyze_counted`: Accepted code has the right numbers of arguments.
-/

namespace YulToolchain

section Twin

variable (m : MachineDialect)

/-- A builtin of the twin is a builtin without its code. -/
theorem MachineDialect.builtin?_noOutput (name : String) :
    m.noOutput.builtin? name
      = (m.builtin? name).map fun b => { b with code := .stackEffectOnly } := by
  unfold MachineDialect.builtin? MachineDialect.noOutput
  by_cases hdry : m.dryRun = true
  · simp only [hdry, if_true, Option.map_map]
    rfl
  · simp only [hdry, if_true, if_false, Bool.false_eq_true]

theorem Dialect.reserved_noOutput (name : String) :
    (Dialect.machine m.noOutput).reserved name = (Dialect.machine m).reserved name := by
  simp only [Dialect.reserved, m.builtin?_noOutput, Option.isSome_map]

mutual

/-- Values are counted alike in both dialects. -/
theorem Expr.valueCount_noOutput (ss : Scopes) (scope : Nat) : ∀ e : Expr,
    e.valueCount (.machine m.noOutput) ss scope = e.valueCount (.machine m) ss scope
  | .literal l => by rw [Expr.valueCount, Expr.valueCount]
  | .ident line name => by rw [Expr.valueCount, Expr.valueCount]
  | .instr line op args => by
      rw [Expr.valueCount, Expr.valueCount, Expr.checkArgs_noOutput ss scope args]
  | .call line name args => by
      rw [Expr.valueCount, Expr.valueCount, Expr.checkArgs_noOutput ss scope args]
      simp only [Dialect.builtin?, m.builtin?_noOutput]
      cases m.builtin? name with
      | none => rfl
      | some b => rfl

/-- Arguments are checked alike in both dialects. -/
theorem Expr.checkArgs_noOutput (ss : Scopes) (scope : Nat) : ∀ args : List Expr,
    Expr.checkArgs (.machine m.noOutput) ss scope args = Expr.checkArgs (.machine m) ss scope args
  | [] => by rw [Expr.checkArgs, Expr.checkArgs]
  | e :: rest => by
      rw [Expr.checkArgs, Expr.checkArgs, Expr.checkArgs_noOutput ss scope rest,
        Expr.valueCount_noOutput ss scope e]

end

/-- Checks of value counts are the same function in both dialects. -/
theorem Analysis.expectValues_noOutput :
    Analysis.expectValues (.machine m.noOutput) = Analysis.expectValues (.machine m) := by
  funext ss scope e expected
  rw [Analysis.expectValues, Analysis.expectValues, Expr.valueCount_noOutput]

/-- Declaring is the same function in both dialects. -/
theorem Analysis.declare_noOutput :
    Analysis.declare (.machine m.noOutput) = Analysis.declare (.machine m) := by
  funext scope line name symbol ss
  rw [Analysis.declare, Analysis.declare, Dialect.reserved_noOutput]

/-- Declaring variables is the same function in both dialects. -/
theorem Analysis.declareVariables_noOutput :
    Analysis.declareVariables (.machine m.noOutput) = Analysis.declareVariables (.machine m) := by
  funext scope vars ss
  rw [Analysis.declareVariables, Analysis.declareVariables, Analysis.declare_noOutput]

/-- Hoisting is the same function in both dialects. -/
theorem Analysis.hoist_noOutput :
    Analysis.hoist (.machine m.noOutput) = Analysis.hoist (.machine m) := by
  funext scope stmts ss
  have hone : Analysis.hoistOne (.machine m.noOutput) scope
      = Analysis.hoistOne (.machine m) scope := by
    funext ss s
    cases s with
    | func _ _ _ _ _ => rw [Analysis.hoistOne, Analysis.hoistOne, Analysis.declare_noOutput]
    | label _ _ => rw [Analysis.hoistOne, Analysis.hoistOne, Analysis.declare_noOutput]
    | _ => rfl
  rw [Analysis.hoist, Analysis.hoist, hone]

mutual

/-- Blocks are analyzed alike in both dialects. -/
theorem Block.analyze_noOutput : ∀ (b : Block) (parent : Option Nat) (inLoop : Bool),
    b.analyze (.machine m.noOutput) parent inLoop = b.analyze (.machine m) parent inLoop
  | ⟨line, stmts⟩, parent, inLoop => by
      funext ss
      simp only [Block.analyze, Analysis.hoist_noOutput, Stmt.analyzeSeq_noOutput stmts]

/-- Sequences are analyzed alike in both dialects. -/
theorem Stmt.analyzeSeq_noOutput : ∀ (stmts : List Stmt) (scope : Nat) (inLoop : Bool),
    Stmt.analyzeSeq (.machine m.noOutput) scope inLoop stmts
      = Stmt.analyzeSeq (.machine m) scope inLoop stmts
  | [], scope, inLoop => by
      funext ss
      simp only [Stmt.analyzeSeq]
  | s :: rest, scope, inLoop => by
      funext ss
      simp only [Stmt.analyzeSeq, Stmt.analyze_noOutput s, Stmt.analyzeSeq_noOutput rest]

/-- Statements are analyzed alike in both dialects. -/
theorem Stmt.analyze_noOutput : ∀ (s : Stmt) (scope : Nat) (inLoop : Bool),
    s.analyze (.machine m.noOutput) scope inLoop = s.analyze (.machine m) scope inLoop
  -- Each case replaces the steps by those of the other dialect.
  | .expr line e, scope, inLoop => by
      funext ss
      simp only [Stmt.analyze, Expr.valueCount_noOutput]
      rfl
  | .assign line targets value, scope, inLoop => by
      funext ss
      simp only [Stmt.analyze, Analysis.expectValues_noOutput]
  | .decl line vars none, scope, inLoop => by
      funext ss
      simp only [Stmt.analyze, Analysis.declareVariables_noOutput]
  | .decl line vars (some value), scope, inLoop => by
      funext ss
      simp only [Stmt.analyze, Analysis.expectValues_noOutput, Analysis.declareVariables_noOutput]
  | .func line name params returns body, scope, inLoop => by
      funext ss
      simp only [Stmt.analyze, Analysis.declareVariables_noOutput, Block.analyze_noOutput body]
  | .cond line test body, scope, inLoop => by
      funext ss
      simp only [Stmt.analyze, Analysis.expectValues_noOutput, Block.analyze_noOutput body]
  | .switch line subject cases, scope, inLoop => by
      funext ss
      simp only [Stmt.analyze, Analysis.expectValues_noOutput, Case.analyzeSeq_noOutput cases]
  | .loop line ⟨preLine, pre⟩ test post body, scope, inLoop => by
      funext ss
      simp only [Stmt.analyze, Analysis.expectValues_noOutput, Analysis.hoist_noOutput,
        Stmt.analyzeSeq_noOutput pre, Block.analyze_noOutput post, Block.analyze_noOutput body]
  | .brk line, scope, inLoop => by
      funext ss
      simp only [Stmt.analyze]
  | .cont line, scope, inLoop => by
      funext ss
      simp only [Stmt.analyze]
  | .block b, scope, inLoop => by
      funext ss
      simp only [Stmt.analyze, Block.analyze_noOutput b]
  | .label line name, scope, inLoop => by
      funext ss
      simp only [Stmt.analyze]
  | .stackAssign line target, scope, inLoop => by
      funext ss
      simp only [Stmt.analyze]

/-- Cases are analyzed alike in both dialects. -/
theorem Case.analyzeSeq_noOutput : ∀ (cases : List Case) (scope : Nat) (inLoop : Bool)
    (seen : List Word), Case.analyzeSeq (.machine m.noOutput) scope inLoop seen cases
      = Case.analyzeSeq (.machine m) scope inLoop seen cases
  | [], scope, inLoop, seen => by
      funext ss
      simp only [Case.analyzeSeq]
  | ⟨line, none, body⟩ :: rest, scope, inLoop, seen => by
      funext ss
      simp only [Case.analyzeSeq, Block.analyze_noOutput body, Case.analyzeSeq_noOutput rest]
  | ⟨line, some l, body⟩ :: rest, scope, inLoop, seen => by
      funext ss
      simp only [Case.analyzeSeq, Block.analyze_noOutput body, Case.analyzeSeq_noOutput rest]

end

/-- The analysis does not tell a dialect from its twin. -/
theorem analyze_noOutput (code : Block) :
    analyze (.machine m.noOutput) code = analyze (.machine m) code := by
  rw [analyze, analyze, Block.analyze_noOutput]

end Twin

mutual

/-- The calls of builtins in an expression have the right number of arguments. -/
def Expr.Counted (d : Dialect) : Expr → Prop
  | .literal _ => True
  | .ident _ _ => True
  | .instr _ _ args => Expr.CountedAll d args
  | .call _ name args => match d.builtin? name with
    | some b => args.length = b.params ∧ (b.literalArguments = false → Expr.CountedAll d args)
    | none => Expr.CountedAll d args

/-- The calls of builtins in some expressions have the right number of arguments. -/
def Expr.CountedAll (d : Dialect) : List Expr → Prop
  | [] => True
  | e :: rest => e.Counted d ∧ Expr.CountedAll d rest

end

section Counting

variable {d : Dialect}

theorem Expr.countedAll_nil : Expr.CountedAll d [] := by
  rw [Expr.CountedAll]
  trivial

/-- A check that passes. -/
theorem guard_eq_ok {ε α : Type} {c : Prop} [Decidable c] {e : ε} {r : Unit → Except ε α} {a : α}
    (h : (if c then throw e >>= r else r ()) = .ok a) : ¬ c ∧ r () = .ok a := by
  by_cases hc : c
  · rw [if_pos hc] at h
    exact absurd h (by rintro ⟨⟩)
  · rw [if_neg hc] at h
    exact ⟨hc, h⟩

mutual

/-- An expression whose values could be counted has been counted all through. -/
theorem Expr.counted_of_valueCount {ss : Scopes} {scope : Nat} : ∀ (e : Expr) {n : Nat},
    e.valueCount d ss scope = .ok n → e.Counted d
  | .literal _, _, _ => by
      rw [Expr.Counted]
      trivial
  | .ident _ _, _, _ => by
      rw [Expr.Counted]
      trivial
  | .instr line op args, n, h => by
      rw [Expr.valueCount] at h
      rw [Expr.Counted]
      rcases bind_eq_ok (guard_eq_ok h).2 with ⟨_, hargs, _⟩
      exact Expr.counted_of_checkArgs args hargs
  | .call line name args, n, h => by
      rw [Expr.valueCount] at h
      rw [Expr.Counted]
      rcases hb : d.builtin? name with _ | b
      · simp only [hb] at h ⊢
        split at h
        · rcases bind_eq_ok (guard_eq_ok h).2 with ⟨_, hargs, _⟩
          exact Expr.counted_of_checkArgs args hargs
        · exact absurd h (by rintro ⟨⟩)
        · exact absurd h (by rintro ⟨⟩)
      · simp only [hb] at h ⊢
        -- Of a builtin with literal arguments only their number was checked.
        by_cases htext : b.literalArguments = true
        · rw [if_pos htext] at h
          refine ⟨not_not.mp (guard_eq_ok h).1, fun hc => absurd (hc.symm.trans htext) ?_⟩
          exact Bool.noConfusion
        · rw [if_neg htext] at h
          rcases guard_eq_ok h with ⟨hlen, h⟩
          rcases bind_eq_ok h with ⟨_, hargs, _⟩
          exact ⟨not_not.mp hlen, fun _ => Expr.counted_of_checkArgs args hargs⟩

/-- Arguments that were checked have been counted. -/
theorem Expr.counted_of_checkArgs {ss : Scopes} {scope : Nat} : ∀ (args : List Expr),
    Expr.checkArgs d ss scope args = .ok () → Expr.CountedAll d args
  | [], _ => Expr.countedAll_nil
  | e :: rest, h => by
      rw [Expr.checkArgs] at h
      rcases bind_eq_ok h with ⟨_, hrest, h⟩
      rcases bind_eq_ok h with ⟨n, he, _⟩
      rw [Expr.CountedAll]
      exact ⟨Expr.counted_of_valueCount e he, Expr.counted_of_checkArgs rest hrest⟩

end

/-- A value that was expected has been counted. -/
theorem Expr.counted_of_expectValues {ss : Scopes} {scope n : Nat} {e : Expr}
    (h : Analysis.expectValues d ss scope e n = .ok ()) : Expr.CountedAll d [e] := by
  rcases bind_eq_ok h with ⟨_, he, _⟩
  rw [Expr.CountedAll]
  exact ⟨Expr.counted_of_valueCount e he, Expr.countedAll_nil⟩

/-- The expressions of some statements have the right numbers of arguments. -/
def Stmt.AllCounted (d : Dialect) (stmts : List Stmt) : Prop :=
  ∀ s ∈ stmts, Expr.CountedAll d s.exprsHere

/-- The expressions of a statement in front of those of the others. -/
theorem Stmt.allCounted_cons {s : Stmt} {rest : List Stmt} (hs : Expr.CountedAll d s.exprsHere)
    (hrest : Stmt.AllCounted d rest) : Stmt.AllCounted d (s :: rest) := by
  intro s' hs'
  rcases List.mem_cons.mp hs' with rfl | hs'
  · exact hs
  · exact hrest s' hs'

/-- The one expression of the first statement. -/
theorem Stmt.AllCounted.expr {s : Stmt} {rest : List Stmt} {e : Expr}
    (h : Stmt.AllCounted d (s :: rest)) (he : s.exprsHere = [e]) : e.Counted d := by
  have := h s List.mem_cons_self
  rw [he, Expr.CountedAll] at this
  exact this.1

/-- The expressions of two sequences together. -/
theorem Stmt.allCounted_append {stmts rest : List Stmt} (hs : Stmt.AllCounted d stmts)
    (hrest : Stmt.AllCounted d rest) : Stmt.AllCounted d (stmts ++ rest) := by
  intro s' hs'
  rcases List.mem_append.mp hs' with hs' | hs'
  · exact hs s' hs'
  · exact hrest s' hs'

theorem Stmt.allCounted_single {s : Stmt} (hs : Expr.CountedAll d s.exprsHere) :
    Stmt.AllCounted d (s :: []) :=
  Stmt.allCounted_cons hs fun _ h => absurd h (List.not_mem_nil)

mutual

/-- All expressions of an accepted block have been counted. -/
theorem Block.analyze_counted : ∀ (b : Block) {parent : Option Nat} {inLoop : Bool}
    {ss ss' : Scopes}, b.analyze d parent inLoop ss = .ok ss' → Stmt.AllCounted d b.allStmts
  | ⟨line, stmts⟩, parent, inLoop, ss, ss', h => by
      rw [Block.analyze] at h
      rcases bind_eq_ok h with ⟨_, _, h⟩
      rw [Block.allStmts]
      exact Stmt.analyzeSeq_counted stmts h

/-- All expressions of an accepted sequence have been counted. -/
theorem Stmt.analyzeSeq_counted : ∀ (stmts : List Stmt) {scope : Nat} {inLoop : Bool}
    {ss ss' : Scopes}, Stmt.analyzeSeq d scope inLoop stmts ss = .ok ss' →
      Stmt.AllCounted d (Stmt.allStmtsSeq stmts)
  | [], scope, inLoop, ss, ss', _ => by
      rw [Stmt.allStmtsSeq]
      exact fun _ h => absurd h (List.not_mem_nil)
  | s :: rest, scope, inLoop, ss, ss', h => by
      rw [Stmt.analyzeSeq] at h
      rcases bind_eq_ok h with ⟨_, hs, hrest⟩
      rw [Stmt.allStmtsSeq, ← List.cons_append]
      exact Stmt.allCounted_append (Stmt.analyze_counted s hs) (Stmt.analyzeSeq_counted rest hrest)

/-- All expressions of an accepted statement have been counted, those inside of it too. -/
theorem Stmt.analyze_counted : ∀ (s : Stmt) {scope : Nat} {inLoop : Bool} {ss ss' : Scopes},
    s.analyze d scope inLoop ss = .ok ss' → Stmt.AllCounted d (s :: s.allInner)
  | .expr line e, scope, inLoop, ss, ss', h => by
      rw [Stmt.analyze] at h
      rcases bind_eq_ok h with ⟨_, he, _⟩
      simp only [Stmt.allInner]
      refine Stmt.allCounted_single ?_
      rw [Stmt.exprsHere, Expr.CountedAll]
      exact ⟨Expr.counted_of_valueCount e he, Expr.countedAll_nil⟩
  | .assign line targets value, scope, inLoop, ss, ss', h => by
      rw [Stmt.analyze] at h
      rcases bind_eq_ok h with ⟨_, he, _⟩
      simp only [Stmt.allInner]
      exact Stmt.allCounted_single (Expr.counted_of_expectValues he)
  | .decl line vars none, scope, inLoop, ss, ss', h => by
      simp only [Stmt.allInner]
      exact Stmt.allCounted_single Expr.countedAll_nil
  | .decl line vars (some value), scope, inLoop, ss, ss', h => by
      rw [Stmt.analyze] at h
      rcases bind_eq_ok h with ⟨_, he, _⟩
      simp only [Stmt.allInner]
      exact Stmt.allCounted_single (Expr.counted_of_expectValues he)
  | .func line name params returns body, scope, inLoop, ss, ss', h => by
      rw [Stmt.analyze] at h
      rcases bind_eq_ok h with ⟨_, _, h⟩
      rw [Stmt.allInner]
      exact Stmt.allCounted_cons Expr.countedAll_nil (Block.analyze_counted body h)
  | .cond line test body, scope, inLoop, ss, ss', h => by
      rw [Stmt.analyze] at h
      rcases bind_eq_ok h with ⟨_, he, h⟩
      rw [Stmt.allInner]
      exact Stmt.allCounted_cons (Expr.counted_of_expectValues he) (Block.analyze_counted body h)
  | .switch line subject cases, scope, inLoop, ss, ss', h => by
      rw [Stmt.analyze] at h
      rcases bind_eq_ok h with ⟨_, he, h⟩
      rw [Stmt.allInner]
      exact Stmt.allCounted_cons (Expr.counted_of_expectValues he)
        (Case.analyzeSeq_counted cases h)
  -- The expressions of a loop are in its condition and in its three parts.
  | .loop line ⟨preLine, pre⟩ test post body, scope, inLoop, ss, ss', h => by
      rw [Stmt.analyze] at h
      rcases bind_eq_ok h with ⟨_, _, h⟩
      rcases bind_eq_ok h with ⟨_, hpre, h⟩
      rcases bind_eq_ok h with ⟨_, he, h⟩
      rcases bind_eq_ok h with ⟨_, hbody, hpost⟩
      rw [Stmt.allInner, Block.allStmts]
      exact Stmt.allCounted_cons (Expr.counted_of_expectValues he) (Stmt.allCounted_append
        (Stmt.allCounted_append (Stmt.analyzeSeq_counted pre hpre)
          (Block.analyze_counted body hbody)) (Block.analyze_counted post hpost))
  | .brk line, scope, inLoop, ss, ss', _ => by
      simp only [Stmt.allInner]
      exact Stmt.allCounted_single Expr.countedAll_nil
  | .cont line, scope, inLoop, ss, ss', _ => by
      simp only [Stmt.allInner]
      exact Stmt.allCounted_single Expr.countedAll_nil
  | .block b, scope, inLoop, ss, ss', h => by
      rw [Stmt.analyze] at h
      rw [Stmt.allInner]
      exact Stmt.allCounted_cons Expr.countedAll_nil (Block.analyze_counted b h)
  | .label line name, scope, inLoop, ss, ss', _ => by
      simp only [Stmt.allInner]
      exact Stmt.allCounted_single Expr.countedAll_nil
  | .stackAssign line target, scope, inLoop, ss, ss', _ => by
      simp only [Stmt.allInner]
      exact Stmt.allCounted_single Expr.countedAll_nil

/-- All expressions of accepted cases have been counted. -/
theorem Case.analyzeSeq_counted : ∀ (cases : List Case) {scope : Nat} {inLoop : Bool}
    {seen : List Word} {ss ss' : Scopes}, Case.analyzeSeq d scope inLoop seen cases ss = .ok ss' →
      Stmt.AllCounted d (Case.allStmtsSeq cases)
  | [], scope, inLoop, seen, ss, ss', _ => by
      rw [Case.allStmtsSeq]
      exact fun _ h => absurd h (List.not_mem_nil)
  | ⟨line, none, body⟩ :: rest, scope, inLoop, seen, ss, ss', h => by
      rw [Case.analyzeSeq] at h
      rcases bind_eq_ok h with ⟨_, hbody, hrest⟩
      rw [Case.allStmtsSeq]
      exact Stmt.allCounted_append (Block.analyze_counted body hbody)
        (Case.analyzeSeq_counted rest hrest)
  | ⟨line, some l, body⟩ :: rest, scope, inLoop, seen, ss, ss', h => by
      rw [Case.analyzeSeq] at h
      rcases bind_eq_ok h with ⟨_, _, h⟩
      rcases bind_eq_ok h with ⟨_, hbody, hrest⟩
      rw [Case.allStmtsSeq]
      exact Stmt.allCounted_append (Block.analyze_counted body hbody)
        (Case.analyzeSeq_counted rest hrest)

end

/-- Accepted code has the right numbers of arguments. -/
theorem analyze_counted {code : Block} {ss : Scopes} (h : analyze d code = .ok ss) :
    Stmt.AllCounted d code.allStmts := Block.analyze_counted code h

end Counting

end YulToolchain
