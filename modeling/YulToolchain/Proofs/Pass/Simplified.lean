import YulToolchain.Pass.Simplify
import YulToolchain.Proofs.Pass.Copies
import YulToolchain.Proofs.Pass.Rules
import YulToolchain.Proofs.Syntax.Numbers

/-!
# Simplified Expressions

Simplifying expressions leaves every run as it is.

A rule is an identity on words, but it is applied to expressions, which do more than have a
value. There are two ways in which a match can be replaced. If the match is movable, so is
everything that the letters stand for; all of it has a value in every state and changes
nothing, and the identity says that the replacement has the value of the match. It then does
not matter how often an operand occurs. If the match is not movable, the rule is one that
keeps its only operand. Both sides are layers of instructions around that operand, and the
other arguments are numbers, so both evaluate the operand once, fail if it fails, and go on
to the same value if it does not.

## Main definitions

* `Expr.HasWord`: An expression has a value, and evaluating it changes nothing.
* `Expr.Inside`: An operand stands inside some layers.

## Theorems

* `Pattern.match?_means`, `Action.build?_means`: The value of a match and of a replacement.
* `Expr.Inside.becomes`: Layers with the same value can be exchanged.
* `Expr.simplifyStep?_becomes`: A rule may be applied wherever it is.
* `simplify_exact`: Simplifying leaves the result of every run as it is.
-/

namespace YulToolchain

/-- In a state an expression has a value, and evaluating it changes nothing. -/
def Expr.HasWord (c : RunContext) (s : RunState) (e : Expr) (w : Word) : Prop :=
  ∀ (call : Caller) (fs : FunctionScopes), e.run c call fs s = .ok [w] s

section Values

variable {c : RunContext} {s : RunState}

/-- An instruction that is a function of its arguments takes as many as it should, and has
    one value. -/
theorem Instruction.evaluate_shape {i : Instruction} {ws : List Word} {w : Word}
    (h : i.evaluate ws = some w) :
    i.isStackManipulation = false ∧ ws.length = i.args ∧ i.returns = 1 := by
  revert h
  fun_cases Instruction.evaluate i ws
  case case26 => exact fun h => absurd h (by rintro ⟨⟩)
  all_goals exact fun _ => ⟨rfl, rfl, rfl⟩

/-- An instruction with a value runs to that value. -/
theorem Run.instruction_evaluate {i : Instruction} {ws : List Word} {w : Word}
    (h : i.evaluate ws = some w) : Run.instruction c i ws s = .ok [w] s := by
  have hexecute : i.execute c.limits ws = pure (some w) := by
    rw [Instruction.execute_eq (Instruction.evaluate_shape h).2.1, h]
  rw [Run.instruction, hexecute]
  rfl

/-- An expression with a literal value is a literal. -/
theorem Expr.literalValue?_eq {e : Expr} {w : Word} (h : e.literalValue? = some w) :
    ∃ l, e = .literal l ∧ l.value = .ok w := by
  cases e with
  | literal l =>
      refine ⟨l, rfl, ?_⟩
      rw [literalValue?] at h
      cases hl : l.value with
      | error why =>
          rw [hl] at h
          exact absurd h (by rintro ⟨⟩)
      | ok w' =>
          rw [hl] at h
          rw [Option.some.inj h]
  | _ => exact absurd h (by rintro ⟨⟩)

theorem Expr.HasWord.of_literal {e : Expr} {w : Word} (h : e.literalValue? = some w) :
    e.HasWord c s w := by
  rcases literalValue?_eq h with ⟨l, rfl, hl⟩
  exact fun _ _ => run_literal hl

theorem Expr.literalValue?_number (line : Nat) (w : Word) :
    (Expr.number line w).literalValue? = some w := by
  rw [number, literalValue?, Literal.value_number]
  rfl

/-- A literal yields one value. -/
theorem Expr.Yields.of_literal {d : Dialect} {v : Sight} {e : Expr} {w : Word}
    (h : e.literalValue? = some w) : e.Yields d v 1 := by
  rcases literalValue?_eq h with ⟨l, rfl, hl⟩
  rw [Yields]
  exact ⟨⟨w, hl⟩, rfl⟩

/-- Arguments with words evaluate to them. -/
theorem Expr.runArgs_words {call : Caller} {fs : FunctionScopes} {es : List Expr}
    {ws : List Word} (h : List.Forall₂ (Expr.HasWord c s) es ws) :
    Expr.runArgs c call fs es s = .ok ws s := by
  induction h with
  | nil => rfl
  | cons hfirst _ ih => exact runArgs_cons ih (hfirst call fs)

/-- An instruction on words has the word that it makes of them. -/
theorem Expr.HasWord.instr {line : Nat} {i : Instruction} {es : List Expr} {ws : List Word}
    {w : Word} (hes : List.Forall₂ (Expr.HasWord c s) es ws) (hw : i.evaluate ws = some w) :
    (Expr.instr line i es).HasWord c s w := by
  intro call fs
  rw [run]
  exact Run.bind_ok (runArgs_words hes) (Run.instruction_evaluate hw)

theorem Expr.HasWord.unique {e : Expr} {w w' : Word} (h : e.HasWord c s w)
    (h' : e.HasWord c s w') : w = w' := by
  have heq := (h (fun _ _ _ => pure []) []).symm.trans (h' (fun _ _ _ => pure []) [])
  exact (List.cons.inj (EStateM.Result.ok.inj heq).1).1

/-- A folded expression is an instruction on literals. -/
theorem Expr.fold?_eq_some {e e' : Expr} (h : e.fold? = some e') :
    ∃ line i args values w, e = .instr line i args ∧ args.mapM Expr.literalValue? = some values ∧
      i.evaluate values = some w ∧ e' = .number line w := by
  cases e with
  | instr line i args =>
      simp only [fold?, Option.bind_eq_bind, Option.bind_eq_some_iff, Option.pure_def,
        Option.some.injEq] at h
      rcases h with ⟨values, hvalues, w, hw, rfl⟩
      exact ⟨line, i, args, values, w, rfl, hvalues, hw, rfl⟩
  | _ => exact absurd h (by rintro ⟨⟩)

/-- Literal values are those of the literals, one by one. -/
theorem Expr.literalValues {es : List Expr} {ws : List Word}
    (h : es.mapM Expr.literalValue? = some ws) :
    List.Forall₂ (fun e w => Expr.literalValue? e = some w) es ws := by
  induction es generalizing ws with
  | nil =>
      obtain rfl := Option.some.inj h
      exact .nil
  | cons e rest ih =>
      simp only [List.mapM_cons, Option.bind_eq_bind, Option.bind_eq_some_iff, Option.pure_def,
        Option.some.injEq] at h
      rcases h with ⟨first, hfirst, others, hothers, rfl⟩
      exact .cons hfirst (ih hothers)

theorem Expr.HasWord.of_literals {es : List Expr} {ws : List Word}
    (h : List.Forall₂ (fun e w => Expr.literalValue? e = some w) es ws) :
    List.Forall₂ (Expr.HasWord c s) es ws := h.imp fun _ _ h => .of_literal h

/-- What folding computes is what running the instruction gives. -/
theorem Expr.fold?_means {e e' : Expr} {w : Word} (h : e.fold? = some e')
    (hw : e.HasWord c s w) : e'.literalValue? = some w := by
  rcases fold?_eq_some h with ⟨line, i, args, values, w', rfl, hvalues, hw', rfl⟩
  rw [literalValue?_number, hw.unique (.instr (HasWord.of_literals (literalValues hvalues)) hw')]

/-- A movable expression that yields one value has a word. -/
theorem Expr.movable_hasWord {v : Sight} {e : Expr} (hmovable : e.movable c.dialect = true)
    (hyields : e.Yields c.dialect v 1) (henv : Environment.Holds v.vars s.env) :
    ∃ w, e.HasWord c s w := by
  rcases movable_means hmovable hyields henv with ⟨ws, hws, _, hrun⟩
  match ws, hws with
  | [w], _ => exact ⟨w, fun call fs => hrun call fs s rfl fun _ _ => rfl⟩

/-- A member of movable arguments is movable. -/
theorem Expr.movableAll_mem {d : Dialect} {es : List Expr} {e : Expr}
    (h : Expr.movableAll d es = true) (he : e ∈ es) : e.movable d = true := by
  induction es with
  | nil => exact absurd he List.not_mem_nil
  | cons a rest ih =>
      rw [movableAll, Bool.and_eq_true] at h
      rcases List.mem_cons.mp he with rfl | he
      · exact h.1
      · exact ih h.2 he

/-- Arguments yield one value each if every one of them does. -/
theorem Expr.yieldOnes_iff {d : Dialect} {v : Sight} {es : List Expr} :
    Expr.YieldOnes d v es ↔ ∀ e ∈ es, e.Yields d v 1 := by
  induction es with
  | nil =>
      rw [YieldOnes]
      exact iff_of_true trivial fun _ he => absurd he List.not_mem_nil
  | cons a rest ih => rw [YieldOnes, ih, List.forall_mem_cons]

end Values

section Matching

/-- A letter is bound already, to the same expression, or it is bound now. -/
theorem Bindings.bind?_eq_some {letter : Char} {e : Expr} {bs bs' : Bindings}
    (h : bs.bind? letter e = some bs') :
    (∃ x, bs.lookup letter = some x ∧ x.same e = true ∧ bs' = bs) ∨
      bs.lookup letter = none ∧ bs' = bs ++ [(letter, e)] := by
  rw [bind?] at h
  cases hbound : bs.lookup letter with
  | none =>
      rw [hbound] at h
      exact .inr ⟨rfl, (Option.some.inj h).symm⟩
  | some x =>
      simp only [hbound] at h
      by_cases hsame : x.same e = true
      · rw [if_pos hsame] at h
        exact .inl ⟨x, rfl, hsame, (Option.some.inj h).symm⟩
      · rw [if_neg hsame] at h
        exact absurd h (by rintro ⟨⟩)

-- The three kinds of patterns that match, as one case distinction.
/-- An instruction pattern matches that instruction only. -/
theorem Pattern.match?_op {i : Instruction} {ps : List Pattern} {e : Expr} {bs bs' : Bindings}
    (h : (Pattern.op i ps).match? e bs = some bs') :
    ∃ line args, e = .instr line i args ∧ Pattern.matchAll? ps args bs = some bs' := by
  cases e with
  | instr line j args =>
      rw [match?] at h
      split at h
      · rename_i hij
        exact ⟨line, args, by rw [hij], h⟩
      · exact absurd h (by rintro ⟨⟩)
  | _ => exact absurd h (by rintro ⟨⟩)

/-- A constant pattern binds its letter. -/
theorem Pattern.match?_constant {letter : Char} {e : Expr} {bs bs' : Bindings}
    (h : (Pattern.constant letter).match? e bs = some bs') : bs.bind? letter e = some bs' := by
  cases e with
  | literal l =>
      rw [match?] at h
      exact h
  | _ => exact absurd h (by rintro ⟨⟩)

/-- A number pattern matches that number and binds nothing. -/
theorem Pattern.match?_number {w : Word} {e : Expr} {bs bs' : Bindings}
    (h : (Pattern.number w).match? e bs = some bs') : e.literalValue? = some w ∧ bs' = bs := by
  cases e with
  | literal l =>
      rw [match?] at h
      rw [Expr.literalValue?]
      cases hl : l.value with
      | error why =>
          rw [hl] at h
          exact absurd h (by rintro ⟨⟩)
      | ok w' =>
          simp only [hl] at h
          split at h
          · rename_i hw
            exact ⟨congrArg some hw, (Option.some.inj h).symm⟩
          · exact absurd h (by rintro ⟨⟩)
  | _ => exact absurd h (by rintro ⟨⟩)

/-- Binding a letter extends the bindings. -/
theorem Bindings.bind?_extends {letter : Char} {e : Expr} {bs bs' : Bindings}
    (h : bs.bind? letter e = some bs') : bs <+: bs' := by
  rcases bind?_eq_some h with ⟨_, _, _, rfl⟩ | ⟨_, rfl⟩
  · exact List.prefix_refl bs'
  · exact List.prefix_append bs _

mutual

/-- Matching only adds to what letters stand for. -/
theorem Pattern.match?_extends : ∀ {p : Pattern} {e : Expr} {bs bs' : Bindings},
    p.match? e bs = some bs' → bs <+: bs'
  | .any _, _, _, _, h => by
      rw [match?] at h
      exact Bindings.bind?_extends h
  | .constant _, _, _, _, h => Bindings.bind?_extends (match?_constant h)
  | .number _, _, bs, _, h => (match?_number h).2 ▸ List.prefix_refl bs
  | .op _ _, _, _, _, h => by
      rcases match?_op h with ⟨_, _, _, hargs⟩
      exact Pattern.matchAll?_extends hargs

/-- Matching arguments extends the bindings. -/
theorem Pattern.matchAll?_extends : ∀ {ps : List Pattern} {es : List Expr} {bs bs' : Bindings},
    Pattern.matchAll? ps es bs = some bs' → bs <+: bs'
  | [], [], bs, _, h => by
      rw [matchAll?] at h
      exact Option.some.inj h ▸ List.prefix_refl bs
  | [], _ :: _, _, _, h => absurd h (by rintro ⟨⟩)
  | _ :: _, [], _, _, h => absurd h (by rintro ⟨⟩)
  | p :: ps, e :: es, bs, bs', h => by
      rw [matchAll?] at h
      rcases Option.bind_eq_some_iff.mp h with ⟨bs₁, hp, hps⟩
      exact (Pattern.match?_extends hp).trans (Pattern.matchAll?_extends hps)

end

/-- What holds of the expression holds of all bindings. -/
theorem Bindings.bind?_bound {P : Expr → Prop} {letter : Char} {e : Expr} {bs bs' : Bindings}
    (h : bs.bind? letter e = some bs') (he : P e) (hbs : ∀ b ∈ bs, P b.2) : ∀ b ∈ bs', P b.2 := by
  rcases bind?_eq_some h with ⟨_, _, _, rfl⟩ | ⟨_, rfl⟩
  · exact hbs
  · intro b hb
    rcases List.mem_append.mp hb with hb | hb
    · exact hbs b hb
    · rw [List.mem_singleton.mp hb]
      exact he

mutual

/-- What all parts of an expression have, everything has that a letter stands for. -/
theorem Pattern.match?_bound {P : Expr → Prop}
    (hP : ∀ line i args, P (.instr line i args) → ∀ a ∈ args, P a) :
    ∀ {p : Pattern} {e : Expr} {bs bs' : Bindings}, p.match? e bs = some bs' → P e →
      (∀ b ∈ bs, P b.2) → ∀ b ∈ bs', P b.2
  | .any _, _, _, _, h, he, hbs => by
      rw [match?] at h
      exact Bindings.bind?_bound h he hbs
  | .constant _, _, _, _, h, he, hbs => Bindings.bind?_bound (match?_constant h) he hbs
  | .number _, _, bs, _, h, _, hbs => (match?_number h).2 ▸ hbs
  | .op _ _, _, _, _, h, he, hbs => by
      rcases match?_op h with ⟨line, args, rfl, hargs⟩
      exact Pattern.matchAll?_bound hP hargs (hP _ _ _ he) hbs

/-- What holds of arguments and their operands holds of all bindings. -/
theorem Pattern.matchAll?_bound {P : Expr → Prop}
    (hP : ∀ line i args, P (.instr line i args) → ∀ a ∈ args, P a) :
    ∀ {ps : List Pattern} {es : List Expr} {bs bs' : Bindings},
      Pattern.matchAll? ps es bs = some bs' → (∀ e ∈ es, P e) → (∀ b ∈ bs, P b.2) →
        ∀ b ∈ bs', P b.2
  | [], [], _, _, h, _, hbs => by
      rw [matchAll?] at h
      exact Option.some.inj h ▸ hbs
  | [], _ :: _, _, _, h, _, _ => absurd h (by rintro ⟨⟩)
  | _ :: _, [], _, _, h, _, _ => absurd h (by rintro ⟨⟩)
  | p :: ps, e :: es, bs, bs', h, hes, hbs => by
      rw [matchAll?] at h
      rcases Option.bind_eq_some_iff.mp h with ⟨bs₁, hp, hps⟩
      have hbs₁ := Pattern.match?_bound hP hp (hes e List.mem_cons_self) hbs
      exact Pattern.matchAll?_bound hP hps (fun e' he' => hes e' (List.mem_cons_of_mem _ he')) hbs₁

end

theorem Bindings.mem_of_lookup {bs : Bindings} {letter : Char} {x : Expr}
    (h : bs.lookup letter = some x) : (letter, x) ∈ bs := by
  rcases List.lookup_eq_some_iff.mp h with ⟨before, behind, rfl, _⟩
  exact List.mem_append_right _ List.mem_cons_self

/-- Building a list builds its first expression and the others. -/
theorem Action.buildAll?_cons {e : Expr} {bs : Bindings} {a : Action} {as : List Action}
    {es : List Expr} (h : Action.buildAll? e bs (a :: as) = some es) :
    ∃ first rest, es = first :: rest ∧ a.build? e bs = some first ∧
      Action.buildAll? e bs as = some rest := by
  simp only [buildAll?, Option.bind_eq_bind, Option.bind_eq_some_iff, Option.pure_def,
    Option.some.injEq] at h
  rcases h with ⟨first, hfirst, rest, hrest, rfl⟩
  exact ⟨first, rest, rfl, hfirst, hrest⟩

mutual

/-- A property of numbers, of what the letters stand for and of instructions whose arguments
    have it is a property of a replacement with a value. -/
theorem Action.build?_built {P : Expr → Prop} {ρ : Char → Word} {e : Expr} {bs : Bindings}
    {w : Word} {ops : List Instruction} (hbs : ∀ b ∈ bs, P b.2)
    (hnumber : ∀ line n, P (.number line n))
    (hinstr : ∀ line i args, i ∈ ops → i.isStackManipulation = false → args.length = i.args →
      i.returns = 1 → (∀ a ∈ args, P a) → P (.instr line i args)) :
    ∀ {a : Action} {e' : Expr} {w' : Word}, a.ops ⊆ ops → a.build? e bs = some e' →
      a.denotes ρ w = some w' → P e'
  | .keep _, _, _, _, h, _ => by
      rw [build?] at h
      exact hbs _ (Bindings.mem_of_lookup h)
  | .number n, _, _, _, h, _ => by
      rw [build?] at h
      exact Option.some.inj h ▸ hnumber e.line n
  | .fold, _, _, _, h, _ => by
      rw [build?] at h
      rcases Expr.fold?_eq_some h with ⟨line, _, _, _, n, _, _, _, rfl⟩
      exact hnumber line n
  | .op i _, _, _, hops, h, hw => by
      rw [build?] at h
      rw [denotes] at hw
      rw [Action.ops, List.cons_subset] at hops
      rcases Option.map_eq_some_iff.mp h with ⟨es, hes, rfl⟩
      rcases Option.bind_eq_some_iff.mp hw with ⟨ws, hws, hw⟩
      rcases Action.buildAll?_built hbs hnumber hinstr hops.2 hes hws with ⟨hones, hlength⟩
      rcases Instruction.evaluate_shape hw with ⟨hstack, hargs, hreturns⟩
      exact hinstr _ i es hops.1 hstack (hlength.trans hargs) hreturns hones

/-- What holds of bindings, numbers and instructions holds of built arguments. -/
theorem Action.buildAll?_built {P : Expr → Prop} {ρ : Char → Word} {e : Expr} {bs : Bindings}
    {w : Word} {ops : List Instruction} (hbs : ∀ b ∈ bs, P b.2)
    (hnumber : ∀ line n, P (.number line n))
    (hinstr : ∀ line i args, i ∈ ops → i.isStackManipulation = false → args.length = i.args →
      i.returns = 1 → (∀ a ∈ args, P a) → P (.instr line i args)) :
    ∀ {as : List Action} {es : List Expr} {ws : List Word}, Action.opsAll as ⊆ ops →
      Action.buildAll? e bs as = some es → Action.denotesAll ρ w as = some ws →
        (∀ e' ∈ es, P e') ∧ es.length = ws.length
  | [], _, _, _, h, hws => by
      rw [buildAll?] at h
      rw [denotesAll] at hws
      rw [← Option.some.inj h, ← Option.some.inj hws]
      exact ⟨fun _ he => absurd he List.not_mem_nil, rfl⟩
  | _ :: _, _, _, hops, h, hws => by
      rcases Action.buildAll?_cons h with ⟨first, rest, rfl, hfirst, hrest⟩
      rw [Action.opsAll, List.append_subset] at hops
      rw [denotesAll] at hws
      rcases Option.bind_eq_some_iff.mp hws with ⟨w', hw', hws⟩
      rcases Option.map_eq_some_iff.mp hws with ⟨others, hothers, rfl⟩
      have hall := Action.buildAll?_built hbs hnumber hinstr hops.2 hrest hothers
      -- The first argument and the others; there are as many as words.
      exact ⟨List.forall_mem_cons.mpr
        ⟨Action.build?_built hbs hnumber hinstr hops.1 hfirst hw', hall.1⟩,
        congrArg (· + 1) hall.2⟩

end

end Matching

section Movable

variable {c : RunContext} {v : Sight} {s : RunState} {ρ : Char → Word}

/-- Letters stand for expressions that are well formed and have given values. -/
def Bindings.Mean (c : RunContext) (v : Sight) (s : RunState) (ρ : Char → Word)
    (bs : Bindings) : Prop :=
  ∀ letter x, bs.lookup letter = some x → x.Yields c.dialect v 1 ∧ x.HasWord c s (ρ letter)

/-- Earlier bindings mean the same. -/
theorem Bindings.Mean.shorter {bs bs' : Bindings} (h : bs'.Mean c v s ρ) (hsub : bs <+: bs') :
    bs.Mean c v s ρ := by
  rcases hsub with ⟨more, rfl⟩
  intro letter x hx
  exact h letter x (by rw [List.lookup_append, hx, Option.some_or])

/-- A letter that stood for an expression before stands for one that is the same. -/
theorem Bindings.Mean.bind? {letter : Char} {e : Expr} {bs bs' : Bindings}
    (h : bs.bind? letter e = some bs') (hbs : bs'.Mean c v s ρ) : e.HasWord c s (ρ letter) := by
  rcases bind?_eq_some h with ⟨x, hx, hsame, rfl⟩ | ⟨hnone, rfl⟩
  · rcases hbs letter x hx with ⟨hyields, hx⟩
    exact fun call fs => Expr.run_same hsame hyields (hx call fs)
  · refine (hbs letter e ?_).2
    rw [List.lookup_append, hnone, Option.none_or, List.lookup_cons_self]

mutual

/-- A match has the value of its pattern. -/
theorem Pattern.match?_means : ∀ {p : Pattern} {e : Expr} {bs bs' : Bindings} {w : Word},
    p.match? e bs = some bs' → bs'.Mean c v s ρ → p.denotes ρ = some w → e.HasWord c s w
  | .any _, _, _, _, _, h, hbs, hw => by
      rw [match?] at h
      rw [denotes] at hw
      exact Option.some.inj hw ▸ hbs.bind? h
  | .constant _, _, _, _, _, h, hbs, hw => by
      rw [denotes] at hw
      exact Option.some.inj hw ▸ hbs.bind? (match?_constant h)
  | .number _, _, _, _, _, h, _, hw => by
      rw [denotes] at hw
      exact Option.some.inj hw ▸ .of_literal (match?_number h).1
  | .op i ps, _, _, _, _, h, hbs, hw => by
      rcases match?_op h with ⟨line, args, rfl, hargs⟩
      rw [denotes] at hw
      rcases Option.bind_eq_some_iff.mp hw with ⟨ws, hws, hw⟩
      exact .instr (Pattern.matchAll?_means hargs hbs hws) hw

/-- Matched arguments have the words that the patterns denote. -/
theorem Pattern.matchAll?_means : ∀ {ps : List Pattern} {es : List Expr} {bs bs' : Bindings}
    {ws : List Word}, Pattern.matchAll? ps es bs = some bs' → bs'.Mean c v s ρ →
      Pattern.denotesAll ρ ps = some ws → List.Forall₂ (Expr.HasWord c s) es ws
  | [], [], _, _, _, _, _, hws => by
      rw [denotesAll] at hws
      exact Option.some.inj hws ▸ .nil
  | [], _ :: _, _, _, _, h, _, _ => absurd h (by rintro ⟨⟩)
  | _ :: _, [], _, _, _, h, _, _ => absurd h (by rintro ⟨⟩)
  | p :: ps, e :: es, bs, bs', _, h, hbs, hws => by
      rw [matchAll?] at h
      rcases Option.bind_eq_some_iff.mp h with ⟨bs₁, hp, hps⟩
      rw [denotesAll] at hws
      rcases Option.bind_eq_some_iff.mp hws with ⟨w, hw, hws⟩
      rcases Option.map_eq_some_iff.mp hws with ⟨rest, hrest, rfl⟩
      exact .cons (Pattern.match?_means hp (hbs.shorter (Pattern.matchAll?_extends hps)) hw)
        (Pattern.matchAll?_means hps hbs hrest)

end

mutual

/-- A replacement has the value of its action. -/
theorem Action.build?_means {e : Expr} {bs : Bindings} {w : Word} (he : e.HasWord c s w)
    (hbs : bs.Mean c v s ρ) : ∀ {a : Action} {e' : Expr} {w' : Word}, a.build? e bs = some e' →
      a.denotes ρ w = some w' → e'.HasWord c s w'
  | .keep letter, e', _, h, hw => by
      rw [build?] at h
      rw [denotes] at hw
      exact Option.some.inj hw ▸ (hbs letter e' h).2
  | .number n, e', _, h, hw => by
      rw [build?] at h
      rw [denotes] at hw
      rw [← Option.some.inj h, ← Option.some.inj hw]
      exact .of_literal (Expr.literalValue?_number e.line n)
  | .fold, e', _, h, hw => by
      rw [build?] at h
      rw [denotes] at hw
      exact Option.some.inj hw ▸ .of_literal (Expr.fold?_means h he)
  | .op i args, e', _, h, hw => by
      rw [build?] at h
      rw [denotes] at hw
      rcases Option.map_eq_some_iff.mp h with ⟨es, hes, rfl⟩
      rcases Option.bind_eq_some_iff.mp hw with ⟨ws, hws, hw⟩
      exact .instr (Action.buildAll?_means he hbs hes hws) hw

/-- Built arguments have the words that the actions denote. -/
theorem Action.buildAll?_means {e : Expr} {bs : Bindings} {w : Word} (he : e.HasWord c s w)
    (hbs : bs.Mean c v s ρ) : ∀ {as : List Action} {es : List Expr} {ws : List Word},
      Action.buildAll? e bs as = some es → Action.denotesAll ρ w as = some ws →
        List.Forall₂ (Expr.HasWord c s) es ws
  | [], es, _, h, hws => by
      rw [buildAll?] at h
      rw [denotesAll] at hws
      rw [← Option.some.inj h, ← Option.some.inj hws]
      exact .nil
  | a :: as, es, _, h, hws => by
      rcases Action.buildAll?_cons h with ⟨first, rest, rfl, hfirst, hrest⟩
      rw [denotesAll] at hws
      rcases Option.bind_eq_some_iff.mp hws with ⟨w', hw', hws⟩
      rcases Option.map_eq_some_iff.mp hws with ⟨others, hothers, rfl⟩
      exact .cons (Action.build?_means he hbs hfirst hw')
        (Action.buildAll?_means he hbs hrest hothers)

end

/-- A match has one value, and so has everything in it that a letter stands for. -/
theorem Rule.Sound.one {r : Rule} (hsound : r.Sound) {i : Instruction} {ps : List Pattern}
    (hop : r.pattern = .op i ps) {e : Expr} {bs : Bindings}
    (hmatch : r.pattern.match? e [] = some bs) {d : Dialect} {v : Sight} {n : Nat}
    (hyields : e.Yields d v n) : n = 1 := by
  rcases hsound fun _ => 0 with ⟨w, hw, _⟩
  rw [hop, Pattern.denotes] at hw
  rcases Option.bind_eq_some_iff.mp hw with ⟨ws, _, hw⟩
  rw [hop] at hmatch
  rcases Pattern.match?_op hmatch with ⟨line, args, rfl, _⟩
  rw [Expr.Yields] at hyields
  rw [hyields.2.2.1, (Instruction.evaluate_shape hw).2.2]

/-- The bindings of a movable expression are movable and yield one value each. -/
theorem Rule.Sound.bound_movable {r : Rule} (hsound : r.Sound) {i : Instruction}
    {ps : List Pattern} (hop : r.pattern = .op i ps) {e : Expr} {bs : Bindings}
    (hmatch : r.pattern.match? e [] = some bs) (hmovable : e.movable c.dialect = true) {n : Nat}
    (hyields : e.Yields c.dialect v n) :
    ∀ b ∈ bs, b.2.movable c.dialect = true ∧ b.2.Yields c.dialect v 1 := by
  obtain rfl := hsound.one hop hmatch hyields
  refine Pattern.match?_bound (P := fun x => x.movable c.dialect = true ∧ x.Yields c.dialect v 1)
    (fun line i args h a ha => ?_) hmatch ⟨hmovable, hyields⟩
    fun b hb => absurd hb List.not_mem_nil
  rw [Expr.movable, Bool.and_eq_true, Expr.Yields] at h
  exact ⟨Expr.movableAll_mem h.1.2 ha, Expr.yieldOnes_iff.mp h.2.2.2.2 _ ha⟩

/-- What a rule puts in place of a movable match does the same. -/
theorem Rule.Sound.becomes_movable {r : Rule} (hsound : r.Sound) {i : Instruction}
    {ps : List Pattern} (hop : r.pattern = .op i ps) {e e' : Expr} {bs : Bindings} {k : Known}
    (hmatch : r.pattern.match? e [] = some bs) (hbuild : r.action.build? e bs = some e')
    (hmovable : e.movable c.dialect = true) : e.Becomes c k e' := by
  have hbound : ∀ {v : Sight}, e.Yields c.dialect v 1 →
      ∀ b ∈ bs, b.2.movable c.dialect = true ∧ b.2.Yields c.dialect v 1 :=
    fun hyields => hsound.bound_movable hop hmatch hmovable hyields
  refine ⟨fun {v n} _ hyields => ?_, fun {call v n s} hcall hv hfit hyields henv _ => ?_⟩
  -- What is built yields one value.
  · obtain rfl := hsound.one hop hmatch hyields
    rcases hsound fun _ => 0 with ⟨w, _, hw⟩
    refine Action.build?_built (P := (·.Yields c.dialect v 1))
      (fun b hb => (hbound hyields b hb).2)
      (fun line n => .of_literal (Expr.literalValue?_number line n))
      (fun line i args _ hstack hargs hreturns hones => ?_) (List.Subset.refl _) hbuild hw
    rw [Expr.Yields]
    exact ⟨hstack, hargs, hreturns.symm, Expr.yieldOnes_iff.mpr hones⟩
  -- And it has the same value: each letter stands for the word of its binding.
  · obtain rfl := hsound.one hop hmatch hyields
    have hwords : ∀ letter, ∃ w, ∀ x, bs.lookup letter = some x → x.HasWord c s w := by
      intro letter
      cases hlookup : bs.lookup letter with
      | none => exact ⟨0, by rintro x ⟨⟩⟩
      | some x =>
          have hmem := Bindings.mem_of_lookup hlookup
          rcases Expr.movable_hasWord (hbound hyields _ hmem).1 (hbound hyields _ hmem).2 henv
            with ⟨w, hw⟩
          exact ⟨w, fun y hy => Option.some.inj hy ▸ hw⟩
    -- One word for each letter, as the rule is sound for all choices.
    choose ρ hρ using hwords
    have hbs : bs.Mean c v s ρ := fun letter x hx =>
      ⟨(hbound hyields _ (Bindings.mem_of_lookup hx)).2, hρ letter x hx⟩
    rcases hsound ρ with ⟨w, hw, hw'⟩
    have he := Pattern.match?_means hmatch hbs hw
    have he' := Action.build?_means he hbs hbuild hw'
    rw [he call v.functions, he' call v.functions]

end Movable

section Layers

/-- An operand stands inside some layers, the outermost first, as part of an expression. -/
inductive Expr.Inside (x : Expr) : List Surround → Expr → Prop where
  | operand : Expr.Inside x [] x
  | layer {f : Surround} {rest : List Surround} {line : Nat} {e : Expr} {ls rs : List Expr} :
    Expr.Inside x rest e →
    List.Forall₂ (fun l w => Expr.literalValue? l = some w) ls f.left →
    List.Forall₂ (fun r w => Expr.literalValue? r = some w) rs f.right →
    Expr.Inside x (f :: rest) (.instr line f.op (ls ++ e :: rs))

/-- Number patterns match those numbers and bind nothing. -/
theorem Pattern.matchAll?_numbers {ws : List Word} {es : List Expr} {bs bs' : Bindings}
    (h : Pattern.matchAll? (ws.map .number) es bs = some bs') :
    List.Forall₂ (fun e w => Expr.literalValue? e = some w) es ws ∧ bs' = bs := by
  induction ws generalizing es with
  | nil =>
      cases es with
      | nil => exact ⟨.nil, (Option.some.inj h).symm⟩
      | cons _ _ => exact absurd h (by rintro ⟨⟩)
  | cons w rest ih =>
      cases es with
      | nil => exact absurd h (by rintro ⟨⟩)
      | cons e es =>
          rw [List.map_cons, matchAll?] at h
          rcases Option.bind_eq_some_iff.mp h with ⟨bs₁, hfirst, hrest⟩
          rcases match?_number hfirst with ⟨hw, rfl⟩
          rcases ih hrest with ⟨hws, hbs⟩
          exact ⟨.cons hw hws, hbs⟩

/-- A pattern between numbers matches a list with that operand in it. -/
theorem Pattern.matchAll?_between {p : Pattern} {left right : List Word} {es : List Expr}
    {bs bs' : Bindings}
    (h : Pattern.matchAll? (left.map .number ++ p :: right.map .number) es bs = some bs') :
    ∃ ls e rs, es = ls ++ e :: rs ∧ p.match? e bs = some bs' ∧
      List.Forall₂ (fun e w => Expr.literalValue? e = some w) ls left ∧
      List.Forall₂ (fun e w => Expr.literalValue? e = some w) rs right := by
  induction left generalizing es with
  | nil =>
      cases es with
      | nil => exact absurd h (by rintro ⟨⟩)
      | cons e rs =>
          rw [List.map_nil, List.nil_append, matchAll?] at h
          rcases Option.bind_eq_some_iff.mp h with ⟨bs₁, hp, hnumbers⟩
          rcases matchAll?_numbers hnumbers with ⟨hrs, rfl⟩
          exact ⟨[], e, rs, rfl, hp, .nil, hrs⟩
  | cons w left ih =>
      cases es with
      | nil => exact absurd h (by rintro ⟨⟩)
      | cons l es =>
          rw [List.map_cons, List.cons_append, matchAll?] at h
          rcases Option.bind_eq_some_iff.mp h with ⟨bs₁, hfirst, hrest⟩
          rcases match?_number hfirst with ⟨hw, rfl⟩
          rcases ih hrest with ⟨ls, e, rs, rfl, hp, hls, hrs⟩
          exact ⟨l :: ls, e, rs, rfl, hp, .cons hw hls, hrs⟩

/-- A surrounded pattern matches an operand inside of those instructions. -/
theorem Pattern.match?_around {letter : Char} : ∀ {frames : List Surround} {e : Expr}
    {bs : Bindings}, (Pattern.around letter frames).match? e [] = some bs →
      ∃ x, bs = [(letter, x)] ∧ x.Inside frames e
  | [], e, _, h => by
      rw [around, match?] at h
      exact ⟨e, (Option.some.inj h).symm, .operand⟩
  | f :: rest, e, _, h => by
      rw [around] at h
      rcases match?_op h with ⟨line, args, rfl, hargs⟩
      rcases matchAll?_between hargs with ⟨ls, e, rs, rfl, he, hls, hrs⟩
      rcases match?_around he with ⟨x, rfl, hx⟩
      exact ⟨x, rfl, .layer hx hls hrs⟩

/-- Number actions build those numbers. -/
theorem Action.buildAll?_numbers {matched : Expr} {bs : Bindings} {ws : List Word}
    {es : List Expr} (h : Action.buildAll? matched bs (ws.map .number) = some es) :
    List.Forall₂ (fun e w => Expr.literalValue? e = some w) es ws := by
  induction ws generalizing es with
  | nil => exact Option.some.inj h ▸ .nil
  | cons w rest ih =>
      rw [List.map_cons] at h
      rcases buildAll?_cons h with ⟨first, others, rfl, hfirst, hothers⟩
      rw [build?] at hfirst
      exact .cons (Option.some.inj hfirst ▸ Expr.literalValue?_number matched.line w)
        (ih hothers)

/-- An action between numbers builds a list with that result in it. -/
theorem Action.buildAll?_between {a : Action} {matched : Expr} {bs : Bindings}
    {left right : List Word} {es : List Expr}
    (h : Action.buildAll? matched bs (left.map .number ++ a :: right.map .number) = some es) :
    ∃ ls e rs, es = ls ++ e :: rs ∧ a.build? matched bs = some e ∧
      List.Forall₂ (fun e w => Expr.literalValue? e = some w) ls left ∧
      List.Forall₂ (fun e w => Expr.literalValue? e = some w) rs right := by
  induction left generalizing es with
  | nil =>
      rw [List.map_nil, List.nil_append] at h
      rcases buildAll?_cons h with ⟨e, rs, rfl, he, hrs⟩
      exact ⟨[], e, rs, rfl, he, .nil, buildAll?_numbers hrs⟩
  | cons w left ih =>
      rw [List.map_cons, List.cons_append] at h
      rcases buildAll?_cons h with ⟨first, others, rfl, hfirst, hothers⟩
      rcases ih hothers with ⟨ls, e, rs, rfl, he, hls, hrs⟩
      rw [build?] at hfirst
      refine ⟨first :: ls, e, rs, rfl, he, .cons ?_ hls, hrs⟩
      exact Option.some.inj hfirst ▸ Expr.literalValue?_number matched.line w

/-- A surrounded action builds the operand inside of those instructions. -/
theorem Action.build?_around {letter : Char} {matched x : Expr} : ∀ {frames : List Surround}
    {e : Expr}, (Action.around letter frames).build? matched [(letter, x)] = some e →
      x.Inside frames e
  | [], e, h => by
      rw [around, build?, List.lookup_cons_self] at h
      exact Option.some.inj h ▸ .operand
  | f :: rest, e, h => by
      rw [around, build?] at h
      rcases Option.map_eq_some_iff.mp h with ⟨es, hes, rfl⟩
      rcases buildAll?_between hes with ⟨ls, e, rs, rfl, he, hls, hrs⟩
      exact .layer (build?_around he) hls hrs

variable {c : RunContext} {call : Caller} {fs : FunctionScopes} {v : Sight} {s t : RunState}

/-- Two lists of arguments yield one value each if both do. -/
theorem Expr.yieldOnes_append {d : Dialect} {es es' : List Expr} :
    Expr.YieldOnes d v (es ++ es') ↔ Expr.YieldOnes d v es ∧ Expr.YieldOnes d v es' := by
  induction es with
  | nil => simp only [List.nil_append, YieldOnes, true_and]
  | cons e rest ih => simp only [List.cons_append, YieldOnes, ih, and_assoc]

/-- Literals yield one value each. -/
theorem Expr.yieldOnes_literals {d : Dialect} {es : List Expr} {ws : List Word}
    (h : List.Forall₂ (fun e w => Expr.literalValue? e = some w) es ws) :
    Expr.YieldOnes d v es := by
  induction h with
  | nil => rw [YieldOnes]; trivial
  | cons hfirst _ ih =>
      rw [YieldOnes]
      exact ⟨.of_literal hfirst, ih⟩

namespace Expr.Inside

variable {x e : Expr} {frames : List Surround}

/-- The literals on the right are there before the operand is evaluated, those on the left come
    behind it. -/
theorem runArgs {ls rs : List Expr} {left right : List Word} {w : Word}
    (hls : List.Forall₂ (fun e w => Expr.literalValue? e = some w) ls left)
    (hrs : List.Forall₂ (fun e w => Expr.literalValue? e = some w) rs right)
    (he : e.run c call fs s = .ok [w] t) :
    Expr.runArgs c call fs (ls ++ e :: rs) s = .ok (left ++ w :: right) t := by
  induction hls with
  | nil =>
      rw [List.nil_append, Expr.runArgs]
      exact Run.bind_ok (Expr.runArgs_words (Expr.HasWord.of_literals hrs)) (Run.bind_ok he rfl)
  | cons hfirst _ ih =>
      rw [List.cons_append, Expr.runArgs]
      have hl : Expr.HasWord c t _ _ := .of_literal hfirst
      exact Run.bind_ok ih (Run.bind_ok (hl call fs) rfl)

/-- Literals around an operand that halts halt with it. -/
theorem runArgs_error {ls rs : List Expr} {right : List Word} {halt : Halt}
    (hrs : List.Forall₂ (fun e w => Expr.literalValue? e = some w) rs right)
    (he : e.run c call fs s = .error halt t) :
    Expr.runArgs c call fs (ls ++ e :: rs) s = .error halt t := by
  have hwords : List.Forall₂ (Expr.HasWord c s) rs right := Expr.HasWord.of_literals hrs
  induction ls with
  | nil =>
      simp only [List.nil_append, Expr.runArgs, Bind.bind, EStateM.bind,
        Expr.runArgs_words hwords, he]
  | cons l rest ih => simp only [List.cons_append, Expr.runArgs, Bind.bind, EStateM.bind, ih]

/-- Instructions around an operand make of its value what they denote. -/
theorem run_ok (h : x.Inside frames e) {w w' : Word} (hx : x.run c call fs s = .ok [w] t)
    (hw : Surround.evaluateAll frames w = some w') : e.run c call fs s = .ok [w'] t := by
  induction h generalizing w' with
  | operand => rw [hx, Option.some.inj hw]
  | layer _ hls hrs ih =>
      rw [Surround.evaluateAll] at hw
      rcases Option.bind_eq_some_iff.mp hw with ⟨inner, hinner, hw⟩
      rw [Expr.run]
      exact Run.bind_ok (runArgs hls hrs (ih hinner)) (Run.instruction_evaluate hw)

/-- Instructions around an operand that halts halt with it. -/
theorem run_error (h : x.Inside frames e) {halt : Halt}
    (hx : x.run c call fs s = .error halt t) : e.run c call fs s = .error halt t := by
  induction h with
  | operand => exact hx
  | layer _ _ hrs ih => simp only [Expr.run, Bind.bind, EStateM.bind, runArgs_error hrs ih]

/-- The operand inside of an expression yields one value. -/
theorem operand_yields {d : Dialect} (h : x.Inside frames e) (he : e.Yields d v 1) :
    x.Yields d v 1 := by
  induction h with
  | operand => exact he
  | layer _ _ _ ih =>
      rw [Expr.Yields] at he
      have hargs := Expr.yieldOnes_append.mp he.2.2.2
      rw [Expr.YieldOnes] at hargs
      exact ih hargs.2.1

/-- Instructions around an operand yield one value. -/
theorem yields {d : Dialect} (h : x.Inside frames e) (hx : x.Yields d v 1) {w w' : Word}
    (hw : Surround.evaluateAll frames w = some w') : e.Yields d v 1 := by
  induction h generalizing w' with
  | operand => exact hx
  | layer _ hls hrs ih =>
      rw [Surround.evaluateAll] at hw
      rcases Option.bind_eq_some_iff.mp hw with ⟨inner, hinner, hw⟩
      rcases Instruction.evaluate_shape hw with ⟨hstack, hargs, hreturns⟩
      rw [Expr.Yields]
      refine ⟨hstack, ?_, hreturns.symm, Expr.yieldOnes_append.mpr
        ⟨Expr.yieldOnes_literals hls, ?_⟩⟩
      · rw [← hargs, List.length_append, List.length_append, List.length_cons, List.length_cons,
          hls.length_eq, hrs.length_eq]
      · rw [Expr.YieldOnes]
        exact ⟨ih hinner, Expr.yieldOnes_literals hrs⟩

/-- Layers around an operand can be exchanged for others that come to the same value. -/
theorem becomes {k : Known} {f : Surround} {rest frames' : List Surround} {e' : Expr}
    (h : x.Inside (f :: rest) e) (h' : x.Inside frames' e') (heq : ∀ w, ∃ w',
      Surround.evaluateAll (f :: rest) w = some w' ∧ Surround.evaluateAll frames' w = some w') :
    e.Becomes c k e' := by
  -- There is one frame at least, so that the expression yields one value.
  have hone : ∀ {v : Sight} {n : Nat}, e.Yields c.dialect v n → n = 1 := by
    intro v n hyields
    rcases heq 0 with ⟨_, hw, _⟩
    rcases Option.bind_eq_some_iff.mp hw with ⟨_, _, hw⟩
    cases h
    rw [Expr.Yields] at hyields
    rw [hyields.2.2.1, (Instruction.evaluate_shape hw).2.2]
  refine ⟨fun _ hyields => ?_, fun {call v n s} hcall hv hfit hyields henv _ => ?_⟩
  · obtain rfl := hone hyields
    rcases heq 0 with ⟨_, _, hw⟩
    exact h'.yields (h.operand_yields hyields) hw
  · obtain rfl := hone hyields
    have hx := Expr.run_sound hcall hv hfit (h.operand_yields hyields) henv
    -- The operand is evaluated once on each side, whether it halts or has a value.
    cases hrun : x.run c call v.functions s with
    | error halt t => rw [h.run_error hrun, h'.run_error hrun]
    | ok ws t =>
        rw [hrun] at hx
        match ws, hx.1 with
        | [w], _ =>
            rcases heq w with ⟨w', hw, hw'⟩
            rw [h.run_ok hrun hw, h'.run_ok hrun hw']

end Expr.Inside

end Layers

section Simplify

variable {c : RunContext} {k : Known}

/-- The first match is a rule of the list that matches. -/
theorem firstMatch_eq_some {e : Expr} {index index' : Nat} {rules : List Rule} {r : Rule}
    {bs : Bindings} (h : firstMatch e index rules = some (index', r, bs)) :
    r ∈ rules ∧ r.pattern.match? e [] = some bs := by
  induction rules generalizing index with
  | nil => exact absurd h (by rintro ⟨⟩)
  | cons first rest ih =>
      rw [firstMatch] at h
      split at h
      · rename_i hbs
        cases h
        exact ⟨List.mem_cons_self, hbs⟩
      · exact ⟨List.mem_cons_of_mem _ (ih h).1, (ih h).2⟩

/-- A rule that is found is one of the list and matches. -/
theorem Expr.findRule?_eq_some {e : Expr} {index : Nat} {r : Rule} {bs : Bindings}
    (h : e.findRule? = some (index, r, bs)) :
    r ∈ arithmeticRules ∧ r.pattern.match? e [] = some bs := by
  cases e with
  | instr line op args => exact firstMatch_eq_some h
  | _ => exact absurd h (by rintro ⟨⟩)

/-- A simplification is one rule that is found and built. -/
theorem Expr.simplifyStep?_eq_some {d : Dialect} {e e' : Expr}
    (h : e.simplifyStep? d = some e') : ∃ index r bs, e.findRule? = some (index, r, bs) ∧
      r.action.build? e bs = some e' ∧ (r.dropsOperand = true → e.movable d = true) := by
  rw [simplifyStep?] at h
  split at h
  · rename_i index r bs hfind
    split at h
    · exact absurd h (by rintro ⟨⟩)
    · rename_i hdrops
      refine ⟨index, r, bs, hfind, h, fun hr => ?_⟩
      simpa only [hr, Bool.true_and, Bool.not_eq_true', Bool.not_eq_false] using hdrops
  · exact absurd h (by rintro ⟨⟩)

/-- Literals are movable. -/
theorem Expr.movableAll_literals {d : Dialect} {es : List Expr} {ws : List Word}
    (h : List.Forall₂ (fun e w => Expr.literalValue? e = some w) es ws) :
    Expr.movableAll d es = true := by
  induction h with
  | nil => rfl
  | cons hfirst _ ih =>
      rcases literalValue?_eq hfirst with ⟨l, rfl, _⟩
      rw [movableAll, movable, Bool.true_and, ih]

/-- The arguments of a fold are literals, and the instruction is one that can be folded. -/
theorem Rule.folding_movable {d : Dialect} {i : Instruction} (hi : i ∈ foldable) {e e' : Expr}
    {bs : Bindings} (hmatch : (Rule.folding i).pattern.match? e [] = some bs)
    (hfold : e.fold? = some e') :
    e.movable d = true := by
  have hmovable : ∀ i ∈ foldable, i.movable = true := by decide
  rcases Pattern.match?_op hmatch with ⟨line, args, rfl, _⟩
  rcases Expr.fold?_eq_some hfold with ⟨_, _, _, values, _, heq, hvalues, _, _⟩
  cases heq
  rw [Expr.movable, hmovable i hi, Bool.true_and]
  exact Expr.movableAll_literals (Expr.literalValues hvalues)

/-- A rule may be applied wherever it is. -/
theorem Expr.simplifyStep?_becomes {e e' : Expr} (h : e.simplifyStep? c.dialect = some e') :
    e.Becomes c k e' := by
  rcases simplifyStep?_eq_some h with ⟨_, r, bs, hfind, hbuild, hdrops⟩
  rcases findRule?_eq_some hfind with ⟨hr, hmatch⟩
  rcases arithmeticRules_op r hr with ⟨i, ps, hop⟩
  have hsound := arithmeticRules_sound r hr
  -- A rule that drops operands is used on movable expressions only.
  by_cases hdrop : r.dropsOperand = true
  · exact hsound.becomes_movable hop hmatch hbuild (hdrops hdrop)
  rcases arithmeticRules_cases r hr (Bool.eq_false_iff.mpr hdrop) with
    ⟨i, hi, rfl⟩ | ⟨frames, frames', hpattern, haction⟩
  -- Folding has literals only, and they are movable.
  · exact hsound.becomes_movable hop hmatch hbuild (Rule.folding_movable hi hmatch hbuild)
  · rw [hpattern] at hmatch hop
    rcases Pattern.match?_around hmatch with ⟨x, rfl, hx⟩
    rw [haction] at hbuild
    have hx' := Action.build?_around hbuild
    cases frames with
    | nil => exact absurd hop (by rintro ⟨⟩)
    -- Otherwise one operand stays in its place, under other instructions.
    | cons f rest =>
        refine hx.becomes hx' fun w => ?_
        rcases hsound fun _ => w with ⟨w', hw, hw'⟩
        rw [hpattern, Pattern.denotes_around] at hw
        rw [haction, Action.denotes_around] at hw'
        exact ⟨w', hw, hw'⟩

/-- Runs allow simplifications. -/
theorem Licence.running_simplifies (c : RunContext) (U : String → Prop) (r : Liberty) :
    (Licence.running c U r).Simplifies where
  step _ h := Expr.simplifyStep?_becomes h
  texts {name args args'} k line hname hsame := by
    -- The arguments of a well-formed question about an object are literals.
    have hargs : ∀ {v : Sight} {n : Nat}, (Expr.call line name args).Yields c.dialect v n →
        args' = args := by
      intro v n hyields
      rw [Flow.takesLiterals] at hname
      simp only [Expr.Yields] at hyields
      cases hb : c.dialect.builtin? name with
      | none =>
          rw [hb] at hname
          exact absurd hname Bool.noConfusion
      | some b =>
          rw [hb, Option.any_some] at hname
          simp only [hb, hname, if_true] at hyields
          refine hsame fun e he => ?_
          have htext := hyields.2.2 e he
          cases e with
          | literal l => exact ⟨l, rfl⟩
          | _ => exact False.elim htext
    refine ⟨fun _ hyields => ?_, fun _ _ _ hyields _ _ => ?_⟩
    · rw [hargs hyields]
      exact hyields
    · rw [hargs hyields]

end Simplify

/-- Wherever an expression is well formed, what a letter of a match stands for has a value,
    and evaluating it has no effect. -/
def Bindings.Idle (d : Dialect) (e : Expr) (bs : Bindings) : Prop :=
  ∀ b ∈ bs, ∀ (limits : Limits) (metered : Bool) (v : Sight) (n : Nat) (s : RunState),
    e.Yields d v n → Environment.Holds v.vars s.env →
      ∃ w, b.2.HasWord ⟨d, limits, metered⟩ s w

/-- A simplification drops idle operands only. -/
theorem Expr.simplifyStep?_idle {d : Dialect} {e e' : Expr} (h : e.simplifyStep? d = some e') :
    ∃ index r bs, e.findRule? = some (index, r, bs) ∧ r ∈ arithmeticRules ∧
      r.action.build? e bs = some e' ∧ (r.dropsOperand = true → bs.Idle d e) := by
  rcases simplifyStep?_eq_some h with ⟨index, r, bs, hfind, hbuild, hdrops⟩
  rcases findRule?_eq_some hfind with ⟨hr, hmatch⟩
  refine ⟨index, r, bs, hfind, hr, hbuild, fun hdrop b hb limits metered v n s hyields henv => ?_⟩
  rcases arithmeticRules_op r hr with ⟨i, ps, hop⟩
  have hbound := (arithmeticRules_sound r hr).bound_movable (c := ⟨d, limits, metered⟩) hop hmatch
    (hdrops hdrop) hyields b hb
  exact movable_hasWord hbound.1 hbound.2 henv

/-- Simplifying leaves the result of every run as it is, whatever the budget. Every rule is
    an identity on words. A rule that is not marked keeps all operands, and one that is
    marked is only applied where the evaluation of operands has no effect and can not
    fail. -/
theorem simplify_exact {d : Dialect} (hd : d.flavour ≠ .loose) {source : String} {code : Block}
    {scopes : Scopes} (hread : Reads d source code) (haccept : analyze d code = .ok scopes)
    (hstay : code.initsStay = true) :
    (∀ (limits : Limits) (calldata : List UInt8),
      interpret d limits calldata (Pass.simplify d code) = interpret d limits calldata code) ∧
    (∀ r ∈ arithmeticRules, r.Sound ∧
      (r.dropsOperand = false → r.action.operands = r.pattern.operands)) ∧
    ∀ e e' : Expr, e.simplifyStep? d = some e' → ∃ index r bs,
      e.findRule? = some (index, r, bs) ∧ r ∈ arithmeticRules ∧
        r.action.build? e bs = some e' ∧ (r.dropsOperand = true → bs.Idle d e) := by
  have hfits := analyze_fits hd (hread.readable hd) hstay haccept
  refine ⟨fun limits calldata => ?_, fun r hr => ?_, fun e e' h => Expr.simplifyStep?_idle h⟩
  · exact (Pass.simplify_becomes (Licence.running_closed ⟨d, limits, true⟩ (fun _ => False) .exact)
      (Licence.running_simplifies ⟨d, limits, true⟩ (fun _ => False) .exact) code).interpret_eq
      hfits calldata
  · exact ⟨arithmeticRules_sound r hr, arithmeticRules_operands r hr⟩

/-- A program with an operand that is dropped, one that is kept although it has effects, and
    a constant that is folded. -/
theorem simplify_exact_with_effects :
    ∃ code scopes, parseBlock .strictAssembly
        "{ let x := calldatasize() sstore(mul(x, 0), add(mload(x), 0)) sstore(sub(5, 7), 1) }"
          = .ok code ∧
      analyze .strictAssembly code = .ok scopes ∧ code.initsStay = true ∧
      (Pass.simplify .strictAssembly code).print ≠ code.print ∧
      interpret .strictAssembly .standard [] (Pass.simplify .strictAssembly code)
        = interpret .strictAssembly .standard [] code := by
  refine exists_of_accepted? (fun code => code.initsStay &&
    decide ((Pass.simplify .strictAssembly code).print ≠ code.print)) (by decide +kernel)
    fun code scopes hread haccept htest => ?_
  rw [Bool.and_eq_true, decide_eq_true_eq] at htest
  exact ⟨htest.1, htest.2,
    (simplify_exact (by decide) (.inl hread) haccept htest.1).1 .standard []⟩

/-- The interpreter goes on behind a `break` in an initialisation without the variable that
    is declared there. It complains when it gets to an operand that is dropped. -/
theorem simplified_operand_is_not_missed :
    ∃ code scopes, parseBlock .strictAssembly
        "{ for {} 1 {} { for { break let x := 1 } mul(x, 0) {} {} } }" = .ok code ∧
      analyze .strictAssembly code = .ok scopes ∧
      interpret .strictAssembly ⟨100, 0x100000⟩ [] code = .error (.unknownVariable "x" 1) ∧
      ∃ r, interpret .strictAssembly ⟨100, 0x100000⟩ [] (Pass.simplify .strictAssembly code)
        = .ok r := by
  refine exists_of_accepted? (fun code =>
    decide ((interpret .strictAssembly ⟨100, 0x100000⟩ [] code).map (fun _ => ())
      = .error (.unknownVariable "x" 1)) &&
    (interpret .strictAssembly ⟨100, 0x100000⟩ [] (Pass.simplify .strictAssembly code)).toOption.any
      fun _ => true) (by decide +kernel) fun code scopes _ _ htest => ?_
  rw [Bool.and_eq_true, decide_eq_true_eq] at htest
  rcases exists_ok_of_any htest.2 with ⟨r, hr, -⟩
  exact ⟨eq_error_of_map htest.1, r, hr⟩

end YulToolchain
