import YulToolchain.Proofs.Flow.Order

/-!
# Replacing Expressions

When an expression may stand for another one, given what is known.

`Expr.Becomes` is the contract of everything that a pass does to an expression. It
has a static half and a dynamic one: the replacement is well formed wherever the
expression is, and wherever the known values hold it does exactly what the
expression does, faults and effects included. Both halves speak of one place, so
replacements can be chained (`Expr.Becomes.trans`) and made in all arguments of a
call (`Expr.Becomes.instr`, `Expr.Becomes.call`). Arguments are evaluated one after the
other and may change the machine on the way, but what is known of variables goes
on to hold.

## Main definitions

* `Expr.Becomes`: An expression may be replaced by another one.
* `Expr.Constant`: An expression is known to be a number.

## Theorems

* `Expr.Becomes.trans`, `Expr.Becomes.instr`, `Expr.Becomes.call`: Composition.
* `Known.constant?_means`: Following known values to a number.
-/

namespace YulToolchain

/-- An expression may be replaced by another one, given what is known. -/
structure Expr.Becomes (c : RunContext) (k : Known) (e e' : Expr) : Prop where
  yields : ∀ {v : Sight} {n : Nat}, k.Fits c.dialect v → e.Yields c.dialect v n →
    e'.Yields c.dialect v n
  run : ∀ {call : Caller} {v : Sight} {n : Nat} {s : RunState}, call.Sound c.dialect →
    v.Distinct → v.functions.Fit c.dialect → e.Yields c.dialect v n →
    Environment.Holds v.vars s.env → k.Valid c v s →
      e'.run c call v.functions s = e.run c call v.functions s

/-- An expression is known to be a number. -/
def Expr.Constant (c : RunContext) (k : Known) (e : Expr) (w : Word) : Prop :=
  e.movable c.dialect = true ∧ ∀ {v : Sight} {s : RunState}, e.Yields c.dialect v 1 →
    Environment.Holds v.vars s.env → k.Valid c v s →
    ∀ (call : Caller) (fs : FunctionScopes), e.run c call fs s = .ok [w] s

/-- Two sequences do the same if their first parts do, and the rest does wherever the first part
    gets. -/
theorem Run.bind_congr {α β : Type} {m m' : Run α} {f f' : α → Run β} {s : RunState}
    (hm : m' s = m s) (hf : ∀ a t, m s = .ok a t → f' a t = f a t) :
    (m' >>= f') s = (m >>= f) s := by
  simp only [Bind.bind, EStateM.bind, hm]
  cases hr : m s with
  | ok a t => exact hf a t hr
  | error halt t => rfl

namespace Expr.Becomes

variable {c : RunContext} {k k' : Known} {e e' e'' : Expr}

theorem refl (e : Expr) : e.Becomes c k e := ⟨fun _ h => h, fun _ _ _ _ _ _ => rfl⟩

/-- Rewriting in two steps. -/
theorem trans (h : e.Becomes c k e') (h' : e'.Becomes c k e'') : e.Becomes c k e'' := by
  refine ⟨fun hk hyields => h'.yields hk (h.yields hk hyields), ?_⟩
  intro call v n s hcall hv hfit hyields henv hk
  have hyields' := h.yields (hk.fits henv) hyields
  rw [h'.run hcall hv hfit hyields' henv hk, h.run hcall hv hfit hyields henv hk]

theorem mono (h : e.Becomes c k e') (hsub : k.Sub k') : e.Becomes c k' e' :=
  ⟨fun hk => h.yields (hk.sub hsub),
    fun hcall hv hfit hyields henv hk => h.run hcall hv hfit hyields henv (hk.sub hsub)⟩

/-- Rewritten arguments yield one value each. -/
theorem yieldOnes {v : Sight} (hk : k.Fits c.dialect v) {es es' : List Expr}
    (h : List.Forall₂ (Expr.Becomes c k) es es') (hes : Expr.YieldOnes c.dialect v es) :
    Expr.YieldOnes c.dialect v es' := by
  induction h with
  | nil => exact hes
  | cons hfirst _ ih =>
      rw [Expr.YieldOnes] at hes ⊢
      exact ⟨hfirst.yields hk hes.1, ih hes.2⟩

/-- Rewritten arguments evaluate to the same. -/
theorem runArgs {call : Caller} {v : Sight} (hcall : call.Sound c.dialect) (hv : v.Distinct)
    (hfit : v.functions.Fit c.dialect) {es es' : List Expr} {s : RunState}
    (h : List.Forall₂ (Expr.Becomes c k) es es') (hes : Expr.YieldOnes c.dialect v es)
    (henv : Environment.Holds v.vars s.env) (hk : k.Valid c v s) :
    Expr.runArgs c call v.functions es' s = Expr.runArgs c call v.functions es s := by
  induction h with
  | nil => rfl
  | @cons e e' rest rest' hfirst _ ih =>
      rw [Expr.YieldOnes] at hes
      rw [Expr.runArgs, Expr.runArgs]
      refine Run.bind_congr (ih hes.2) fun values t ht => ?_
      have hst := Expr.runArgs_sound hcall hv hfit hes.2 henv
      rw [ht] at hst
      have henv' := hst.2.holds henv
      refine Run.bind_congr (hfirst.run hcall hv hfit hes.1 henv' (hk.steady henv hst.2))
        fun ones u hu => ?_
      -- There is a single value, so the line of the expression is of no interest.
      have hone := Expr.run_sound hcall hv hfit hes.1 henv'
      rw [hu] at hone
      match ones, hone.1 with
      | [_], _ => rfl

/-- An instruction may have its arguments rewritten. -/
theorem instr {line : Nat} {op : Instruction} {args args' : List Expr}
    (h : List.Forall₂ (Expr.Becomes c k) args args') :
    (Expr.instr line op args).Becomes c k (.instr line op args') := by
  refine ⟨fun hk hyields => ?_, ?_⟩
  · rw [Expr.Yields] at hyields ⊢
    exact ⟨hyields.1, h.length_eq ▸ hyields.2.1, hyields.2.2.1, yieldOnes hk h hyields.2.2.2⟩
  · intro call v n s hcall hv hfit hyields henv hk
    rw [Expr.Yields] at hyields
    rw [Expr.run, Expr.run]
    exact Run.bind_congr (runArgs hcall hv hfit h hyields.2.2.2 henv hk) fun _ _ _ => rfl

/-- A call may have its arguments rewritten, unless they are literal. -/
theorem call {line : Nat} {name : String} {args args' : List Expr}
    (hname : Flow.takesLiterals c.dialect name = false)
    (h : List.Forall₂ (Expr.Becomes c k) args args') :
    (Expr.call line name args).Becomes c k (.call line name args') := by
  rw [Flow.takesLiterals] at hname
  -- It still yields as many values.
  refine ⟨fun {v n} hk hyields => ?_, ?_⟩
  · simp only [Expr.Yields] at hyields ⊢
    cases hb : c.dialect.builtin? name with
    | none =>
        simp only [hb] at hyields ⊢
        rcases hyields with ⟨f, hf, hlength, hn, hargs⟩
        exact ⟨f, hf, h.length_eq ▸ hlength, hn, yieldOnes hk h hargs⟩
    | some b =>
        have hlit : b.literalArguments = false := by simpa only [hb, Option.any_some] using hname
        simp only [hb, hlit, Bool.false_eq_true, if_false] at hyields ⊢
        exact ⟨h.length_eq ▸ hyields.1, hyields.2.1, yieldOnes hk h hyields.2.2⟩
  -- And it runs the same.
  · intro call v n s hcall hv hfit hyields henv hk
    simp only [Expr.Yields] at hyields
    simp only [Expr.run]
    cases hb : c.dialect.builtin? name with
    | none =>
        simp only [hb] at hyields ⊢
        rcases hyields with ⟨f, hf, hlength, hn, hargs⟩
        simp only [hf]
        exact Run.bind_congr (runArgs hcall hv hfit h hargs henv hk) fun _ _ _ => rfl
    | some b =>
        have hlit : b.literalArguments = false := by simpa only [hb, Option.any_some] using hname
        simp only [hb, hlit, Bool.false_eq_true, if_false] at hyields ⊢
        have hargs := runArgs hcall hv hfit h hyields.2.2 henv hk
        rcases Dialect.builtin?_cases hb with ⟨b', hproper, rfl | rfl⟩
        · rcases hproper with ⟨op, _, rfl⟩ | rfl | rfl | rfl
          · exact Run.bind_congr hargs fun _ _ _ => rfl
          · exact absurd hlit Bool.noConfusion
          · exact absurd hlit Bool.noConfusion
          · exact Run.bind_congr hargs fun _ _ _ => rfl
        · rfl

end Expr.Becomes

/-- Following known values from variable to variable leads to a number only if that
    is the value. -/
theorem Known.constantWithin_means {c : RunContext} {k : Known} {w : Word} :
    ∀ {steps : Nat} {e : Expr}, k.constantWithin steps e = some w → e.Constant c k w
  | steps, .literal l, h => by
      have hw : l.value.toOption = some w := by
        cases steps <;> exact h
      refine ⟨rfl, fun _ _ _ call fs => ?_⟩
      cases hl : l.value with
      | error why =>
          rw [hl] at hw
          exact absurd hw (by rintro ⟨⟩)
      | ok w' =>
          rw [hl] at hw
          obtain rfl := Option.some.inj hw
          exact Expr.run_literal hl
  | 0, .ident _ _, h => absurd h (by rintro ⟨⟩)
  | steps + 1, .ident _ x, h => by
      rw [constantWithin] at h
      rcases Option.bind_eq_some_iff.mp h with ⟨e, hvalue, he⟩
      refine ⟨rfl, fun {v s} _ henv hk call fs => ?_⟩
      -- The value that is known is equal to the variable here, and has the constant by induction.
      have hhas := hk x e (mem_of_value? hvalue)
      rcases hhas.equal with ⟨w', hw', hrun⟩
      have hconstant := (constantWithin_means he).2 hhas.yields henv hk call fs
      rw [hrun call fs] at hconstant
      obtain ⟨rfl, -⟩ := List.cons.inj (EStateM.Result.ok.inj hconstant).1
      exact Expr.run_ident hw'
  | 0, .instr _ _ _, h => absurd h (by rintro ⟨⟩)
  | _ + 1, .instr _ _ _, h => absurd h (by rintro ⟨⟩)
  | 0, .call _ _ _, h => absurd h (by rintro ⟨⟩)
  | _ + 1, .call _ _ _, h => absurd h (by rintro ⟨⟩)

theorem Known.constant?_means {c : RunContext} {k : Known} {e : Expr} {w : Word}
    (h : k.constant? e = some w) : e.Constant c k w := constantWithin_means h

end YulToolchain
