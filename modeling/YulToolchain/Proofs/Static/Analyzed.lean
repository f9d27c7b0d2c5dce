import YulToolchain.Proofs.Static.Readable
import YulToolchain.Proofs.Static.Scopes
import YulToolchain.Proofs.Syntax.Evaluation

/-!
# Analysed Code

The analysis accepts exactly the code that fits.

The analysis walks over code once and threads the numbered scopes through. Next
to it runs the sight of each place, which the scopes show before and after every
step. Each check of the analysis is a condition on the sight, and `Checks` states
both directions at once: a check succeeds exactly if its condition holds.

For code that was read, all that is missing from `Fits` is that no loop is left
from its own initialisation (`Block.initsStay`).

## Main definitions

* `Checks`: A check succeeds exactly if a condition holds.
* `Analyzed`: What is known of the scopes after a piece of code.

## Theorems

* `Expr.valueCount_checks`: Expressions.
* `Block.analyze_checks`, `Stmt.analyze_checks`: Statements.
* `Block.Fits.readable`, `Block.Fits.initsStay`: Code that fits is readable, and
  its loops are not left from their initialisations.
* `analyze_fits`: Code that is read and accepted fits.
* `analyze_of_fits`: Code that fits is accepted.
* `exists_of_accepted?`: What a source that is accepted gives.
-/

namespace YulToolchain

/-- A check succeeds exactly if a condition holds, and then its result has a
    property. -/
def Checks {α : Type} (r : Except AnalysisError α) (condition : Prop) (P : α → Prop) : Prop :=
  match r with
  | .ok a => condition ∧ P a
  | .error _ => ¬ condition

namespace Checks

variable {α β : Type} {c k : Prop} {P : α → Prop} {Q : β → Prop}

theorem ok {a : α} (hc : c) (h : P a) : Checks (.ok a) c P := ⟨hc, h⟩

theorem error {e : AnalysisError} (hc : ¬ c) : Checks (.error e) c P := hc

/-- A condition may be replaced by an equivalent one. -/
theorem iff {r : Except AnalysisError α} (h : Checks r c P) (hc : c ↔ k) : Checks r k P := by
  rcases r with e | a
  · exact fun hc' => h (hc.mpr hc')
  · exact ⟨hc.mp h.1, h.2⟩

/-- What is known of the result may be weakened. -/
theorem mono {P' : α → Prop} {r : Except AnalysisError α} (h : Checks r c P)
    (hP : ∀ a, c → P a → P' a) : Checks r c P' := by
  rcases r with e | a
  · exact h
  · exact ⟨h.1, hP a h.1 h.2⟩

/-- Steps behind each other ask for both their conditions. -/
theorem bind {r : Except AnalysisError α} {f : α → Except AnalysisError β} (h : Checks r c P)
    (hf : ∀ a, c → P a → Checks (f a) k Q) : Checks (r >>= f) (c ∧ k) Q := by
  rcases r with e | a
  · exact fun hc => h hc.1
  · have := hf a h.1 h.2
    show Checks (f a) (c ∧ k) Q
    exact this.iff ⟨fun hc' => ⟨h.1, hc'⟩, fun hc => hc.2⟩

/-- A check that breaks off if something is wrong. -/
theorem guard {p : Prop} [Decidable p] {fail rest : Except AnalysisError β} {e : AnalysisError}
    (hfail : fail = .error e) (hrest : ¬ p → Checks rest k Q) :
    Checks (if p then fail else rest) (¬ p ∧ k) Q := by
  by_cases hp : p
  · rw [if_pos hp, hfail]
    exact fun hc => hc.1 hp
  · rw [if_neg hp]
    exact (hrest hp).iff ⟨fun hc => ⟨hp, hc⟩, fun hc => hc.2⟩

end Checks

section Expressions

variable {d : Dialect} {ss : Scopes} {scope : Nat} {v : Sight}

/-- The literal check asks for string literals, nothing else. -/
theorem Expr.checkLiterals_checks : ∀ {args : List Expr}, Expr.ReadableAll args →
    Checks (Expr.checkLiterals args) (∀ e ∈ args, e.Textual) fun _ => True
  | [], _ => by
      simp only [Expr.checkLiterals]
      exact Checks.ok (fun e he => absurd he (List.not_mem_nil)) trivial
  | .literal l :: rest, h => by
      simp only [Expr.ReadableAll, Expr.Readable] at h
      simp only [Expr.checkLiterals]
      split
      -- A literal that is a string: the rest decides.
      · rename_i hk
        refine (Expr.checkLiterals_checks h.2).iff ?_
        simp only [List.forall_mem_cons, Expr.Textual, hk, h.1 hk, true_and]
      -- One of another kind fails, and no condition on the others can hold.
      · rename_i hk
        refine Checks.error (fun hall => hk ?_)
        have := hall (.literal l) List.mem_cons_self
        simp only [Expr.Textual] at this
        exact this.1
  | .ident _ _ :: _, _ => fun hall => hall (.ident _ _) List.mem_cons_self
  | .instr _ _ _ :: _, _ => fun hall => hall (.instr _ _ _) List.mem_cons_self
  | .call _ _ _ :: _, _ => fun hall => hall (.call _ _ _) List.mem_cons_self

/-- An expression that is well formed has one number of values. -/
theorem Expr.Yields.unique {e : Expr} {n m : Nat} (h : e.Yields d v n) (h' : e.Yields d v m) :
    n = m := by
  cases e with
  | call line name args =>
      simp only [Expr.Yields] at h h'
      rcases hb : d.builtin? name with _ | b
      · simp only [hb] at h h'
        rcases h with ⟨f, hf, _, rfl, _⟩
        rcases h' with ⟨f', hf', _, rfl, _⟩
        rw [Option.some.inj (hf.symm.trans hf')]
      · simp only [hb] at h h'
        rw [h.2.1, h'.2.1]
  | _ =>
      simp only [Expr.Yields] at h h'
      omega

/-- A check that an expression has a number of values, after its values were
    counted. -/
theorem Checks.expect {r : Except AnalysisError Nat} {e : Expr} {n : Nat}
    {fault : Nat → AnalysisError}
    (h : Checks r (∃ m, e.Yields d v m) fun m => e.Yields d v m) :
    Checks (r >>= fun count => if count ≠ n then throw (fault count) else pure ())
      (e.Yields d v n) fun _ => True := by
  refine (h.bind (k := e.Yields d v n) (Q := fun _ => True) fun m _ hm => ?_).iff
    ⟨fun hc => hc.2, fun hn => ⟨⟨n, hn⟩, hn⟩⟩
  by_cases hmn : m = n
  · subst hmn
    rw [if_neg (not_not.mpr rfl)]
    exact Checks.ok hm trivial
  · rw [if_pos hmn]
    exact Checks.error fun hn => hmn (hm.unique hn)

/-- A check whose result is known to be a number. -/
theorem Checks.count {r : Except AnalysisError Nat} {c : Prop} {n : Nat} {e : Expr}
    (h : Checks r c (· = n)) (he : ∀ m, e.Yields d v m ↔ c ∧ m = n) :
    Checks r (∃ m, e.Yields d v m) fun m => e.Yields d v m := by
  refine (h.iff ⟨fun hc => ⟨n, (he n).mpr ⟨hc, rfl⟩⟩, ?_⟩).mono ?_
  · rintro ⟨m, hm⟩
    exact ((he m).mp hm).1
  · rintro m ⟨m', hm'⟩ rfl
    exact (he m).mpr ⟨((he m').mp hm').1, rfl⟩

mutual

/-- The analysis counts the values of an expression. -/
theorem Expr.valueCount_checks (h : Shows ss scope v) : ∀ (e : Expr), e.Readable →
    Checks (e.valueCount d ss scope) (∃ n, e.Yields d v n) fun n => e.Yields d v n
  | .literal l, _ => by
      rw [Expr.valueCount]
      -- A literal without a value is refused and yields nothing.
      rcases hl : l.value with why | w
      · refine Checks.error ?_
        rintro ⟨n, hn⟩
        simp only [Expr.Yields, hl, reduceCtorEq, exists_false, false_and] at hn
      · have : (Expr.literal l).Yields d v 1 := by
          rw [Expr.Yields]
          exact ⟨⟨w, hl⟩, rfl⟩
        exact Checks.ok ⟨1, this⟩ this
  | .ident line x, _ => by
      -- Whatever is not a variable of the analysis is none of the sight.
      have hnot : (∀ decl type, ss.lookup scope x ≠ some (decl, .var type)) →
          ¬ ∃ n, (Expr.ident line x).Yields d v n := by
        rintro hno ⟨n, hn⟩
        rw [Expr.Yields] at hn
        rcases h.seen x hn.1 with ⟨decl, type, hs⟩
        exact hno decl type hs
      rw [Expr.valueCount]
      rcases hl : ss.lookup scope x with _ | ⟨decl, symbol⟩
      · exact Checks.error (hnot fun _ _ hs => absurd (hl.symm.trans hs) (by rintro ⟨⟩))
      · have hstands := h.found x decl symbol hl
        cases symbol with
        | var type =>
            have : (Expr.ident line x).Yields d v 1 := by
              rw [Expr.Yields]
              exact ⟨hstands, rfl⟩
            exact Checks.ok ⟨1, this⟩ this
        -- Without labels in the sight, none is found.
        | label => exact False.elim hstands
        | function params returns =>
            exact Checks.error (hnot fun _ _ hs => absurd (hl.symm.trans hs) (by rintro ⟨⟩))
  | .instr line op args, hr => by
      rw [Expr.Readable] at hr
      have hargs := Expr.checkArgs_checks h args hr.2
      rw [Expr.valueCount]
      refine Checks.count (n := op.returns) (Checks.guard rfl fun _ =>
        hargs.bind fun _ _ _ => Checks.ok trivial rfl) (fun m => ?_)
      rw [Expr.Yields, hr.1]
      tauto
  | .call line name args, hr => by
      rw [Expr.Readable] at hr
      have hargs := Expr.checkArgs_checks h args hr
      rw [Expr.valueCount]
      -- The builtins of the dialect come before the functions in sight.
      rcases hb : d.builtin? name with _ | b
      -- A callee that is no function for the analysis is none of the sight.
      · have hnot : (∀ decl params returns,
            ss.lookup scope name ≠ some (decl, .function params returns)) →
            ¬ ∃ n, (Expr.call line name args).Yields d v n := by
          rintro hno ⟨n, hn⟩
          simp only [Expr.Yields, hb] at hn
          rcases hn with ⟨f, hf, _⟩
          rcases h.called name f hf with ⟨decl, hs⟩
          exact hno decl _ _ hs
        rcases hl : ss.lookup scope name with _ | ⟨decl, symbol⟩
        · exact Checks.error (hnot fun _ _ _ hs => absurd (hl.symm.trans hs) (by rintro ⟨⟩))
        · have hstands := h.found name decl symbol hl
          cases symbol with
          | var type =>
              exact Checks.error (hnot fun _ _ _ hs => absurd (hl.symm.trans hs) (by rintro ⟨⟩))
          | label => exact False.elim hstands
          -- The definition in sight has as many parameters and returns as the symbol.
          | function params returns =>
              rcases hstands with ⟨f, hf, rfl, rfl⟩
              refine Checks.count (n := f.returns.length) (Checks.guard rfl fun _ =>
                hargs.bind fun _ _ _ => Checks.ok trivial (by rw [List.length_map]))
                (fun m => ?_)
              simp only [Expr.Yields, hb, hf, Option.some.injEq, List.length_map]
              constructor
              · rintro ⟨g, rfl, hlen, hm, hones⟩
                exact ⟨⟨not_not.mpr hlen, hones, trivial⟩, hm⟩
              · rintro ⟨⟨hlen, hones, _⟩, hm⟩
                exact ⟨f, rfl, not_not.mp hlen, hm, hones⟩
      · have hlits := Expr.checkLiterals_checks hr
        simp only
        split
        · rename_i hlit
          refine Checks.count (n := b.returns) (Checks.guard rfl fun _ =>
            hlits.bind fun _ _ _ => Checks.ok trivial rfl) (fun m => ?_)
          simp only [Expr.Yields, hb, hlit, if_true]
          tauto
        · rename_i hlit
          refine Checks.count (n := b.returns) (Checks.guard rfl fun _ =>
            hargs.bind fun _ _ _ => Checks.ok trivial rfl) (fun m => ?_)
          simp only [Expr.Yields, hb, hlit]
          tauto

/-- The analysis checks that all arguments have one value. -/
theorem Expr.checkArgs_checks (h : Shows ss scope v) :
    ∀ (args : List Expr), Expr.ReadableAll args →
      Checks (Expr.checkArgs d ss scope args) (Expr.YieldOnes d v args) fun _ => True
  | [], _ => by
      rw [Expr.checkArgs, Expr.YieldOnes]
      exact Checks.ok trivial trivial
  | e :: rest, hr => by
      rw [Expr.ReadableAll] at hr
      rw [Expr.checkArgs, Expr.YieldOnes]
      refine ((Expr.checkArgs_checks h rest hr.2).bind fun _ _ _ =>
        (Expr.valueCount_checks h e hr.1).expect).iff And.comm

end

end Expressions

/-- What is known of the scopes after a piece of code that opens a number of
    scopes: what they show at the place, and that the rest is as before. -/
structure Analyzed (scope : Nat) (v : Sight) (count : Nat) (ss ss' : Scopes) : Prop where
  shows : Shows ss' scope v
  kept : Scopes.Extends scope ss ss'
  grows : Scopes.Grows ss ss'
  size : ss'.toArray.size = ss.toArray.size + count

namespace Analyzed

variable {scope n m : Nat} {v v' : Sight} {a b c : Scopes}

theorem refl (h : Shows a scope v) : Analyzed scope v 0 a a :=
  ⟨h, .refl _ _, .refl _, rfl⟩

theorem trans (hab : Analyzed scope v n a b) (hbc : Analyzed scope v' m b c) :
    Analyzed scope v' (n + m) a c :=
  ⟨hbc.shows, hab.kept.trans hbc.kept, hab.grows.trans hbc.grows, by
    rw [hbc.size, hab.size, Nat.add_assoc]⟩

/-- Code inside a new scope leaves the place around it as it was. -/
theorem leave {isFunction : Bool} (h : Shows a scope v)
    (hin : Analyzed a.toArray.size v' n (a.push (some scope) isFunction).2 b) :
    Analyzed scope v (n + 1) a b := by
  have hparent : ∀ p, some scope = some p → p < a.toArray.size :=
    fun p hp => Option.some.inj hp ▸ h.opened
  have hsame : ∀ i < a.toArray.size, b.get? i = a.get? i := by
    intro i hi
    rw [hin.kept.same i (by rw [Scopes.size_push]; omega) (by omega), Scopes.get?_push_old hi]
  have hsize : b.toArray.size = a.toArray.size + (n + 1) := by
    rw [hin.size, Scopes.size_push]
    omega
  have hopened := h.opened
  refine ⟨?_, ⟨by omega, fun i hi _ => hsame i hi⟩, ?_, hsize⟩
  · exact h.congr hin.shows.ordered (by omega) (fun i hi => hsame i (by omega))
  · exact (Scopes.grows_push h.ordered hparent).trans hin.grows

end Analyzed

section Declarations

variable {d : Dialect} {ss : Scopes} {scope : Nat} {v : Sight}

/-- Declaring one name and then others is declaring them all. -/
theorem Sight.free_cons {v' : Sight} {x : String} {xs : List String}
    (h : ∀ y, y ∈ v'.taken ↔ y = x ∨ y ∈ v.taken) :
    v.Free d (x :: xs) ↔ v.Free d [x] ∧ v'.Free d xs := by
  simp only [Free, List.nodup_cons, List.forall_mem_cons, List.not_mem_nil, not_false_eq_true,
    List.nodup_nil, true_and, false_implies, implies_true, and_true, h, not_or]
  constructor
  · rintro ⟨⟨hx, hnodup⟩, hfirst, hrest⟩
    refine ⟨hfirst, hnodup, fun y hy => ?_⟩
    exact ⟨(hrest y hy).1, (hrest y hy).2.1, fun hyx => hx (hyx ▸ hy), (hrest y hy).2.2⟩
  · rintro ⟨hfirst, hnodup, hrest⟩
    refine ⟨⟨fun hx => (hrest x hx).2.2.1 rfl, hnodup⟩, hfirst, fun y hy => ?_⟩
    exact ⟨(hrest y hy).1, (hrest y hy).2.1, (hrest y hy).2.2.2⟩

theorem Sight.free_congr {v' : Sight} {xs : List String} (h : ∀ y, y ∈ v'.taken ↔ y ∈ v.taken) :
    v'.Free d xs ↔ v.Free d xs := by
  simp only [Free, h]

@[simp]
theorem Sight.declare_nil (v : Sight) : v.declare [] = v := by
  rcases v with ⟨functions, _ | ⟨s, outer⟩, hidden⟩
  · rfl
  · simp only [declare, List.append_nil]

/-- Declarations add up. -/
theorem Sight.declare_declare (v : Sight) (xs ys : List String) :
    (v.declare xs).declare ys = v.declare (xs ++ ys) := by
  rcases v with ⟨functions, _ | ⟨s, outer⟩, hidden⟩
  · rfl
  · simp only [declare, List.append_assoc]

/-- Declared names are taken from then on. -/
theorem Sight.mem_taken_declare (h : v.vars ≠ []) {xs : List String} {y : String} :
    y ∈ (v.declare xs).taken ↔ y ∈ xs ∨ y ∈ v.taken := by
  rcases v with ⟨functions, _ | ⟨s, outer⟩, hidden⟩
  · exact absurd rfl h
  · simp only [declare, taken, functionNames, visible, List.flatten_cons, List.mem_append]
    tauto

theorem Sight.after_eq (v : Sight) (s : Stmt) : v.after s = v.declare s.declaresVars := by
  cases s with
  | decl line vars value => rfl
  | _ => exact v.declare_nil.symm

theorem Sight.afterSeq_eq (v : Sight) (stmts : List Stmt) :
    v.afterSeq stmts = v.declare (Stmt.declaredSeq stmts) := by
  induction stmts generalizing v with
  | nil => exact v.declare_nil.symm
  | cons s rest ih =>
      rw [Sight.afterSeq_cons, ih, Sight.after_eq, Sight.declare_declare]
      rfl

/-- A name can be declared exactly if it is free. -/
theorem Analysis.declare_checks {line : Nat} {name : String} {symbol : Symbol}
    (h : Shows ss scope v) :
    Checks (Analysis.declare d scope line name symbol ss) (v.Free d [name]) fun ss' =>
      ss.register? scope name symbol = some ss' := by
  -- The three reasons for which a name is not free.
  have hfree : v.Free d [name] ↔ d.reserved name = false ∧ name ≠ "" ∧ name ∉ v.taken := by
    simp only [Sight.Free, List.nodup_singleton, List.mem_singleton, forall_eq, true_and]
  rw [Analysis.declare]
  split
  · rename_i hres
    exact Checks.error fun hc => absurd ((hfree.mp hc).1.symm.trans hres) Bool.false_ne_true
  · rename_i hres
    split
    · rename_i htaken
      refine Checks.error fun hc => ?_
      -- A name is refused for being empty or for being taken.
      rcases Bool.or_eq_true_iff.mp htaken with he | ht
      · exact (hfree.mp hc).2.1 (String.isEmpty_iff.mp he)
      · exact (hfree.mp hc).2.2 ((h.taken name).mp ht)
    · rename_i htaken
      simp only [Bool.or_eq_true, not_or, Bool.not_eq_true] at htaken hres
      have hname : name ∉ v.taken := fun hx =>
        absurd ((h.taken name).mpr hx) (by rw [htaken.2]; exact Bool.false_ne_true)
      have hne : name ≠ "" := by
        rintro rfl
        exact absurd htaken.1 (by decide)
      -- The name is not in the scope, so registering it succeeds.
      rcases Scopes.get?_isSome h.opened with ⟨s, hs⟩
      have hfind : s.find? name = none := by
        have := htaken.2
        rw [Scopes.taken_eq h.ordered hs, Bool.or_eq_false_iff] at this
        exact Option.not_isSome_iff_eq_none.mp (by rw [this.1]; exact Bool.false_ne_true)
      have hreg : ∃ ss', ss.register? scope name symbol = some ss' := by
        simp only [Scopes.register?, hs, hfind, Option.isSome_none, Bool.false_eq_true, if_false]
        exact ⟨_, rfl⟩
      rcases hreg with ⟨ss', hss'⟩
      rw [hss']
      exact Checks.ok (hfree.mpr ⟨hres, hne, hname⟩) rfl

/-- What is known of the scopes after a declaration. -/
theorem Analyzed.register {name : String} {symbol : Symbol} {v' : Sight} {ss' : Scopes}
    (h : Shows ss scope v) (hfree : v.Free d [name])
    (hreg : ss.register? scope name symbol = some ss') (h' : Shows ss' scope v') :
    Analyzed scope v' 0 ss ss' := by
  rcases Scopes.get?_isSome h.opened with ⟨s, hs⟩
  have htaken : ss.taken scope name = false := by
    rw [← Bool.not_eq_true, h.taken]
    exact (hfree.2 name List.mem_cons_self).2.2
  exact ⟨h', Scopes.extends_register hs hreg, Scopes.grows_register h.ordered hs hreg htaken,
    Scopes.size_register hreg⟩

/-- Variables can be declared exactly if their names are free. -/
theorem Analysis.declareVariables_checks : ∀ (vars : List TypedName) {ss : Scopes} {v : Sight},
    Shows ss scope v → Checks (Analysis.declareVariables d scope vars ss)
      (v.Free d (vars.map (·.name))) (Analyzed scope (v.declare (vars.map (·.name))) 0 ss)
  | [], ss, v, h => by
      simp only [Analysis.declareVariables, List.foldlM_nil, List.map_nil, Sight.declare_nil]
      exact Checks.ok (Sight.free_nil d v) (.refl h)
  | x :: rest, ss, v, h => by
      simp only [Analysis.declareVariables, List.foldlM_cons, List.map_cons]
      have htaken : ∀ y, y ∈ (v.declare [x.name]).taken ↔ y = x.name ∨ y ∈ v.taken := by
        intro y
        rw [Sight.mem_taken_declare h.vars_ne, List.mem_singleton]
      refine ((Analysis.declare_checks h).bind fun ss' hfree hreg => ?_).iff
        (Sight.free_cons htaken).symm
      have h' := h.register_var (hfree.2 _ List.mem_cons_self).2.2 hreg
      refine (Analysis.declareVariables_checks rest h').mono fun ss'' _ hrest => ?_
      have := (Analyzed.register h hfree hreg h').trans hrest
      rwa [Sight.declare_declare, List.singleton_append] at this

/-- The functions of a block can be declared exactly if their names are free. -/
theorem Analysis.hoist_checks : ∀ (stmts : List Stmt) {ss : Scopes} {v : Sight}
    {fs : List FunctionDef} {outer : FunctionScopes}, Stmt.ReadableSeq stmts →
    Shows ss scope v → v.functions = fs :: outer →
      Checks (Analysis.hoist d scope stmts ss)
        (v.Free d ((stmts.filterMap Stmt.function?).map (·.name)))
        (Analyzed scope
          { v with functions := (fs ++ stmts.filterMap Stmt.function?) :: outer } 0 ss)
  | [], ss, v, fs, outer, _, h, hfs => by
      simp only [Analysis.hoist, List.foldlM_nil, List.filterMap_nil, List.map_nil,
        List.append_nil, ← hfs]
      exact Checks.ok (Sight.free_nil d v) (.refl h)
  | s :: rest, ss, v, fs, outer, hr, h, hfs => by
      rw [Stmt.ReadableSeq] at hr
      -- Functions are all there is to hoist, as readable code has no labels.
      cases s with
      | func line name params returns body =>
          simp only [Analysis.hoist, List.foldlM_cons, Analysis.hoistOne, List.filterMap_cons,
            Stmt.function?, List.map_cons]
          -- One more function takes one more name.
          have htaken : ∀ y, y ∈ ({ v with functions :=
              (fs ++ [⟨line, name, params, returns, body⟩]) :: outer } : Sight).taken
                ↔ y = name ∨ y ∈ v.taken := by
            intro y
            simp only [Sight.taken, Sight.functionNames, Sight.visible, hfs, List.flatten_cons,
              List.map_append, List.map_cons, List.map_nil, List.mem_append, List.mem_singleton]
            tauto
          refine ((Analysis.declare_checks h).bind fun ss' hfree hreg => ?_).iff
            (Sight.free_cons htaken).symm
          have h' := h.register_function (f := ⟨line, name, params, returns, body⟩) hfs
            (hfree.2 _ List.mem_cons_self).2.2 hreg
          -- The functions hoisted so far are in front of those of the rest.
          refine (Analysis.hoist_checks rest hr.2 h' rfl).mono fun ss'' _ hrest => ?_
          have := (Analyzed.register h hfree hreg h').trans hrest
          simpa only [List.append_assoc, List.singleton_append, Nat.add_zero] using this
      | label line name => exact False.elim (by simpa only [Stmt.Readable] using hr.1)
      | _ => exact Analysis.hoist_checks rest hr.2 h hfs

end Declarations

mutual

/-- Whether a place is inside a loop does not matter to a block that leaves none. -/
theorem Block.analyze_leaves {d : Dialect} {parent : Option Nat} (inLoop inLoop' : Bool) :
    ∀ (b : Block) (ss : Scopes), b.leaves = false →
      b.analyze d parent inLoop ss = b.analyze d parent inLoop' ss
  | ⟨_, stmts⟩, ss, h => by
      rw [Block.leaves] at h
      simp only [Block.analyze]
      congr 1
      funext ss'
      exact Stmt.analyzeSeq_leaves inLoop inLoop' stmts ss' h

/-- A sequence without a jump out of it is analyzed alike in and outside of loops. -/
theorem Stmt.analyzeSeq_leaves {d : Dialect} {scope : Nat} (inLoop inLoop' : Bool) :
    ∀ (stmts : List Stmt) (ss : Scopes), Stmt.leavesSeq stmts = false →
      Stmt.analyzeSeq d scope inLoop stmts ss = Stmt.analyzeSeq d scope inLoop' stmts ss
  | [], ss, _ => by simp only [Stmt.analyzeSeq]
  | s :: rest, ss, h => by
      rw [Stmt.leavesSeq, Bool.or_eq_false_iff] at h
      simp only [Stmt.analyzeSeq]
      rw [Stmt.analyze_leaves inLoop inLoop' s ss h.1]
      congr 1
      funext ss'
      exact Stmt.analyzeSeq_leaves inLoop inLoop' rest ss' h.2

/-- Whether a loop is around matters to break and continue only. -/
theorem Stmt.analyze_leaves {d : Dialect} {scope : Nat} (inLoop inLoop' : Bool) :
    ∀ (s : Stmt) (ss : Scopes), s.leaves = false →
      s.analyze d scope inLoop ss = s.analyze d scope inLoop' ss
  | .expr _ _, _, _ => by simp only [Stmt.analyze]
  | .assign _ _ _, _, _ => by simp only [Stmt.analyze]
  | .decl _ _ none, _, _ => by simp only [Stmt.analyze]
  | .decl _ _ (some _), _, _ => by simp only [Stmt.analyze]
  | .func _ _ _ _ _, _, _ => by simp only [Stmt.analyze]
  | .cond _ _ body, ss, h => by
      rw [Stmt.leaves] at h
      simp only [Stmt.analyze, Block.analyze_leaves inLoop inLoop' body ss h]
  | .switch _ _ cases, ss, h => by
      rw [Stmt.leaves] at h
      simp only [Stmt.analyze, Case.analyzeSeq_leaves inLoop inLoop' cases _ ss h]
  | .loop _ ⟨_, pre⟩ _ _ _, _, h => by
      rw [Stmt.leaves, Bool.or_eq_false_iff] at h
      simp only [Stmt.analyze]
      congr 1
      -- Only the init block asks for the loop around, and it does not leave either.
      funext ss'
      rw [Stmt.analyzeSeq_leaves inLoop inLoop' pre ss' h.1]
  | .brk _, _, h => by rw [Stmt.leaves] at h; exact absurd h Bool.true_eq_false.mp
  | .cont _, _, h => by rw [Stmt.leaves] at h; exact absurd h Bool.true_eq_false.mp
  | .block b, ss, h => by
      rw [Stmt.leaves] at h
      simp only [Stmt.analyze, Block.analyze_leaves inLoop inLoop' b ss h]
  | .label _ _, _, _ => by simp only [Stmt.analyze]
  | .stackAssign _ _, _, _ => by simp only [Stmt.analyze]

/-- Cases without a jump out of them are analyzed alike in and outside of loops. -/
theorem Case.analyzeSeq_leaves {d : Dialect} {scope : Nat} (inLoop inLoop' : Bool) :
    ∀ (cases : List Case) (seen : List Word) (ss : Scopes), Case.leavesSeq cases = false →
      Case.analyzeSeq d scope inLoop seen cases ss = Case.analyzeSeq d scope inLoop' seen cases ss
  | [], _, _, _ => by simp only [Case.analyzeSeq]
  | ⟨_, none, body⟩ :: rest, seen, ss, h => by
      rw [Case.leavesSeq, Bool.or_eq_false_iff] at h
      simp only [Case.analyzeSeq, Block.analyze_leaves inLoop inLoop' body ss h.1]
      congr 1
      funext ss'
      exact Case.analyzeSeq_leaves inLoop inLoop' rest seen ss' h.2
  | ⟨_, some _, body⟩ :: rest, seen, ss, h => by
      rw [Case.leavesSeq, Bool.or_eq_false_iff] at h
      simp only [Case.analyzeSeq, Block.analyze_leaves inLoop inLoop' body ss h.1]
      congr 1
      funext w
      congr 1
      funext ss'
      exact Case.analyzeSeq_leaves inLoop inLoop' rest _ ss' h.2

end

section Statements

variable {d : Dialect}

theorem Analysis.expectValues_checks {ss : Scopes} {scope : Nat} {v : Sight} {e : Expr} {n : Nat}
    (h : Shows ss scope v) (hr : e.Readable) :
    Checks (Analysis.expectValues d ss scope e n) (e.Yields d v n) fun _ => True :=
  (Expr.valueCount_checks h e hr).expect

/-- Targets pass if all of them are visible variables. -/
theorem Analysis.expectVariables_checks {ss : Scopes} {scope : Nat} {v : Sight}
    (h : Shows ss scope v) : ∀ (targets : List Identifier),
      Checks (targets.forM (Analysis.expectVariable ss scope)) (∀ t ∈ targets, t.name ∈ v.visible)
        fun _ => True
  | [] => by
      simp only [List.forM_eq_forM, List.forM_nil]
      exact Checks.ok (fun t ht => absurd ht (List.not_mem_nil)) trivial
  | t :: rest => by
      have hone : Checks (Analysis.expectVariable ss scope t) (t.name ∈ v.visible)
          fun _ => True := by
        -- What is found as something else, or not at all, is not visible.
        have hnot : (∀ decl type, ss.lookup scope t.name ≠ some (decl, .var type)) →
            t.name ∉ v.visible := by
          intro hno hx
          rcases h.seen t.name hx with ⟨decl, type, hs⟩
          exact hno decl type hs
        rw [Analysis.expectVariable]
        rcases hl : ss.lookup scope t.name with _ | ⟨decl, symbol⟩
        · exact Checks.error (hnot fun _ _ hs => absurd (hl.symm.trans hs) (by rintro ⟨⟩))
        · have hstands := h.found t.name decl symbol hl
          cases symbol with
          | var type => exact Checks.ok hstands trivial
          | label => exact False.elim hstands
          | function params returns =>
              exact Checks.error (hnot fun _ _ hs => absurd (hl.symm.trans hs) (by rintro ⟨⟩))
      have hrest := Analysis.expectVariables_checks h rest
      simp only [List.forM_eq_forM, List.forM_cons, List.forall_mem_cons] at hrest ⊢
      exact hone.bind fun _ _ _ => hrest

theorem Analysis.caseValue_checks {line : Nat} {seen : List Word} {l : Literal} :
    Checks (Analysis.caseValue line seen l) (∃ w, l.value = .ok w ∧ w ∉ seen)
      fun w => l.value = .ok w ∧ w ∉ seen := by
  rw [Analysis.caseValue]
  rcases hl : l.value with why | w
  · exact Checks.error (by rintro ⟨w, hw, _⟩; exact absurd hw (by rintro ⟨⟩))
  · by_cases hseen : w ∈ seen
    · simp only [List.contains_eq_mem, hseen, decide_true, if_true]
      refine Checks.error ?_
      rintro ⟨w', hw', hns⟩
      exact hns (Except.ok.inj hw' ▸ hseen)
    · simp only [List.contains_eq_mem, hseen, decide_false, Bool.false_eq_true, if_false]
      exact Checks.ok ⟨w, rfl, hseen⟩ ⟨rfl, hseen⟩

mutual

/-- A block is accepted if it fits where it stands. -/
theorem Block.analyze_checks (hd : d.flavour ≠ .loose) (inLoop : Bool) :
    ∀ (b : Block) {ss : Scopes} {scope : Nat}
    {v : Sight}, b.Readable → b.initsStay = true → Shows ss scope v →
      Checks (b.analyze d (some scope) inLoop ss) (b.Fits d v inLoop)
        (Analyzed scope v b.scopeCount ss)
  | ⟨line, stmts⟩, ss, scope, v, hr, hstay, h => by
      rw [Block.Readable] at hr
      rw [Block.initsStay, Block.allStmts] at hstay
      rw [Block.analyze, Block.Fits, Block.scopeCount]
      have := (Analysis.hoist_checks (d := d) stmts hr h.push_block rfl).bind fun ss' _ h' =>
        (Stmt.analyzeSeq_checks hd inLoop stmts hr hstay h'.shows).mono fun ss'' _ h'' =>
          h'.trans h''
      refine (this.mono fun ss' _ h' => ?_).iff ?_
      · have := Analyzed.leave h h'
        rwa [Nat.zero_add, Nat.add_comm] at this
      · exact Iff.rfl

/-- The analysis accepts exactly the statements that fit. -/
theorem Stmt.analyzeSeq_checks (hd : d.flavour ≠ .loose) (inLoop : Bool) :
    ∀ (stmts : List Stmt) {ss : Scopes} {scope : Nat}
    {v : Sight}, Stmt.ReadableSeq stmts →
      (Stmt.allStmtsSeq stmts).all Stmt.initStays = true → Shows ss scope v →
      Checks (Stmt.analyzeSeq d scope inLoop stmts ss) (Stmt.FitsSeq d v inLoop stmts)
        (Analyzed scope (v.afterSeq stmts) (Stmt.scopeCountSeq stmts) ss)
  | [], ss, scope, v, _, _, h => by
      rw [Stmt.analyzeSeq, Stmt.FitsSeq, Stmt.scopeCountSeq]
      exact Checks.ok trivial (.refl h)
  | s :: rest, ss, scope, v, hr, hstay, h => by
      rw [Stmt.ReadableSeq] at hr
      rw [Stmt.allStmtsSeq, List.all_cons, List.all_append, Bool.and_eq_true,
        Bool.and_eq_true] at hstay
      rw [Stmt.analyzeSeq, Stmt.FitsSeq, Stmt.scopeCountSeq]
      exact (Stmt.analyze_checks hd inLoop s hr.1 hstay.1 hstay.2.1 h).bind fun ss' _ h' =>
        (Stmt.analyzeSeq_checks hd inLoop rest hr.2 hstay.2.2 h'.shows).mono fun ss'' _ h'' =>
          h'.trans h''

/-- A statement is accepted if it fits where it stands. -/
theorem Stmt.analyze_checks (hd : d.flavour ≠ .loose) (inLoop : Bool) :
    ∀ (s : Stmt) {ss : Scopes} {scope : Nat}
    {v : Sight}, s.Readable → s.initStays = true → s.allInner.all Stmt.initStays = true →
      Shows ss scope v →
      Checks (s.analyze d scope inLoop ss) (s.Fits d v inLoop)
        (Analyzed scope (v.after s) s.scopeCount ss)
  | .expr line e, ss, scope, v, hr, _, _, h => by
      rw [Stmt.Readable] at hr
      rw [Stmt.analyze, Stmt.Fits]
      -- No count but zero lets an expression stand alone.
      refine ((Expr.valueCount_checks h e hr).bind (k := e.Yields d v 0) fun n _ hn => ?_).iff
        ⟨fun hc => hc.2, fun hz => ⟨⟨0, hz⟩, hz⟩⟩
      by_cases hz : n = 0
      · subst hz
        rw [if_neg fun hc => hc.1 rfl]
        exact Checks.ok hn (.refl h)
      -- Only the loose dialect may leave values behind.
      · rw [if_pos ⟨hz, hd⟩]
        exact Checks.error fun h0 => hz (hn.unique h0)
  | .assign line targets value, ss, scope, v, hr, _, _, h => by
      rw [Stmt.Readable] at hr
      rw [Stmt.analyze, Stmt.Fits]
      exact (Analysis.expectValues_checks h hr).bind fun _ _ _ =>
        ((Analysis.expectVariables_checks h targets).bind fun _ _ _ =>
          Checks.ok trivial (.refl h)).iff (and_iff_left trivial)
  | .decl line vars none, ss, scope, v, hr, _, _, h => by
      rw [Stmt.analyze, Stmt.Fits]
      -- There is no value to check in front of the names.
      exact (Analysis.declareVariables_checks vars h).iff
        ⟨fun hc => ⟨fun e he => absurd he (by rintro ⟨⟩), hc⟩, fun hc => hc.2⟩
  | .decl line vars (some value), ss, scope, v, hr, _, _, h => by
      rw [Stmt.Readable] at hr
      rw [Stmt.analyze, Stmt.Fits]
      refine ((Analysis.expectValues_checks h (hr value rfl)).bind fun _ _ _ =>
        Analysis.declareVariables_checks vars h).iff (and_congr_left' ?_)
      exact ⟨fun hc e he => Option.some.inj he ▸ hc, fun hc => hc value rfl⟩
  | .func line name params returns body, ss, scope, v, hr, _, hstay, h => by
      rw [Stmt.Readable] at hr
      rw [Stmt.allInner] at hstay
      rw [Stmt.analyze, Stmt.Fits, Stmt.scopeCount]
      -- Inside of a function the variables around it are hidden, but their names stay taken.
      have htaken : ∀ y, y ∈ (⟨v.functions, [[]], v.visible ++ v.hidden⟩ : Sight).taken
          ↔ y ∈ v.taken := by
        intro y
        simp only [Sight.taken, Sight.functionNames, Sight.visible, List.flatten_cons,
          List.flatten_nil, List.append_nil, List.mem_append]
        tauto
      have := (Analysis.declareVariables_checks (d := d) (params ++ returns) h.push_function).bind
        fun ss' _ h' => (Block.analyze_checks hd false body hr hstay h'.shows).mono
          fun ss'' _ h'' => h'.trans h''
      -- The scope of the function is left behind with all that it declares.
      refine (this.mono fun ss' _ h' => ?_).iff (and_congr (Sight.free_congr htaken) Iff.rfl)
      have := Analyzed.leave h h'
      rwa [Nat.zero_add, Nat.add_comm] at this
  | .cond line test body, ss, scope, v, hr, _, hstay, h => by
      rw [Stmt.Readable] at hr
      rw [Stmt.allInner] at hstay
      rw [Stmt.analyze, Stmt.Fits]
      exact (Analysis.expectValues_checks h hr.1).bind fun _ _ _ =>
        Block.analyze_checks hd inLoop body hr.2 hstay h
  | .switch line subject cases, ss, scope, v, hr, _, hstay, h => by
      rw [Stmt.Readable] at hr
      rw [Stmt.allInner] at hstay
      rw [Stmt.analyze, Stmt.Fits]
      exact (Analysis.expectValues_checks h hr.1).bind fun _ _ _ =>
        Case.analyzeSeq_checks hd inLoop cases [] hr.2 hstay h
  | .loop line ⟨preLine, pre⟩ test post body, ss, scope, v, hr, hinit, hstay, h => by
      rw [Stmt.Readable] at hr
      rw [Stmt.allInner, Block.allStmts, List.all_append, List.all_append, Bool.and_eq_true,
        Bool.and_eq_true] at hstay
      rw [Stmt.initStays, Block.leaves, Bool.not_eq_eq_eq_not, Bool.not_true] at hinit
      rw [Stmt.analyze, Stmt.Fits, Stmt.scopeCount, Block.scopeCount]
      -- Nothing leaves a loop from here, so the analysis may as well be outside of loops.
      simp only [Stmt.analyzeSeq_leaves inLoop false pre _ hinit]
      -- The steps of a loop, each in the scopes that the ones before it leave.
      have hall := (Analysis.hoist_checks (d := d) pre hr.1 h.push_block rfl).bind fun ss₁ _ h₁ =>
        (Stmt.analyzeSeq_checks hd false pre hr.1 hstay.1.1 h₁.shows).bind
          fun ss₂ _ h₂ =>
            (Analysis.expectValues_checks (d := d) (n := 1) h₂.shows hr.2.1).bind fun _ _ _ =>
            (Block.analyze_checks hd true body hr.2.2.2 hstay.1.2 h₂.shows).bind
              fun ss₃ _ h₃ =>
                (Block.analyze_checks hd false post hr.2.2.1 hstay.2 h₃.shows).mono
                  fun ss₄ _ h₄ => (h₁.trans h₂).trans (h₃.trans h₄)
      refine hall.mono fun ss' _ h' => ?_
      -- The scopes that were opened are counted once each.
      have hcount : 1 + Stmt.scopeCountSeq pre + body.scopeCount + post.scopeCount
          = 0 + Stmt.scopeCountSeq pre + (body.scopeCount + post.scopeCount) + 1 := by omega
      rw [hcount]
      exact Analyzed.leave h h'
  | .brk line, ss, scope, v, _, _, _, h => by
      rw [Stmt.analyze, Stmt.Fits]
      cases inLoop with
      | false => exact Checks.error Bool.false_ne_true
      | true => exact Checks.ok rfl (.refl h)
  | .cont line, ss, scope, v, _, _, _, h => by
      rw [Stmt.analyze, Stmt.Fits]
      cases inLoop with
      | false => exact Checks.error Bool.false_ne_true
      | true => exact Checks.ok rfl (.refl h)
  | .block b, ss, scope, v, hr, _, hstay, h => by
      rw [Stmt.Readable] at hr
      rw [Stmt.allInner] at hstay
      rw [Stmt.analyze, Stmt.Fits]
      exact Block.analyze_checks hd inLoop b hr hstay h
  | .label _ _, _, _, _, hr, _, _, _ => by
      rw [Stmt.Readable] at hr
      exact False.elim hr
  | .stackAssign _ _, _, _, _, hr, _, _, _ => by
      rw [Stmt.Readable] at hr
      exact False.elim hr

/-- Cases are accepted if they fit one after the other. -/
theorem Case.analyzeSeq_checks (hd : d.flavour ≠ .loose) (inLoop : Bool) :
    ∀ (cases : List Case) (seen : List Word)
    {ss : Scopes} {scope : Nat} {v : Sight}, Case.ReadableSeq cases →
      (Case.allStmtsSeq cases).all Stmt.initStays = true → Shows ss scope v →
      Checks (Case.analyzeSeq d scope inLoop seen cases ss) (Case.FitsSeq d v inLoop seen cases)
        (Analyzed scope v (Case.scopeCountSeq cases) ss)
  | [], seen, ss, scope, v, _, _, h => by
      rw [Case.analyzeSeq, Case.FitsSeq, Case.scopeCountSeq]
      exact Checks.ok trivial (.refl h)
  | ⟨_, none, body⟩ :: rest, seen, ss, scope, v, hr, hstay, h => by
      rw [Case.ReadableSeq] at hr
      rw [Case.allStmtsSeq, List.all_append, Bool.and_eq_true] at hstay
      obtain rfl := hr.2
      rw [Case.analyzeSeq, Case.FitsSeq, Case.scopeCountSeq, Case.scopeCountSeq]
      refine ((Block.analyze_checks hd inLoop body hr.1 hstay.1 h).bind fun ss' _ h' => ?_)
      rw [Case.analyzeSeq]
      exact Checks.ok rfl h'
  | ⟨_, some l, body⟩ :: rest, seen, ss, scope, v, hr, hstay, h => by
      rw [Case.ReadableSeq] at hr
      rw [Case.allStmtsSeq, List.all_append, Bool.and_eq_true] at hstay
      rw [Case.analyzeSeq, Case.FitsSeq, Case.scopeCountSeq]
      -- The literal of a case needs a value that no case before it has.
      rcases hl : l.value with why | w
      · simp only [Analysis.caseValue, hl]
        refine Checks.error ?_
        rintro ⟨w, hw, _⟩
        exact absurd hw (by rintro ⟨⟩)
      · refine (Analysis.caseValue_checks.bind (k := w ∉ seen ∧ body.Fits d v inLoop ∧
          Case.FitsSeq d v inLoop (seen ++ [w]) rest) fun w' _ hw' => ?_).iff ?_
        -- Both sides speak of the one value the literal has.
        · obtain rfl : w = w' := Except.ok.inj (hl.symm.trans hw'.1)
          refine ((Block.analyze_checks hd inLoop body hr.1 hstay.1 h).bind fun ss' _ h' =>
            (Case.analyzeSeq_checks hd inLoop rest (seen ++ [w]) hr.2 hstay.2 h'.shows).mono
              fun ss'' _ h'' => h'.trans h'').iff (and_iff_right hw'.2).symm
        · simp only [hl, Except.ok.injEq, exists_eq_left']
          tauto

end

end Statements

theorem Expr.ReadableAll.of_textual : ∀ {es : List Expr}, (∀ e ∈ es, e.Textual) →
    Expr.ReadableAll es
  | [], _ => by rw [Expr.ReadableAll]; trivial
  | e :: rest, h => by
      rw [Expr.ReadableAll]
      refine ⟨?_, Expr.ReadableAll.of_textual fun e' he' => h e' (List.mem_cons_of_mem _ he')⟩
      have := h e List.mem_cons_self
      cases e with
      | literal l =>
          rw [Expr.Readable]
          exact fun _ => this.2
      | _ => exact False.elim this

mutual

/-- Expressions that are well formed can be read. -/
theorem Expr.Yields.readable {d : Dialect} {v : Sight} :
    ∀ {e : Expr} {n : Nat}, e.Yields d v n → e.Readable
  | .literal l, n, h => by
      rw [Expr.Yields] at h
      rw [Expr.Readable]
      -- A string literal with a value has bytes.
      intro hk
      rcases h.1 with ⟨w, hw⟩
      simp only [Literal.value, hk] at hw
      rcases hb : l.stringBytes with why | bytes
      · rw [hb] at hw
        exact absurd hw (by rintro ⟨⟩)
      · exact ⟨bytes, rfl⟩
  | .ident _ _, _, _ => by rw [Expr.Readable]; trivial
  | .instr _ op args, n, h => by
      rw [Expr.Yields] at h
      rw [Expr.Readable]
      exact ⟨h.1, Expr.YieldOnes.readable h.2.2.2⟩
  | .call _ name args, n, h => by
      rw [Expr.Readable]
      simp only [Expr.Yields] at h
      rcases hb : d.builtin? name with _ | b
      · simp only [hb] at h
        rcases h with ⟨_, _, _, _, hargs⟩
        exact Expr.YieldOnes.readable hargs
      · simp only [hb] at h
        rcases h with ⟨_, _, hargs⟩
        split at hargs
        · exact Expr.ReadableAll.of_textual hargs
        · exact Expr.YieldOnes.readable hargs

theorem Expr.YieldOnes.readable {d : Dialect} {v : Sight} :
    ∀ {es : List Expr}, Expr.YieldOnes d v es → Expr.ReadableAll es
  | [], _ => by rw [Expr.ReadableAll]; trivial
  | e :: rest, h => by
      rw [Expr.YieldOnes] at h
      rw [Expr.ReadableAll]
      exact ⟨Expr.Yields.readable h.1, Expr.YieldOnes.readable h.2⟩

end

mutual

/-- Code that fits can be read. -/
theorem Block.Fits.readable {d : Dialect} :
    ∀ {b : Block} {v : Sight} {inLoop : Bool}, b.Fits d v inLoop → b.Readable
  | ⟨_, stmts⟩, v, inLoop, h => by
      rw [Block.Fits] at h
      rw [Block.Readable]
      exact Stmt.FitsSeq.readable h.2

/-- Fitting statements are readable. -/
theorem Stmt.FitsSeq.readable {d : Dialect} :
    ∀ {stmts : List Stmt} {v : Sight} {inLoop : Bool}, Stmt.FitsSeq d v inLoop stmts →
      Stmt.ReadableSeq stmts
  | [], _, _, _ => by rw [Stmt.ReadableSeq]; trivial
  | s :: rest, v, inLoop, h => by
      rw [Stmt.FitsSeq] at h
      rw [Stmt.ReadableSeq]
      exact ⟨Stmt.Fits.readable h.1, Stmt.FitsSeq.readable h.2⟩

/-- A statement that fits is readable. -/
theorem Stmt.Fits.readable {d : Dialect} :
    ∀ {s : Stmt} {v : Sight} {inLoop : Bool}, s.Fits d v inLoop → s.Readable
  | .expr _ e, v, inLoop, h => by
      rw [Stmt.Fits] at h
      rw [Stmt.Readable]
      exact h.readable
  | .assign _ _ value, v, inLoop, h => by
      rw [Stmt.Fits] at h
      rw [Stmt.Readable]
      exact h.1.readable
  | .decl _ _ value, v, inLoop, h => by
      rw [Stmt.Fits] at h
      rw [Stmt.Readable]
      exact fun e he => (h.1 e he).readable
  | .func _ _ _ _ body, v, inLoop, h => by
      rw [Stmt.Fits] at h
      rw [Stmt.Readable]
      exact Block.Fits.readable h.2
  | .cond _ test body, v, inLoop, h => by
      rw [Stmt.Fits] at h
      rw [Stmt.Readable]
      exact ⟨h.1.readable, Block.Fits.readable h.2⟩
  | .switch _ subject cases, v, inLoop, h => by
      rw [Stmt.Fits] at h
      rw [Stmt.Readable]
      exact ⟨h.1.readable, Case.FitsSeq.readable h.2⟩
  | .loop _ ⟨_, pre⟩ test post body, v, inLoop, h => by
      rw [Stmt.Fits] at h
      rw [Stmt.Readable]
      exact ⟨Stmt.FitsSeq.readable h.2.1, h.2.2.1.readable, Block.Fits.readable h.2.2.2.2,
        Block.Fits.readable h.2.2.2.1⟩
  | .brk _, _, _, _ => by rw [Stmt.Readable]; trivial
  | .cont _, _, _, _ => by rw [Stmt.Readable]; trivial
  | .block b, v, inLoop, h => by
      rw [Stmt.Fits] at h
      rw [Stmt.Readable]
      exact Block.Fits.readable h
  | .label _ _, _, _, h => by rw [Stmt.Fits] at h; exact False.elim h
  | .stackAssign _ _, _, _, h => by rw [Stmt.Fits] at h; exact False.elim h

theorem Case.FitsSeq.readable {d : Dialect} :
    ∀ {cases : List Case} {v : Sight} {inLoop : Bool} {seen : List Word},
      Case.FitsSeq d v inLoop seen cases → Case.ReadableSeq cases
  | [], _, _, _, _ => by rw [Case.ReadableSeq]; trivial
  | ⟨_, none, body⟩ :: rest, v, inLoop, seen, h => by
      rw [Case.FitsSeq] at h
      rw [Case.ReadableSeq]
      exact ⟨Block.Fits.readable h.1, h.2⟩
  | ⟨_, some l, body⟩ :: rest, v, inLoop, seen, h => by
      rw [Case.FitsSeq] at h
      rw [Case.ReadableSeq]
      rcases h with ⟨w, _, _, hbody, hrest⟩
      exact ⟨Block.Fits.readable hbody, Case.FitsSeq.readable hrest⟩

end

mutual

/-- Code that fits outside of loops leaves none, and neither do the
    initialisations of the loops in it. -/
theorem Block.Fits.stays {d : Dialect} : ∀ {b : Block} {v : Sight} {inLoop : Bool},
    b.Fits d v inLoop → (inLoop = false → b.leaves = false) ∧ b.initsStay = true
  | ⟨_, stmts⟩, v, inLoop, h => by
      rw [Block.Fits] at h
      rw [Block.leaves, Block.initsStay, Block.allStmts]
      exact Stmt.FitsSeq.stays h.2

/-- Outside of loops fitting statements do not leave. -/
theorem Stmt.FitsSeq.stays {d : Dialect} : ∀ {stmts : List Stmt} {v : Sight} {inLoop : Bool},
    Stmt.FitsSeq d v inLoop stmts → (inLoop = false → Stmt.leavesSeq stmts = false) ∧
      (Stmt.allStmtsSeq stmts).all Stmt.initStays = true
  | [], _, _, _ => by
      rw [Stmt.leavesSeq, Stmt.allStmtsSeq]
      exact ⟨fun _ => rfl, rfl⟩
  | s :: rest, v, inLoop, h => by
      rw [Stmt.FitsSeq] at h
      have hs := Stmt.Fits.stays h.1
      have hrest := Stmt.FitsSeq.stays h.2
      rw [Stmt.leavesSeq, Stmt.allStmtsSeq]
      simp only [List.all_cons, List.all_append, Bool.and_eq_true, Bool.or_eq_false_iff]
      exact ⟨fun hl => ⟨hs.1 hl, hrest.1 hl⟩, hs.2.1, hs.2.2, hrest.2⟩

/-- A statement that fits leaves only from inside of a loop. -/
theorem Stmt.Fits.stays {d : Dialect} : ∀ {s : Stmt} {v : Sight} {inLoop : Bool},
    s.Fits d v inLoop → (inLoop = false → s.leaves = false) ∧ s.initStays = true ∧
      s.allInner.all Stmt.initStays = true
  | .func _ _ _ _ body, v, inLoop, h => by
      rw [Stmt.Fits] at h
      rw [Stmt.leaves, Stmt.allInner, Stmt.initStays]
      -- The body of a function is outside of any loop.
      · exact ⟨fun _ => (Block.Fits.stays h.2).1 rfl, rfl, (Block.Fits.stays h.2).2⟩
      · exact fun _ _ _ _ _ hc => by cases hc
  | .cond _ test body, v, inLoop, h => by
      rw [Stmt.Fits] at h
      exact ⟨(Block.Fits.stays h.2).1, rfl, (Block.Fits.stays h.2).2⟩
  | .switch _ subject cases, v, inLoop, h => by
      rw [Stmt.Fits] at h
      exact ⟨(Case.FitsSeq.stays h.2).1, rfl, (Case.FitsSeq.stays h.2).2⟩
  | .loop _ ⟨_, pre⟩ test post body, v, inLoop, h => by
      rw [Stmt.Fits] at h
      -- Init and post are not inside of the loop, so nothing leaves through them.
      rcases h with ⟨_, hpre, _, hbody, hpost⟩
      have hpre := Stmt.FitsSeq.stays hpre
      have hbody := Block.Fits.stays hbody
      have hpost := Block.Fits.stays hpost
      rw [Stmt.leaves, Stmt.allInner, Stmt.initStays, Block.leaves, Block.allStmts, hpre.1 rfl,
        hpost.1 rfl]
      simp only [List.all_append, Bool.and_eq_true]
      exact ⟨fun _ => rfl, rfl, ⟨hpre.2, hbody.2⟩, hpost.2⟩
  | .block b, v, inLoop, h => by
      rw [Stmt.Fits] at h
      exact ⟨(Block.Fits.stays h).1, rfl, (Block.Fits.stays h).2⟩
  -- A break fits in a loop only.
  | .brk _, _, inLoop, h => by
      rw [Stmt.Fits] at h
      exact ⟨fun hl => absurd (h.symm.trans hl) Bool.noConfusion, rfl, rfl⟩
  | .cont _, _, inLoop, h => by
      rw [Stmt.Fits] at h
      exact ⟨fun hl => absurd (h.symm.trans hl) Bool.noConfusion, rfl, rfl⟩
  | .expr _ _, _, _, _ => ⟨fun _ => rfl, rfl, rfl⟩
  | .assign _ _ _, _, _, _ => ⟨fun _ => rfl, rfl, rfl⟩
  | .decl _ _ _, _, _, _ => ⟨fun _ => rfl, rfl, rfl⟩
  | .label _ _, _, _, _ => ⟨fun _ => rfl, rfl, rfl⟩
  | .stackAssign _ _, _, _, _ => ⟨fun _ => rfl, rfl, rfl⟩

/-- Fitting cases leave only from inside of a loop. -/
theorem Case.FitsSeq.stays {d : Dialect} : ∀ {cases : List Case} {v : Sight} {inLoop : Bool}
    {seen : List Word}, Case.FitsSeq d v inLoop seen cases →
      (inLoop = false → Case.leavesSeq cases = false) ∧
      (Case.allStmtsSeq cases).all Stmt.initStays = true
  | [], _, _, _, _ => by
      rw [Case.leavesSeq, Case.allStmtsSeq]
      exact ⟨fun _ => rfl, rfl⟩
  | ⟨_, none, body⟩ :: rest, v, inLoop, seen, h => by
      rw [Case.FitsSeq] at h
      obtain rfl := h.2
      have hbody := Block.Fits.stays h.1
      simp only [Case.leavesSeq, Case.allStmtsSeq, List.append_nil, Bool.or_false]
      exact hbody
  | ⟨_, some l, body⟩ :: rest, v, inLoop, seen, h => by
      rw [Case.FitsSeq] at h
      rcases h with ⟨w, _, _, hbody, hrest⟩
      have hbody := Block.Fits.stays hbody
      have hrest := Case.FitsSeq.stays hrest
      rw [Case.leavesSeq, Case.allStmtsSeq]
      simp only [List.all_append, Bool.and_eq_true, Bool.or_eq_false_iff]
      exact ⟨fun hl => ⟨hbody.1 hl, hrest.1 hl⟩, hbody.2, hrest.2⟩

end

/-- The analysis of a program. -/
theorem analyze_checks {d : Dialect} (hd : d.flavour ≠ .loose) {code : Block}
    (hr : code.Readable) (hstay : code.initsStay = true) :
    Checks (analyze d code) (code.Fits d .empty false) fun ss =>
      ss.toArray.size = code.scopeCount ∧
        Scopes.Grows (Scopes.empty.push none false).2 ss := by
  rcases code with ⟨line, stmts⟩
  rw [Block.Readable] at hr
  rw [Block.initsStay, Block.allStmts] at hstay
  rw [analyze, Block.analyze, Block.Fits, Block.scopeCount]
  have hall := (Analysis.hoist_checks (d := d) stmts hr Shows.push_root rfl).bind
    fun ss₁ _ h₁ => (Stmt.analyzeSeq_checks hd false stmts hr hstay h₁.shows).mono
      fun ss₂ _ h₂ => h₁.trans h₂
  refine hall.mono fun ss _ h => ⟨?_, h.grows⟩
  rw [h.size, Scopes.size_push]
  show 0 + 1 + (0 + Stmt.scopeCountSeq stmts) = 1 + Stmt.scopeCountSeq stmts
  omega

/-- Code that is read and accepted fits, unless a loop is left from its own
    initialisation. -/
theorem analyze_fits {d : Dialect} (hd : d.flavour ≠ .loose) {code : Block}
    (hr : code.Readable) (hstay : code.initsStay = true) {ss : Scopes}
    (h : analyze d code = .ok ss) : code.Fits d .empty false := by
  have := analyze_checks hd hr hstay
  rw [h] at this
  exact this.1

/-- Code that fits is accepted. -/
theorem analyze_of_fits {d : Dialect} (hd : d.flavour ≠ .loose) {code : Block}
    (h : code.Fits d .empty false) : ∃ ss, analyze d code = .ok ss := by
  have := analyze_checks hd h.readable h.stays.2
  rcases hss : analyze d code with e | ss
  · rw [hss] at this
    exact absurd h this
  · exact ⟨ss, rfl⟩

/-- A source whose code is accepted and passes a test, from which something
    follows. -/
theorem exists_of_accepted? {d : Dialect} {source : String} {P : Block → Scopes → Prop}
    (test : Block → Bool)
    (h : ((Block.ofTokens d (tokensOfBytes source)).toOption.any fun code =>
      (analyze d code).isOk && test code) = true)
    (hP : ∀ code scopes, parseBlock d source = .ok code → analyze d code = .ok scopes →
      test code = true → P code scopes) :
    ∃ code scopes, parseBlock d source = .ok code ∧ analyze d code = .ok scopes ∧
      P code scopes := by
  -- The test is run on the one code that the source reads as.
  have hscopes : ∀ code, parseBlock d source = .ok code →
      ((analyze d code).isOk && test code) = true →
      ∃ scopes, analyze d code = .ok scopes ∧ P code scopes := by
    intro code hread htest
    rw [Bool.and_eq_true] at htest
    rcases haccept : analyze d code with e | scopes
    · rw [haccept] at htest
      exact absurd htest.1 Bool.noConfusion
    · exact ⟨scopes, rfl, hP code scopes hread haccept htest.2⟩
  rcases exists_of_block? _ h hscopes with ⟨code, hread, scopes, haccept, hcode⟩
  exact ⟨code, scopes, hread, haccept, hcode⟩

end YulToolchain
