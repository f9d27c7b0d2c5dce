import YulToolchain.Proofs.CodeGen.Attribution
import YulToolchain.Proofs.Sequence.Reread

/-!
# Generation Side by Side

Two runs of generation for the same function, in two programs.

The text of the function is the same up to lines, so both runs take the same steps. Labels
differ, and so do the numbers of scopes, but the scopes of the function come one after the
other in both programs, and each has a counterpart in the other one (`Lanes.Meet`). What
the runs have in common are the height of the stack, the slots of the variables inside the
function and what is reported for them (`GenState.Abreast`). A name that is used inside is
a variable of the function in both programs, or in neither (`Scopes.SeeAlike`).

What is around the function, and what the functions are that it calls, plays no part: a
call takes as many arguments and leaves as many values as the analysis has counted.

## Main definitions

* `Lanes`: Where the scopes of a function begin in two programs.
* `GenState.Abreast`: Two runs have come equally far.
* `Gen.Beside`: Two computations are run side by side.

## Theorems

* `Expr.generate_inStep`, `Stmt.shared`, `Block.shared`: The same text is generated in step.
* `Generates.same`: The same function reports the same in two programs.
-/

namespace YulToolchain

section Lines

variable {n : Nat}

mutual

theorem Block.scopeCount_onLine : ∀ b : Block, (b.onLine n).scopeCount = b.scopeCount
  | ⟨_, stmts⟩ => by
      rw [Block.onLine, Block.scopeCount, Stmt.scopeCountSeq_onLine stmts, Block.scopeCount]

/-- The same for statements one after the other. -/
theorem Stmt.scopeCountSeq_onLine : ∀ stmts : List Stmt,
    Stmt.scopeCountSeq (Stmt.onLineSeq n stmts) = Stmt.scopeCountSeq stmts
  | [] => by rw [Stmt.onLineSeq]
  | s :: rest => by
      rw [Stmt.onLineSeq, Stmt.scopeCountSeq, Stmt.scopeCount_onLine s,
        Stmt.scopeCountSeq_onLine rest, Stmt.scopeCountSeq]

/-- Lines play no part in scopes. -/
theorem Stmt.scopeCount_onLine : ∀ s : Stmt, (s.onLine n).scopeCount = s.scopeCount
  | .expr _ _ => rfl
  | .assign _ _ _ => rfl
  | .decl _ _ _ => rfl
  | .func _ _ _ _ body => by
      rw [Stmt.onLine, Stmt.scopeCount, Block.scopeCount_onLine body, Stmt.scopeCount]
  | .cond _ _ body => by
      rw [Stmt.onLine, Stmt.scopeCount, Block.scopeCount_onLine body, Stmt.scopeCount]
  | .switch _ _ cases => by
      rw [Stmt.onLine, Stmt.scopeCount, Case.scopeCountSeq_onLine cases, Stmt.scopeCount]
  | .loop _ pre _ post body => by
      rw [Stmt.onLine, Stmt.scopeCount, Block.scopeCount_onLine pre, Block.scopeCount_onLine post,
        Block.scopeCount_onLine body, Stmt.scopeCount]
  | .brk _ => rfl
  | .cont _ => rfl
  | .block b => by
      rw [Stmt.onLine, Stmt.scopeCount, Block.scopeCount_onLine b, Stmt.scopeCount]
  | .label _ _ => rfl
  | .stackAssign _ _ => rfl

/-- The same for cases. -/
theorem Case.scopeCountSeq_onLine : ∀ cases : List Case,
    Case.scopeCountSeq (Case.onLineSeq n cases) = Case.scopeCountSeq cases
  | [] => by rw [Case.onLineSeq]
  | ⟨_, _, body⟩ :: rest => by
      rw [Case.onLineSeq, Case.scopeCountSeq, Block.scopeCount_onLine body,
        Case.scopeCountSeq_onLine rest, Case.scopeCountSeq]

end

theorem Block.scopeCount_eq {b b' : Block} (h : b.onLine n = b'.onLine n) :
    b.scopeCount = b'.scopeCount := by
  rw [← Block.scopeCount_onLine (n := n), h, Block.scopeCount_onLine]

theorem Stmt.symbols_onLine (stmts : List Stmt) :
    Stmt.symbols (Stmt.onLineSeq n stmts) = Stmt.symbols stmts := by
  rw [Stmt.symbols, Stmt.flatMap_hoists_onLine, Stmt.flatMap_adds_onLine, Stmt.symbols]

theorem Identifier.name_onLine (targets : List Identifier) :
    (targets.map (Identifier.onLine n)).map (·.name) = targets.map (·.name) := by
  rw [List.map_map]
  rfl

end Lines

section Values

variable {d : Dialect} {ss : Scopes} {scope line : Nat} {n : Nat}

/-- The arguments of an accepted instruction are accepted. -/
theorem Expr.valueCount_instr {op : Instruction} {args : List Expr}
    (h : (Expr.instr line op args).valueCount d ss scope = .ok n) :
    Expr.checkArgs d ss scope args = .ok () := by
  rw [Expr.valueCount] at h
  split at h
  · exact absurd h (by rintro ⟨⟩)
  · exact (bind_eq_ok h).choose_spec.1

/-- The arguments of an accepted builtin are accepted, unless they are texts. -/
theorem Expr.valueCount_builtin {name : String} {args : List Expr} {b : Builtin}
    (hb : d.builtin? name = some b)
    (h : (Expr.call line name args).valueCount d ss scope = .ok n) :
    b.literalArguments = true ∨ Expr.checkArgs d ss scope args = .ok () := by
  rw [Expr.valueCount] at h
  simp only [hb] at h
  by_cases hliteral : b.literalArguments = true
  · exact .inl hliteral
  · rw [if_neg hliteral] at h
    split at h
    · exact absurd h (by rintro ⟨⟩)
    · exact .inr (bind_eq_ok h).choose_spec.1

/-- A call in accepted code is one of a function that is in scope, and takes and leaves as
    many values as that one does. -/
theorem Expr.valueCount_call {name : String} {args : List Expr} (hb : d.builtin? name = none)
    (h : (Expr.call line name args).valueCount d ss scope = .ok n) :
    ∃ decl params returns, ss.lookup scope name = some (decl, .function params returns) ∧
      params.length = args.length ∧ returns.length = n ∧
      Expr.checkArgs d ss scope args = .ok () := by
  rw [Expr.valueCount] at h
  simp only [hb] at h
  split at h
  · rename_i decl params returns hl
    split at h
    · exact absurd h (by rintro ⟨⟩)
    · rename_i hlength
      rcases bind_eq_ok h with ⟨_, hargs, hn⟩
      exact ⟨decl, params, returns, hl, (not_not.mp hlength).symm, Except.ok.inj hn, hargs⟩
  · exact absurd h (by rintro ⟨⟩)
  · exact absurd h (by rintro ⟨⟩)

/-- Accepted arguments are accepted one by one. -/
theorem Expr.checkArgs_cons {e : Expr} {rest : List Expr}
    (h : Expr.checkArgs d ss scope (e :: rest) = .ok ()) :
    Expr.checkArgs d ss scope rest = .ok () ∧ e.valueCount d ss scope = .ok 1 := by
  rw [Expr.checkArgs] at h
  rcases bind_eq_ok h with ⟨_, hrest, h⟩
  rcases bind_eq_ok h with ⟨count, hcount, h⟩
  by_cases hne : count ≠ 1
  · rw [if_pos hne] at h
    exact absurd h (by rintro ⟨⟩)
  · exact ⟨hrest, not_not.mp hne ▸ hcount⟩

end Values

/-- Where the scopes of a function begin in two programs, how many there are, and what has
    been reported before. -/
structure Lanes where
  left : Nat
  right : Nat
  count : Nat
  before : List StackTooDeep
  before' : List StackTooDeep

namespace Lanes

/-- Some scopes of the one program are those of the other one, shifted. -/
def Meet (l : Lanes) (count i j : Nat) : Prop :=
  ∃ m, i = l.left + m ∧ j = l.right + m ∧ m + count ≤ l.count

variable {l : Lanes} {count i j : Nat}

theorem Meet.sub {count' : Nat} (h : l.Meet count i j) (k : Nat) (hle : k + count' ≤ count) :
    l.Meet count' (i + k) (j + k) := by
  rcases h with ⟨m, rfl, rfl, hm⟩
  exact ⟨m + k, by omega, by omega, by omega⟩

theorem Meet.first (h : l.Meet count i j) (hcount : 0 < count) : l.Meet 1 i j :=
  h.sub 0 (by omega)

/-- A scope has one counterpart. -/
theorem Meet.iff {i' j' : Nat} (h : l.Meet 1 i j) (h' : l.Meet 1 i' j') : i' = i ↔ j' = j := by
  rcases h with ⟨m, rfl, rfl, -⟩
  rcases h' with ⟨m', rfl, rfl, -⟩
  omega

end Lanes

/-- Two programs agree on what a name is at a place: a variable inside the function, whose
    declarations are counterparts, or something that is no variable. -/
def Scopes.SeeAlike (l : Lanes) (ss ss' : Scopes) (i j : Nat) : Prop :=
  ∀ x found found', ss.lookup i x = some found → ss'.lookup j x = some found' →
    (∃ i' j', l.Meet 1 i' j' ∧ found.1 = ⟨i', x⟩ ∧ found'.1 = ⟨j', x⟩ ∧ found.2 = found'.2) ∨
    (found.2.isVariable = false ∧ found'.2.isVariable = false)

namespace Scopes.SeeAlike

variable {l : Lanes} {ss ss' : Scopes} {i j i' j' : Nat} {symbols : List (String × Symbol)}

/-- Inside a function, variables are those of the function. -/
theorem function (ho : ss.Ordered) (ho' : ss'.Ordered) {outer outer' : Nat}
    (h : ss.get? i = some ⟨some outer, true, symbols⟩)
    (h' : ss'.get? j = some ⟨some outer', true, symbols⟩) (hmeet : l.Meet 1 i j) :
    SeeAlike l ss ss' i j := by
  intro x found found' hfound hfound'
  rw [lookup_eq ho h] at hfound
  rw [lookup_eq ho' h'] at hfound'
  simp only [Scope.find?] at hfound hfound'
  rcases hx : symbols.lookup x with _ | symbol
  · simp only [hx] at hfound hfound'
    exact .inr ⟨(lookupIn_true.mp hfound).2, (lookupIn_true.mp hfound').2⟩
  · simp only [hx, Option.some.injEq] at hfound hfound'
    obtain rfl := hfound
    obtain rfl := hfound'
    exact .inl ⟨i, j, hmeet, rfl, rfl, rfl⟩

/-- Programs that agree on what is around a block agree inside. -/
theorem block (hin : SeeAlike l ss ss' i j) (ho : ss.Ordered) (ho' : ss'.Ordered)
    (h : ss.get? i' = some ⟨some i, false, symbols⟩)
    (h' : ss'.get? j' = some ⟨some j, false, symbols⟩) (hmeet : l.Meet 1 i' j') :
    SeeAlike l ss ss' i' j' := by
  intro x found found' hfound hfound'
  rw [lookup_eq ho h] at hfound
  rw [lookup_eq ho' h'] at hfound'
  simp only [Scope.find?] at hfound hfound'
  rcases hx : symbols.lookup x with _ | symbol
  · simp only [hx] at hfound hfound'
    exact hin x found found' hfound hfound'
  · simp only [hx, Option.some.injEq] at hfound hfound'
    obtain rfl := hfound
    obtain rfl := hfound'
    exact .inl ⟨i', j', hmeet, rfl, rfl, rfl⟩

end Scopes.SeeAlike

/-- Variables inside the function have the same slots in two states, and the same has been
    reported since the beginning. -/
structure GenState.Parallel {A B : Type} (l : Lanes) (s : GenState A) (t : GenState B) : Prop where
  slots : ∀ i j, l.Meet 1 i j → ∀ x, s.slots.lookup ⟨i, x⟩ = t.slots.lookup ⟨j, x⟩
  reports : ∃ errors, s.tooDeep = errors ++ l.before ∧ t.tooDeep = errors ++ l.before'

/-- Two runs have come equally far: the stacks of their functions are equally high, too. -/
structure GenState.Abreast {A B : Type} [Target A] [Target B] (l : Lanes) (s : GenState A)
    (t : GenState B) : Prop extends GenState.Parallel l s t where
  height : s.height = t.height

/-- Two places in the function correspond. -/
structure Place.Abreast (l : Lanes) (c c' : GenContext) (p q : Place) : Prop where
  scope : l.Meet 1 p.scope q.scope
  function : p.function = q.function
  loop : p.loop.map (·.height) = q.loop.map (·.height)
  sees : Scopes.SeeAlike l c.scopes c'.scopes p.scope q.scope

namespace Gen

/-- Two computations that are run side by side, from states in one relation, have related
    results and end in states of another relation, if both succeed. -/
def Beside {A B α β : Type} (P : GenState A → GenState B → Prop) (m : Gen A α) (m' : Gen B β)
    (R : α → β → Prop) (Q : GenState A → GenState B → Prop) : Prop :=
  ∀ s t, P s t → ∀ a s' b t', m s = .ok (a, s') → m' t = .ok (b, t') → R a b ∧ Q s' t'

/-- Two computations keep abreast, whatever their results. -/
def InStep {A B α β : Type} [Target A] [Target B] (l : Lanes) (m : Gen A α) (m' : Gen B β) :
    Prop := Beside (GenState.Abreast l) m m' (fun _ _ => True) (GenState.Abreast l)

section Rules

variable {A B α β γ δ : Type} {P Q O : GenState A → GenState B → Prop} {R : α → β → Prop}
  {R' : γ → δ → Prop}

/-- Results that are related. -/
theorem Beside.pure {a : α} {b : β} (h : R a b) : Beside P (pure a) (pure b) R P := by
  intro s t hs _ _ _ _ hm hm'
  cases hm
  cases hm'
  exact ⟨h, hs⟩

/-- Two computations side by side, then two more. -/
theorem Beside.bind {m : Gen A α} {m' : Gen B β} {f : α → Gen A γ} {f' : β → Gen B δ}
    (hm : Beside P m m' R Q) (hf : ∀ a b, R a b → Beside Q (f a) (f' b) R' O) :
    Beside P (m >>= f) (m' >>= f') R' O := by
  intro s t hs a u b v h h'
  rcases bind_eq_ok (show (m s >>= fun r => f r.1 r.2) = .ok (a, u) from h) with
    ⟨⟨x, s₁⟩, hx, h⟩
  rcases bind_eq_ok (show (m' t >>= fun r => f' r.1 r.2) = .ok (b, v) from h') with
    ⟨⟨y, t₁⟩, hy, h'⟩
  rcases hm s t hs x s₁ y t₁ hx hy with ⟨hxy, hst⟩
  exact hf x y hxy s₁ t₁ hst a u b v h h'

-- Equal results, and results that do not matter.
theorem Beside.same {m : Gen A α} {m' : Gen B α} {f : α → Gen A γ} {f' : α → Gen B δ}
    (hm : Beside P m m' Eq Q) (hf : ∀ a, Beside Q (f a) (f' a) R' O) :
    Beside P (m >>= f) (m' >>= f') R' O :=
  hm.bind fun a _ hab => hab ▸ hf a

theorem Beside.then {m : Gen A α} {m' : Gen B β} {f : α → Gen A γ} {f' : β → Gen B δ}
    (hm : Beside P m m' (fun _ _ => True) Q) (hf : ∀ a b, Beside Q (f a) (f' b) R' O) :
    Beside P (m >>= f) (m' >>= f') R' O := hm.bind fun a b _ => hf a b

theorem Beside.mono {P' Q' : GenState A → GenState B → Prop} {m : Gen A α} {m' : Gen B β}
    (h : Beside P m m' R Q) (hP : ∀ s t, P' s t → P s t) (hQ : ∀ s t, Q s t → Q' s t) :
    Beside P' m m' R Q' := fun s t hs a s' b t' hm hm' =>
  (h s t (hP s t hs) a s' b t' hm hm').imp_right (hQ s' t')

theorem Beside.fails {e : Failure} {m : Gen B β} : Beside P (throw e : Gen A α) m R Q := by
  intro s t _ _ _ _ _ hm
  exact absurd hm (by rintro ⟨⟩)

theorem Beside.fails' {m : Gen A α} {e : Failure} : Beside P m (throw e : Gen B β) R Q := by
  intro s t _ _ _ _ _ _ hm
  exact absurd hm (by rintro ⟨⟩)

theorem Beside.get {f : GenState A → Gen A α} {f' : GenState B → Gen B β}
    (h : ∀ s t, P s t → Beside (fun u v => u = s ∧ v = t) (f s) (f' t) R Q) :
    Beside P (get >>= f) (get >>= f') R Q := fun s t hs => h s t hs s t ⟨rfl, rfl⟩

/-- Both decide alike. -/
theorem Beside.ite {p : Prop} [Decidable p] {m n : Gen A α} {m' n' : Gen B β}
    (h : p → Beside P m m' R Q) (h' : ¬ p → Beside P n n' R Q) :
    Beside P (if p then m else n) (if p then m' else n') R Q := by
  by_cases hp : p
  · rw [if_pos hp, if_pos hp]
    exact h hp
  · rw [if_neg hp, if_neg hp]
    exact h' hp

/-- Results of the checks stand side by side. -/
theorem orStop_beside {ε ε' : Type} {cause : ε → Cause} {cause' : ε' → Cause} {r : Except ε α}
    {r' : Except ε' β} (h : ∀ a b, r = .ok a → r' = .ok b → R a b) :
    Beside P (orStop cause r : Gen A α) (orStop cause' r' : Gen B β) R P := by
  cases r with
  | error _ => exact Beside.fails
  | ok a =>
      cases r' with
      | error _ => exact Beside.fails'
      | ok b => exact Beside.pure (h a b rfl rfl)

/-- Both look up their name, each in its own scopes. -/
theorem lookup_beside {c c' : GenContext} {p q : Place} {line line' : Nat} {x y : String} :
    Beside P (lookup c p line x : Gen A _) (lookup c' q line' y : Gen B _) (fun found found' =>
      c.scopes.lookup p.scope x = some found ∧ c'.scopes.lookup q.scope y = some found') P := by
  rw [lookup, lookup]
  split
  · rename_i found hfound
    split
    · rename_i found' hfound'
      exact Beside.pure ⟨hfound, hfound'⟩
    · exact Beside.fails'
  · exact Beside.fails

variable [Target A] [Target B] {l : Lanes}

/-- What passes changes neither slots nor reports. -/
theorem Beside.passes {m : Gen A α} {m' : Gen B β} {δ : GenState A → Int}
    {δ' : GenState B → Int} (hP : ∀ s t, P s t → s.Parallel l t)
    (h : ∀ s, Ensures m s fun _ => Passes (δ s) s)
    (h' : ∀ t, Ensures m' t fun _ => Passes (δ' t) t) :
    Beside P m m' (fun _ _ => True) (GenState.Parallel l) := by
  intro s t hs a s' b t' hm hm'
  have hpass := h s a s' hm
  have hpass' := h' t b t' hm'
  refine ⟨trivial, fun i j hmeet x => ?_, ?_⟩
  · rw [hpass.slots, hpass'.slots]
    exact (hP s t hs).slots i j hmeet x
  · rw [hpass.tooDeep, hpass'.tooDeep]
    exact (hP s t hs).reports

/-- What passes on both sides stays in step. -/
theorem InStep.of_passes {m : Gen A α} {m' : Gen B β} {δ : Int}
    (h : ∀ s, Ensures m s fun _ => Passes δ s) (h' : ∀ t, Ensures m' t fun _ => Passes δ t) :
    InStep l m m' := by
  intro s t hs a s' b t' hm hm'
  have hparallel := Beside.passes (fun _ _ hst => hst.toParallel) h h' s t hs a s' b t' hm hm'
  refine ⟨trivial, hparallel.2, ?_⟩
  rw [(h s a s' hm).height, (h' t b t' hm').height, hs.height]

theorem Writes.inStep {m : Gen A Unit} {m' : Gen B Unit} {δ : Int} (h : Writes m δ)
    (h' : Writes m' δ) : InStep l m m' :=
  .of_passes (fun _ => h.passes) fun _ => h'.passes

theorem Names.inStep {m : Gen A Nat} {m' : Gen B Nat} (h : Names m) (h' : Names m') :
    InStep l m m' := .of_passes (fun _ => h.passes) fun _ => h'.passes

/-- Writing different amounts keeps the slots and the reports parallel. -/
theorem Writes.beside {m : Gen A Unit} {m' : Gen B Unit} {δ ε : Int} (h : Writes m δ)
    (h' : Writes m' ε) :
    Beside (GenState.Parallel l) m m' (fun _ _ => True) (GenState.Parallel l) :=
  .passes (fun _ _ hst => hst) (fun _ => h.passes) fun _ => h'.passes

theorem Names.beside {m : Gen A Nat} {m' : Gen B Nat} (h : Names m) (h' : Names m') :
    Beside (GenState.Parallel l) m m' (fun _ _ => True) (GenState.Parallel l) :=
  .passes (fun _ _ hst => hst) (fun _ => h.passes) fun _ => h'.passes

theorem height_beside : Beside (GenState.Abreast l) (Gen.height : Gen A Int)
    (Gen.height : Gen B Int) Eq (GenState.Abreast l) := by
  rintro s t hst _ _ _ _ ⟨⟩ ⟨⟩
  exact ⟨hst.height, hst⟩

theorem expectHeight_inStep (line line' : Nat) (expected : Int) (place : String) :
    InStep l (expectHeight line expected place : Gen A Unit)
      (expectHeight line' expected place : Gen B Unit) :=
  height_beside.same fun _ => .ite (fun _ => .fails) fun _ => .pure trivial

end Rules

section Operations

variable {A B : Type} [Target A] [Target B] [Target.Lawful A] [Target.Lawful B] {l : Lanes}
  {c c' : GenContext} {p q : Place}

theorem setLine_inStep (line line' : Nat) :
    InStep l (setLine line : Gen A Unit) (setLine line' : Gen B Unit) :=
  (setLine_writes line).inStep (setLine_writes line')

theorem emit_inStep {i j : Item} (h : i.stackEffect = j.stackEffect) :
    InStep l (emit i : Gen A Unit) (emit j : Gen B Unit) :=
  (emit_writes i).inStep (h ▸ emit_writes j)

theorem instruction_inStep (op : Instruction) :
    InStep l (instruction op : Gen A Unit) (instruction op : Gen B Unit) := emit_inStep rfl

theorem label_inStep (id id' : Nat) :
    InStep l (label id : Gen A Unit) (label id' : Gen B Unit) := emit_inStep rfl

theorem zeros_inStep (n : Nat) : InStep l (zeros n : Gen A Unit) (zeros n : Gen B Unit) :=
  (zeros_writes n).inStep (zeros_writes n)

theorem pops_inStep (n : Nat) : InStep l (pops n : Gen A Unit) (pops n : Gen B Unit) :=
  (pops_writes n).inStep (pops_writes n)

theorem jumpTo_inStep (id id' : Nat) (difference : Int) :
    InStep l (jumpTo id difference : Gen A Unit) (jumpTo id' difference : Gen B Unit) :=
  (jumpTo_writes id difference).inStep (jumpTo_writes id' difference)

theorem jumpToIf_inStep (id id' : Nat) :
    InStep l (jumpToIf id : Gen A Unit) (jumpToIf id' : Gen B Unit) :=
  (jumpToIf_writes id).inStep (jumpToIf_writes id')

theorem newLabel_inStep : InStep l (newLabel : Gen A Nat) (newLabel : Gen B Nat) :=
  newLabel_names.inStep newLabel_names

/-- The stacks of two functions are equally high from here on. -/
theorem setHeight_beside (h : Int) :
    Beside (GenState.Parallel l) (setHeight h : Gen A Unit) (setHeight h : Gen B Unit)
      (fun _ _ => True) (GenState.Abreast l) := by
  intro s t hs a s' b t' hm hm'
  refine ⟨trivial, (Beside.passes (fun _ _ hst => hst) (fun _ => setHeight_passes h)
    (fun _ => setHeight_passes h) s t hs a s' b t' hm hm').2, ?_⟩
  rw [(setHeight_passes h a s' hm).height, (setHeight_passes h b t' hm').height]
  ring

theorem setHeight_inStep (h : Int) :
    InStep l (setHeight h : Gen A Unit) (setHeight h : Gen B Unit) :=
  (setHeight_beside h).mono (fun _ _ hst => hst.toParallel) fun _ _ hst => hst

/-- Corresponding accesses are reported for the same function. -/
theorem reportTooDeep_inStep (h : p.function = q.function) (name : String) (depth : Int) :
    InStep l (reportTooDeep p name depth : Gen A Unit)
      (reportTooDeep q name depth : Gen B Unit) := by
  refine Beside.then (Q := GenState.Abreast l) ?_ fun _ _ => instruction_inStep .invalid
  rintro s t hst _ _ _ _ ⟨⟩ ⟨⟩
  rcases hst.reports with ⟨errors, hs, ht⟩
  refine ⟨trivial, ⟨hst.slots, ⟨p.function, name, depth⟩ :: errors, ?_, ?_⟩, hst.height⟩
  · exact congrArg (_ :: ·) hs
  · show _ :: t.tooDeep = _
    rw [ht, h, List.cons_append]

/-- A variable of the function lies as deep in both stacks. -/
theorem distance?_beside (hp : p.Abreast l c c' q) (line line' : Nat) {x : String}
    (hx : ∃ decl type, c.scopes.lookup p.scope x = some (decl, .var type)) (least limit : Int) :
    Beside (GenState.Abreast l) (distance? c p line x least limit : Gen A _)
      (distance? c' q line' x least limit : Gen B _) Eq (GenState.Abreast l) := by
  rcases hx with ⟨decl, type, hvar⟩
  refine lookup_beside.bind fun found ⟨decl', symbol'⟩ ⟨hfound, hfound'⟩ => ?_
  -- Both places see the variable in scopes that meet.
  obtain rfl := Option.some.inj (hfound.symm.trans hvar)
  rcases hp.sees x _ _ hfound hfound' with ⟨i, j, hmeet, hdecl, hdecl', -⟩ | ⟨hno, -⟩
  swap
  · exact absurd hno Bool.noConfusion
  obtain rfl : decl = ⟨i, x⟩ := hdecl
  obtain rfl : decl' = ⟨j, x⟩ := hdecl'
  refine Beside.get fun s t hst => ?_
  refine Beside.mono (P := GenState.Abreast l) ?_ (fun u v huv => huv.1 ▸ huv.2 ▸ hst)
    fun _ _ h => h
  -- The slots are equal, if there are any.
  rcases hslot : t.slots.lookup ⟨j, x⟩ with _ | slot
  · simp only [hst.slots i j hmeet x, hslot]
    exact .fails
  · simp only [hst.slots i j hmeet x, hslot]
    -- The checks are about the height and the slot, which agree.
    refine height_beside.same fun h => .ite (fun _ => .fails) fun _ =>
    .ite (fun _ => ?_) fun _ => ?_
    · exact (reportTooDeep_inStep hp.function x _).then fun _ _ => .pure rfl
    · exact .pure rfl

/-- Both copy the variable from the same depth, or both report it. -/
theorem copyVariable_inStep (hp : p.Abreast l c c' q) (line line' : Nat) {x : String}
    (hx : ∃ decl type, c.scopes.lookup p.scope x = some (decl, .var type)) :
    InStep l (copyVariable c p line x : Gen A Unit) (copyVariable c' q line' x : Gen B Unit) := by
  refine (distance?_beside hp line line' hx 1 maxCopyDepth).same fun r => ?_
  cases r with
  | none => exact zeros_inStep 1
  | some distance =>
      refine (orStop_beside (R := Eq) fun a b ha hb => ?_).same fun op => instruction_inStep op
      exact Except.ok.inj (ha.symm.trans hb)

/-- Both assign it at the same depth, or both report it. -/
theorem assignVariable_inStep (hp : p.Abreast l c c' q) (line line' : Nat) {x : String}
    (hx : ∃ decl type, c.scopes.lookup p.scope x = some (decl, .var type)) :
    InStep l (assignVariable c p line x : Gen A Unit)
      (assignVariable c' q line' x : Gen B Unit) := by
  refine (distance?_beside hp line line' hx 2 maxAssignDepth).same fun r => ?_
  cases r with
  | none => exact pops_inStep 1
  | some distance =>
      refine (orStop_beside (R := Eq) fun a b ha hb => ?_).same fun op =>
        (instruction_inStep op).then fun _ _ => pops_inStep 1
      exact Except.ok.inj (ha.symm.trans hb)

/-- The same for several targets. -/
theorem assignVariables_inStep (hp : p.Abreast l c c' q) :
    ∀ targets targets' : List Identifier, targets.map (·.name) = targets'.map (·.name) →
      c.scopes.Assigns p.scope targets →
      InStep l (assignVariables c p targets : Gen A Unit)
        (assignVariables c' q targets' : Gen B Unit)
  | [], [], _, _ => .pure trivial
  | [], _ :: _, h, _ => absurd h (by simp)
  | _ :: _, [], h, _ => absurd h (by simp)
  | x :: rest, y :: rest', h, hvars => by
      rcases List.cons.inj h with ⟨hname, hrest⟩
      obtain hname : x.name = y.name := hname
      rcases List.forall_mem_cons.mp hvars with ⟨hx, hvars⟩
      rw [assignVariables, assignVariables, ← hname]
      exact (assignVariables_inStep hp rest rest' hrest hvars).then fun _ _ =>
        assignVariable_inStep hp x.line y.line hx

/-- Both leave the body from the same height. -/
theorem leaveBody_inStep (hp : p.Abreast l c c' q) (line line' : Nat)
    (goal goal' : LoopTargets → Nat) :
    InStep l (leaveBody p line goal : Gen A Unit) (leaveBody q line' goal' : Gen B Unit) := by
  have hloop := hp.loop
  rw [leaveBody, leaveBody]
  cases hleft : p.loop with
  | none => exact .fails
  | some targets =>
      rw [hleft, Option.map_some, eq_comm, Option.map_eq_some_iff] at hloop
      rcases hloop with ⟨targets', hright, hheight⟩
      rw [hright]
      have hpop : Beside (GenState.Abreast l) (popUntil targets.height : Gen A Int)
          (popUntil targets'.height : Gen B Int) Eq (GenState.Abreast l) := by
        rw [hheight]
        exact height_beside.same fun _ => (pops_inStep _).then fun _ _ => .pure rfl
      exact hpop.same fun popped => jumpTo_inStep _ _ popped

/-- Frames of the same size are unwound alike. -/
theorem unwindFrame_inStep (h : p.function = q.function) (params returns : Nat) :
    InStep l (unwindFrame p params returns : Gen A Unit)
      (unwindFrame q params returns : Gen B Unit) := by
  refine height_beside.same fun actual => .ite (fun _ => .fails) fun _ =>
    .ite (fun _ => ?_) fun _ => ?_
  · exact (reportTooDeep_inStep h "" _).then fun _ _ => setHeight_inStep _
  · refine (orStop_beside (R := Eq) fun a b ha hb => Except.ok.inj (ha.symm.trans hb)).same
      fun r => ?_
    refine ((instructions_writes r.1).inStep (instructions_writes r.1)).then fun _ _ => ?_
    exact .ite (fun _ => .pure trivial) fun _ => .fails

/-- Scopes with as many variables are closed alike. -/
theorem closeBlock_inStep (hdialect : c'.dialect = c.dialect) {scope scope' : Nat}
    (hcount : c.scopes.variableCount scope = c'.scopes.variableCount scope') (line line' : Nat)
    (before : Int) : InStep l (closeBlock c scope line before : Gen A Unit)
      (closeBlock c' scope' line' before : Gen B Unit) := by
  refine (setLine_inStep line line').then fun _ _ => ?_
  rw [hcount, hdialect]
  refine (pops_inStep _).then fun _ _ => ?_
  exact .ite (fun _ => expectHeight_inStep line line' before "block") fun _ => .pure trivial

/-- Literals push one word. -/
theorem literal_inStep (x y : Literal) :
    InStep l (Gen.literal x : Gen A Unit) (Gen.literal y : Gen B Unit) := by
  rw [Gen.literal, Gen.literal]
  split
  · split
    · exact (setLine_inStep x.line y.line).then fun _ _ => emit_inStep rfl
    · exact .fails'
  · exact .fails

/-- Queries push one word. -/
theorem objectQuery_inStep {line line' : Nat} {name name' : String} {args args' : List Expr}
    {own : Item} {attachment : Nat → Reference} (hown : own.stackEffect = 1) :
    InStep l (objectQuery c line name args own attachment : Gen A Unit)
      (objectQuery c' line' name' args' own attachment : Gen B Unit) :=
  .of_passes (fun _ => objectQuery_passes hown) fun _ => objectQuery_passes hown

omit [Target A] [Target B] [Target.Lawful A] [Target.Lawful B] in
/-- Corresponding variables get the same slots. -/
theorem setSlots_beside {i j : Nat} (hmeet : l.Meet 1 i j) :
    ∀ (vars vars' : List TypedName) (first : Int), vars.map (·.name) = vars'.map (·.name) →
      Beside (GenState.Parallel l) (setSlots i first vars : Gen A Unit)
        (setSlots j first vars' : Gen B Unit) (fun _ _ => True) (GenState.Parallel l)
  | [], [], _, _ => .pure trivial
  | [], _ :: _, _, h => absurd h (by simp)
  | _ :: _, [], _, h => absurd h (by simp)
  | x :: rest, y :: rest', first, h => by
      -- The first names agree, and so do the slots they get.
      rcases List.cons.inj h with ⟨hname, hrest⟩
      refine Beside.then (Q := GenState.Parallel l) ?_ fun _ _ =>
        setSlots_beside hmeet rest rest' (first + 1) hrest
      rintro s t hst _ _ _ _ ⟨⟩ ⟨⟩
      refine ⟨trivial, fun i' j' hmeet' z => ?_, hst.reports⟩
      -- A name of one scope is hidden exactly where its counterpart is.
      have hsame : (⟨i', z⟩ : Declaration) = ⟨i, x.name⟩ ↔
          (⟨j', z⟩ : Declaration) = ⟨j, y.name⟩ := by
        simp only [Declaration.mk.injEq, hmeet.iff hmeet', hname]
      simp only [List.lookup_cons]
      by_cases hkey : (⟨i', z⟩ : Declaration) = ⟨i, x.name⟩
      · rw [beq_iff_eq.mpr hkey, beq_iff_eq.mpr (hsame.mp hkey)]
      · rw [beq_eq_false_iff_ne.mpr hkey, beq_eq_false_iff_ne.mpr (hkey ∘ hsame.mpr)]
        exact hst.slots i' j' hmeet' z

omit [Target.Lawful A] in
/-- Slots do not change the height. -/
theorem setSlots_height (scope : Nat) : ∀ (vars : List TypedName) (first : Int) (s : GenState A),
    Ensures (setSlots scope first vars) s fun _ t => t.height = s.height
  | [], _, _ => Ensures.pure rfl
  | x :: rest, first, s => by
      refine Ensures.bind (P := fun _ t => t.height = s.height) ?_ fun _ t ht =>
        (setSlots_height scope rest (first + 1) t).mono fun _ u hu => hu.trans ht
      rintro _ _ ⟨⟩
      rfl

omit [Target.Lawful A] [Target.Lawful B] in
/-- The same with the height. -/
theorem setSlots_inStep {i j : Nat} (hmeet : l.Meet 1 i j) {vars vars' : List TypedName}
    (h : vars.map (·.name) = vars'.map (·.name)) (first : Int) :
    InStep l (setSlots i first vars : Gen A Unit) (setSlots j first vars' : Gen B Unit) := by
  intro s t hs a s' b t' hm hm'
  refine ⟨trivial, (setSlots_beside hmeet vars vars' first h s t hs.toParallel a s' b t' hm hm').2,
    ?_⟩
  rw [setSlots_height i vars first s a s' hm, setSlots_height j vars' first t b t' hm', hs.height]

end Operations

end Gen

open Gen

section Expressions

variable {A B : Type} [Target A] [Target B] [Target.Lawful A] [Target.Lawful B] {l : Lanes}
  {c c' : GenContext} {p q : Place} {n : Nat}

omit [Target.Lawful A] [Target.Lawful B] in
mutual

/-- An expression that leaves as many values in two programs is generated in step. -/
theorem Expr.generate_inStep [Target.Lawful A] [Target.Lawful B] (hdialect : c'.dialect = c.dialect)
    (hp : p.Abreast l c c' q) :
    ∀ (e e' : Expr) {k : Nat}, e.onLine n = e'.onLine n →
      e.valueCount c.dialect c.scopes p.scope = .ok k →
      e'.valueCount c.dialect c'.scopes q.scope = .ok k →
      InStep l (e.generate c p : Gen A Unit) (e'.generate c' q : Gen B Unit)
  -- By recursion on the expression; that of the other side has the same form.
  | .literal x, e', k, hsame, _, _ => by
      cases e' with
      | literal y =>
          rw [Expr.generate, Expr.generate]
          exact literal_inStep x y
      | _ => simp only [Expr.onLine, reduceCtorEq] at hsame
  | .ident line x, e', k, hsame, _, _ => by
      cases e' with
      | ident line' y =>
          simp only [Expr.onLine, Expr.ident.injEq, true_and] at hsame
          obtain rfl := hsame
          rw [Expr.generate, Expr.generate]
          refine lookup_beside.bind fun ⟨decl, symbol⟩ ⟨decl', symbol'⟩ ⟨hl, hl'⟩ => ?_
          -- What the name refers to decides on both sides.
          have hsees := hp.sees x _ _ hl hl'
          cases symbol with
          | var type =>
              rcases hsees with ⟨_, _, _, _, _, hsymbol⟩ | ⟨hno, -⟩
              · obtain rfl : Symbol.var type = symbol' := hsymbol
                exact copyVariable_inStep hp line line' ⟨decl, type, hl⟩
              · exact absurd hno Bool.noConfusion
          | label =>
              cases symbol' with
              | var type' =>
                  rcases hsees with ⟨_, _, _, _, _, hsymbol⟩ | ⟨-, hno⟩
                  · exact absurd hsymbol (by simp)
                  · exact absurd hno Bool.noConfusion
              | label =>
                  exact ((labelOf_names decl).inStep (labelOf_names decl')).then fun _ _ =>
                    emit_inStep rfl
              | function params returns => exact .fails'
          | function params returns => exact .fails
      | _ => simp only [Expr.onLine, reduceCtorEq] at hsame
  -- Arguments are generated in step, and the instruction is the same.
  | .instr line op args, e', k, hsame, h, h' => by
      cases e' with
      | instr line' op' args' =>
          simp only [Expr.onLine, Expr.instr.injEq, true_and] at hsame
          obtain ⟨rfl, hargs⟩ := hsame
          rw [Expr.generate, Expr.generate]
          refine (Expr.generateArgs_inStep hdialect hp args args' hargs (Expr.valueCount_instr h)
            (Expr.valueCount_instr h')).then fun _ _ => ?_
          exact (setLine_inStep line line').then fun _ _ => instruction_inStep op
      | _ => simp only [Expr.onLine, reduceCtorEq] at hsame
  | .call line name args, e', k, hsame, h, h' => by
      cases e' with
      | call line' name' args' =>
          simp only [Expr.onLine, Expr.call.injEq, true_and] at hsame
          obtain ⟨rfl, hargs⟩ := hsame
          -- There are as many arguments on both sides.
          have hlength : args.length = args'.length := by
            have := congrArg List.length hargs
            rwa [Expr.length_onLineAll, Expr.length_onLineAll] at this
          rw [Expr.generate, Expr.generate, hdialect]
          rcases hb : c.dialect.builtin? name with _ | b
          · -- A function of the program, or two.
            rcases Expr.valueCount_call hb h with
              ⟨decl, params, returns, hl, hparams, hreturns, hok⟩
            rcases Expr.valueCount_call hb h' with
              ⟨decl', params', returns', hl', hparams', hreturns', hok'⟩
            refine lookup_beside.bind fun found found' ⟨hfound, hfound'⟩ => ?_
            obtain rfl := Option.some.inj (hfound.symm.trans hl)
            obtain rfl := Option.some.inj (hfound'.symm.trans hl')
            refine newLabel_inStep.then fun back back' => ?_
            refine (emit_inStep (i := .reference (.label back)) (j := .reference (.label back'))
              rfl).then fun _ _ => ?_
            refine (Expr.generateArgs_inStep hdialect hp args args' hargs hok hok').then
              fun _ _ => ?_
            refine ((entryOf_names c decl).inStep (entryOf_names c' decl')).then
              fun entry entry' => ?_
            refine (setLine_inStep line line').then fun _ _ => ?_
            rw [hparams, hreturns, hparams', hreturns', hlength]
            exact (jumpTo_inStep entry entry' _).then fun _ _ => label_inStep back back'
          -- Arguments of a builtin that are not texts are accepted, and generated in step.
          · have harguments : b.literalArguments = false →
                InStep l (Expr.generateArgs c p args : Gen A Unit)
                  (Expr.generateArgs c' q args' : Gen B Unit) := by
              intro htext
              have hok := (Expr.valueCount_builtin hb h).resolve_left (by rw [htext]; simp)
              have hok' := (Expr.valueCount_builtin hb h').resolve_left (by rw [htext]; simp)
              exact Expr.generateArgs_inStep hdialect hp args args' hargs hok hok'
            -- One case for each way in which the builtin is compiled.
            rcases hcode : b.code with op | _ | _ | _ | _
            · obtain rfl := (Dialect.builtin?_instruction hb hcode).2
              exact (harguments rfl).then fun _ _ => instruction_inStep op
            · simp only [hcode]
              exact objectQuery_inStep rfl
            · simp only [hcode]
              exact objectQuery_inStep rfl
            · obtain rfl := Dialect.builtin?_dataCopy hb hcode
              exact (harguments rfl).then fun _ _ => instruction_inStep .codecopy
            · by_cases htext : b.literalArguments = true
              · simp only [hcode, if_pos htext]
                exact zeros_inStep b.returns
              · simp only [hcode, if_neg htext, hlength]
                refine (harguments (Bool.eq_false_iff.mpr htext)).then fun _ _ => ?_
                exact (pops_inStep args'.length).then fun _ _ => zeros_inStep b.returns
      | _ => simp only [Expr.onLine, reduceCtorEq] at hsame

/-- Arguments are generated from the last to the first on both sides. -/
theorem Expr.generateArgs_inStep [Target.Lawful A] [Target.Lawful B]
    (hdialect : c'.dialect = c.dialect) (hp : p.Abreast l c c' q) :
    ∀ es es' : List Expr, Expr.onLineAll n es = Expr.onLineAll n es' →
      Expr.checkArgs c.dialect c.scopes p.scope es = .ok () →
      Expr.checkArgs c.dialect c'.scopes q.scope es' = .ok () →
      InStep l (Expr.generateArgs c p es : Gen A Unit) (Expr.generateArgs c' q es' : Gen B Unit)
  | [], [], _, _, _ => by
      rw [Expr.generateArgs, Expr.generateArgs]
      exact .pure trivial
  | [], _ :: _, hsame, _, _ => by simp only [Expr.onLineAll, reduceCtorEq] at hsame
  | _ :: _, [], hsame, _, _ => by simp only [Expr.onLineAll, reduceCtorEq] at hsame
  | e :: rest, e' :: rest', hsame, h, h' => by
      simp only [Expr.onLineAll, List.cons.injEq] at hsame
      rcases Expr.checkArgs_cons h with ⟨hrest, hone⟩
      rcases Expr.checkArgs_cons h' with ⟨hrest', hone'⟩
      rw [Expr.generateArgs, Expr.generateArgs]
      exact (Expr.generateArgs_inStep hdialect hp rest rest' hsame.2 hrest hrest').then fun _ _ =>
        Expr.generate_inStep hdialect hp e e' hsame.1 hone hone'

end

end Expressions

/-- The scopes of two programs of one dialect, in which expressions leave no values behind. -/
structure GenContext.Comparable (c c' : GenContext) : Prop where
  dialect : c'.dialect = c.dialect
  strict : c.dialect.flavour ≠ .loose
  ordered : c.scopes.Ordered
  ordered' : c'.scopes.Ordered

section Statements

variable {A B : Type} [Target A] [Target B] {l : Lanes} {c c' : GenContext} {n : Nat}

/-- Scopes with the same symbols have as many variables. -/
theorem Scopes.variableCount_eq {ss ss' : Scopes} {i j : Nat} {s s' : Scope}
    (h : ss.get? i = some s) (h' : ss'.get? j = some s') (hsymbols : s.symbols = s'.symbols) :
    ss.variableCount i = ss'.variableCount j := by
  rw [variableCount, variableCount, h, h']
  exact congrArg (List.countP _) hsymbols

/-- Corresponding places inside corresponding blocks. -/
theorem Place.Abreast.enter {p q : Place} {i j : Nat} {stmts stmts' : List Stmt}
    (hp : p.Abreast l c c' q) (hc : c.Comparable c')
    (hsame : Stmt.onLineSeq n stmts = Stmt.onLineSeq n stmts')
    (h : c.scopes.get? i = some ⟨some p.scope, false, Stmt.symbols stmts⟩)
    (h' : c'.scopes.get? j = some ⟨some q.scope, false, Stmt.symbols stmts'⟩)
    (hmeet : l.Meet 1 i j) :
    Place.Abreast l c c' { p with scope := i } { q with scope := j } ∧
      c.scopes.variableCount i = c'.scopes.variableCount j := by
  have hsymbols : Stmt.symbols stmts = Stmt.symbols stmts' := by
    rw [← Stmt.symbols_onLine (n := n), hsame, Stmt.symbols_onLine]
  refine ⟨⟨hmeet, hp.function, hp.loop, ?_⟩, Scopes.variableCount_eq h h' hsymbols⟩
  rw [← hsymbols] at h'
  exact hp.sees.block hc.ordered hc.ordered' h h' hmeet

section Functions

variable [Target.Lawful A] [Target.Lawful B] {p q : Place} {line line' : Nat} {name : String}
  {params params' returns returns' : List TypedName} {body body' : Block} {i j : Nat}

omit [Target A] [Target.Lawful A] in
theorem Gen.Ensures.skip {α β : Type} {m : Gen A α} {f : α → Gen A β} {s : GenState A}
    {Q : β → GenState A → Prop} (h : ∀ a t, Ensures (f a) t Q) : Ensures (m >>= f) s Q :=
  Ensures.bind (P := fun _ _ => True) (fun _ _ _ => trivial) fun a t _ => h a t

/-- The definition of a function leaves the stack as high as it found it. -/
theorem Stmt.generate_func_height {s : GenState A} :
    Ensures ((Stmt.func line name params returns body).generate c p i) s fun _ t =>
      t.height = s.height := by
  rw [Stmt.generate]
  refine (setLine_writes line).passes.bind fun _ s₁ h₁ => ?_
  refine Ensures.bind (P := fun _ t => t = s₁) (Ensures.lookup fun _ _ => rfl) ?_
  rintro found _ rfl
  refine (entryOf_names c _).passes.bind fun entry s₂ h₂ => ?_
  refine (setSlots_height i params.reverse 1 s₂).bind fun _ s₃ h₃ => Ensures.height ?_
  have hbefore : s₃.height = s.height := by
    rw [h₃, h₂.height, h₁.height, add_zero, add_zero]
  -- What follows restores the height.
  refine Ensures.skip fun after _ => Ensures.skip fun _ _ => Ensures.skip fun _ _ => ?_
  refine Ensures.skip fun _ _ => Ensures.skip fun _ _ => Ensures.skip fun _ _ => ?_
  refine Ensures.skip fun _ _ => Ensures.skip fun _ _ => Ensures.skip fun _ _ => ?_
  refine Ensures.skip fun _ _ => Ensures.skip fun _ _ => Ensures.skip fun _ u => ?_
  refine expectHeight_ensures.mono ?_
  rintro _ _ ⟨rfl, hheight⟩
  exact hheight.trans hbefore

/-- The definition of a function keeps what two runs have in common, however high the
    stacks around it are, if its body is generated in step. -/
theorem Stmt.generate_func_beside (hparams : params.map (·.name) = params'.map (·.name))
    (hreturns : returns.map (·.name) = returns'.map (·.name)) (hmeet : l.Meet 1 i j)
    (hbody : InStep l (body.generate c ⟨i, none, name⟩ (i + 1) : Gen A Unit)
      (body'.generate c' ⟨j, none, name⟩ (j + 1) : Gen B Unit)) :
    Beside (GenState.Parallel l)
      ((Stmt.func line name params returns body).generate c p i : Gen A Unit)
      ((Stmt.func line' name params' returns' body').generate c' q j : Gen B Unit)
      (fun _ _ => True) (GenState.Parallel l) := by
  -- The names agree in the reversed order as well.
  have hparams' : params.reverse.map (·.name) = params'.reverse.map (·.name) := by
    rw [List.map_reverse, List.map_reverse, hparams]
  have hcount : params.length = params'.length := by
    simpa only [List.length_map] using congrArg List.length hparams
  have hcount' : returns.length = returns'.length := by
    simpa only [List.length_map] using congrArg List.length hreturns
  -- Both frames have the same size.
  rw [Stmt.generate, Stmt.generate, ← hcount, ← hcount']
  refine ((setLine_writes line).beside (setLine_writes line')).then fun _ _ => ?_
  refine lookup_beside.bind fun found found' _ => ?_
  refine ((entryOf_names c _).beside (entryOf_names c' _)).then fun entry entry' => ?_
  refine (setSlots_beside hmeet _ _ 1 hparams').then fun _ _ => ?_
  refine Beside.then (Q := GenState.Parallel l) ?_ fun before before' => ?_
  · rintro s t hst _ _ _ _ ⟨⟩ ⟨⟩
    exact ⟨trivial, hst⟩
  refine (newLabel_names.beside newLabel_names).then fun after after' => ?_
  refine ((jumpTo_writes after _).beside (jumpTo_writes after' _)).then fun _ _ => ?_
  refine ((emit_writes (.label entry)).beside (emit_writes (.label entry'))).then fun _ _ => ?_
  -- From here to the end of the frame the stacks of the functions are equally high.
  refine (setHeight_beside _).then fun _ _ => ?_
  refine (setSlots_inStep hmeet hreturns _).then fun _ _ => ?_
  refine (zeros_inStep returns.length).then fun _ _ => ?_
  refine hbody.then fun _ _ => ?_
  refine (expectHeight_inStep line line' _ "function body").then fun _ _ => ?_
  refine (unwindFrame_inStep rfl params.length returns.length).then fun _ _ => ?_
  refine (setLine_inStep line line').then fun _ _ => ?_
  refine Beside.then (Q := GenState.Parallel l) (((jump_writes _).beside (jump_writes _)).mono
    (fun _ _ hst => hst.toParallel) fun _ _ hst => hst) fun _ _ => ?_
  refine ((emit_writes (.label after)).beside (emit_writes (.label after'))).then fun _ _ => ?_
  -- What remains does not change the height of the outer function.
  have hexpect : ∀ {C : Type} [Target C] (line : Nat) (height : Int) (u : GenState C),
      Ensures (expectHeight line height "function definition") u fun _ => Passes 0 u := by
    intro C _ line height u
    refine expectHeight_ensures.mono ?_
    rintro _ _ ⟨rfl, -⟩
    exact .refl _
  exact Beside.passes (fun _ _ hst => hst) (fun s => hexpect _ _ s) fun t => hexpect _ _ t

/-- In particular a definition keeps the states in step. -/
theorem Stmt.generate_func_inStep (hparams : params.map (·.name) = params'.map (·.name))
    (hreturns : returns.map (·.name) = returns'.map (·.name)) (hmeet : l.Meet 1 i j)
    (hbody : InStep l (body.generate c ⟨i, none, name⟩ (i + 1) : Gen A Unit)
      (body'.generate c' ⟨j, none, name⟩ (j + 1) : Gen B Unit)) :
    InStep l ((Stmt.func line name params returns body).generate c p i : Gen A Unit)
      ((Stmt.func line' name params' returns' body').generate c' q j : Gen B Unit) := by
  intro s t hst a s' b t' hm hm'
  refine ⟨trivial, (Stmt.generate_func_beside hparams hreturns hmeet hbody s t hst.toParallel
    a s' b t' hm hm').2, ?_⟩
  rw [Stmt.generate_func_height a s' hm, Stmt.generate_func_height b t' hm', hst.height]

/-- Corresponding places at the beginning of corresponding functions. -/
theorem Place.Abreast.enterFunction (hc : c.Comparable c') {scope scope' : Nat}
    (hparams : params.map (TypedName.onLine n) = params'.map (TypedName.onLine n))
    (hreturns : returns.map (TypedName.onLine n) = returns'.map (TypedName.onLine n))
    (h : c.scopes.get? i
      = some ⟨some scope, true, (TypedName.symbols (params ++ returns)).reverse⟩)
    (h' : c'.scopes.get? j
      = some ⟨some scope', true, (TypedName.symbols (params' ++ returns')).reverse⟩)
    (hmeet : l.Meet 1 i j) : Place.Abreast l c c' ⟨i, none, name⟩ ⟨j, none, name⟩ := by
  have hsymbols :
      TypedName.symbols (params ++ returns) = TypedName.symbols (params' ++ returns') := by
    rw [← TypedName.symbols_onLine (n := n), List.map_append, hparams, hreturns, ← List.map_append,
      TypedName.symbols_onLine]
  rw [← hsymbols] at h'
  exact ⟨hmeet, rfl, rfl, .function hc.ordered hc.ordered' h h' hmeet⟩

end Functions

/-- Variables that differ in their lines have the same names. -/
theorem TypedName.names_eq {vars vars' : List TypedName}
    (h : vars.map (TypedName.onLine n) = vars'.map (TypedName.onLine n)) :
    vars.map (·.name) = vars'.map (·.name) := by
  rw [← TypedName.name_onLine (n := n), h, TypedName.name_onLine]

/-- A block is generated in step in two programs, if it is the same in both up to lines. -/
def Block.Shared (A B : Type) [Target A] [Target B] (l : Lanes) (c c' : GenContext) (n : Nat)
    (b : Block) : Prop :=
  ∀ ⦃b' : Block⦄ ⦃p q : Place⦄ ⦃i j : Nat⦄, b.onLine n = b'.onLine n →
    b.Charted c.dialect c.scopes (some p.scope) i →
    b'.Charted c.dialect c'.scopes (some q.scope) j → p.Abreast l c c' q →
    l.Meet b.scopeCount i j →
    InStep l (b.generate c p i : Gen A Unit) (b'.generate c' q j : Gen B Unit)

/-- A statement is generated in step in two programs, if it is the same in both up to lines. -/
def Stmt.Shared (A B : Type) [Target A] [Target B] (l : Lanes) (c c' : GenContext) (n : Nat)
    (s : Stmt) : Prop :=
  ∀ ⦃s' : Stmt⦄ ⦃p q : Place⦄ ⦃i j : Nat⦄, s.onLine n = s'.onLine n →
    s.Charted c.dialect c.scopes p.scope i → s'.Charted c.dialect c'.scopes q.scope j →
    p.Abreast l c c' q → l.Meet s.scopeCount i j →
    InStep l (s.generate c p i : Gen A Unit) (s'.generate c' q j : Gen B Unit)

/-- Statements that are shared one by one are shared in a row. -/
theorem Stmt.generateSeq_inStep : ∀ {stmts stmts' : List Stmt},
    (∀ s ∈ stmts, s.Shared A B l c c' n) → ∀ {p q : Place} {i j : Nat},
      Stmt.onLineSeq n stmts = Stmt.onLineSeq n stmts' →
      Stmt.ChartedSeq c.dialect c.scopes p.scope i stmts →
      Stmt.ChartedSeq c.dialect c'.scopes q.scope j stmts' → p.Abreast l c c' q →
      l.Meet (Stmt.scopeCountSeq stmts) i j →
      InStep l (Stmt.generateSeq c p i stmts : Gen A Unit)
        (Stmt.generateSeq c' q j stmts' : Gen B Unit)
  | [], [], _, p, q, i, j, _, _, _, _, _ => by
      rw [Stmt.generateSeq, Stmt.generateSeq]
      exact .pure trivial
  | [], _ :: _, _, p, q, i, j, hsame, _, _, _, _ => by
      simp only [Stmt.onLineSeq, reduceCtorEq] at hsame
  | _ :: _, [], _, p, q, i, j, hsame, _, _, _, _ => by
      simp only [Stmt.onLineSeq, reduceCtorEq] at hsame
  | s :: rest, s' :: rest', hall, p, q, i, j, hsame, h, h', hp, hmeet => by
      rcases List.forall_mem_cons.mp hall with ⟨hstmt, hall⟩
      simp only [Stmt.onLineSeq, List.cons.injEq] at hsame
      rw [Stmt.ChartedSeq] at h h'
      -- The first statement has the first scopes of the range.
      rw [Stmt.scopeCountSeq] at hmeet
      have hcount : s.scopeCount = s'.scopeCount := by
        rw [← Stmt.scopeCount_onLine (n := n), hsame.1, Stmt.scopeCount_onLine]
      rw [← hcount] at h'
      rw [Stmt.generateSeq, Stmt.generateSeq, ← hcount]
      refine (hstmt hsame.1 h.1 h'.1 hp (hmeet.sub 0 (by omega))).then fun _ _ => ?_
      exact Stmt.generateSeq_inStep hall hsame.2 h.2 h'.2 hp (hmeet.sub _ (by omega))

variable [Target.Lawful A] [Target.Lawful B]

/-- A block is shared if its statements are. -/
theorem Block.Shared.of_stmts (hc : c.Comparable c') {line : Nat} {stmts : List Stmt}
    (hall : ∀ s ∈ stmts, s.Shared A B l c c' n) : Block.Shared A B l c c' n ⟨line, stmts⟩ := by
  rintro ⟨line', stmts'⟩ p q i j hsame h h' hp hmeet
  simp only [Block.onLine, Block.mk.injEq, true_and] at hsame
  rw [Block.Charted] at h h'
  rw [Block.scopeCount, Nat.add_comm] at hmeet
  rcases hp.enter hc hsame h.1 h'.1 (hmeet.first (by omega)) with ⟨hin, hcount⟩
  rw [Block.generate, Block.generate]
  refine height_beside.same fun before => ?_
  refine (Stmt.generateSeq_inStep hall hsame h.2 h'.2 hin (hmeet.sub 1 (by omega))).then
    fun _ _ => ?_
  exact closeBlock_inStep hc.dialect hcount line line' before

/-- Two runs hand out as many labels for the cases of a switch. -/
theorem Case.generateTests_inStep : ∀ {cases cases' : List Case},
    (∀ x ∈ cases, x.body.Shared A B l c c' n) → ∀ {p q : Place} {i j : Nat},
      Case.onLineSeq n cases = Case.onLineSeq n cases' →
      Case.ChartedSeq c.dialect c.scopes p.scope i cases →
      Case.ChartedSeq c.dialect c'.scopes q.scope j cases' → p.Abreast l c c' q →
      l.Meet (Case.scopeCountSeq cases) i j →
      Beside (GenState.Abreast l) (Case.generateTests c p i cases : Gen A (List Nat))
        (Case.generateTests c' q j cases' : Gen B (List Nat))
        (fun ids ids' => ids'.length = ids.length) (GenState.Abreast l)
  | [], [], _, p, q, i, j, _, _, _, _, _ => by
      rw [Case.generateTests, Case.generateTests]
      exact .pure rfl
  | [], ⟨_, _, _⟩ :: _, _, p, q, i, j, hsame, _, _, _, _ => by
      simp only [Case.onLineSeq, reduceCtorEq] at hsame
  | ⟨_, _, _⟩ :: _, [], _, p, q, i, j, hsame, _, _, _, _ => by
      simp only [Case.onLineSeq, reduceCtorEq] at hsame
  | ⟨_, value, body⟩ :: rest, ⟨_, value', body'⟩ :: rest', hall, p, q, i, j, hsame, h, h', hp,
      hmeet => by
      rcases List.forall_mem_cons.mp hall with ⟨(hshared : body.Shared A B l c c' n), hall⟩
      simp only [Case.onLineSeq, List.cons.injEq, Case.mk.injEq, true_and] at hsame
      rcases hsame with ⟨⟨hvalue, hbody⟩, hrest⟩
      rw [Case.ChartedSeq] at h h'
      rw [Case.scopeCountSeq] at hmeet
      have hscopes := Block.scopeCount_eq hbody
      rw [← hscopes] at h'
      have htests := Case.generateTests_inStep hall hrest h.2 h'.2 hp (hmeet.sub _ (by omega))
      -- Both cases are defaults, or neither is.
      cases value with
      | none =>
          cases value' with
          | none =>
              rw [Case.generateTests, Case.generateTests, ← hscopes]
              exact (hshared hbody h.1 h'.1 hp (hmeet.sub 0 (by omega))).then fun _ _ => htests
          | some x' => simp only [Option.map_none, Option.map_some, reduceCtorEq] at hvalue
      | some x =>
          cases value' with
          | none => simp only [Option.map_none, Option.map_some, reduceCtorEq] at hvalue
          | some x' =>
              rw [Case.generateTests, Case.generateTests, ← hscopes]
              refine (literal_inStep x x').then fun _ _ => ?_
              refine (instruction_inStep (.dup 1)).then fun _ _ => ?_
              refine (instruction_inStep .eq).then fun _ _ => ?_
              refine newLabel_inStep.then fun id id' => ?_
              refine (jumpToIf_inStep id id').then fun _ _ => ?_
              exact htests.bind fun ids ids' hids => .pure (congrArg Nat.succ hids)

/-- The bodies of both sides, with as many labels left. -/
theorem Case.generateBodies_inStep (after after' : Nat) : ∀ {cases cases' : List Case},
    (∀ x ∈ cases, x.body.Shared A B l c c' n) → ∀ {p q : Place} {i j : Nat} {ids ids' : List Nat},
      ids'.length = ids.length → Case.onLineSeq n cases = Case.onLineSeq n cases' →
      Case.ChartedSeq c.dialect c.scopes p.scope i cases →
      Case.ChartedSeq c.dialect c'.scopes q.scope j cases' → p.Abreast l c c' q →
      l.Meet (Case.scopeCountSeq cases) i j →
      InStep l (Case.generateBodies c p i after ids cases : Gen A Unit)
        (Case.generateBodies c' q j after' ids' cases' : Gen B Unit)
  | [], [], _, p, q, i, j, ids, ids', _, _, _, _, _, _ => by
      rw [Case.generateBodies, Case.generateBodies]
      · exact .pure trivial
      all_goals simp
  | [], ⟨_, _, _⟩ :: _, _, p, q, i, j, ids, ids', _, hsame, _, _, _, _ => by
      simp only [Case.onLineSeq, reduceCtorEq] at hsame
  | ⟨_, _, _⟩ :: _, [], _, p, q, i, j, ids, ids', _, hsame, _, _, _, _ => by
      simp only [Case.onLineSeq, reduceCtorEq] at hsame
  | ⟨_, value, body⟩ :: rest, ⟨_, value', body'⟩ :: rest', hall, p, q, i, j, ids, ids', hids,
      hsame, h, h', hp, hmeet => by
      rcases List.forall_mem_cons.mp hall with ⟨(hshared : body.Shared A B l c c' n), hall⟩
      simp only [Case.onLineSeq, List.cons.injEq, Case.mk.injEq, true_and] at hsame
      rcases hsame with ⟨⟨hvalue, hbody⟩, hrest⟩
      rw [Case.ChartedSeq] at h h'
      rw [Case.scopeCountSeq] at hmeet
      have hscopes := Block.scopeCount_eq hbody
      rw [← hscopes] at h'
      -- The cases behind this one.
      have hothers : ∀ ids ids' : List Nat, ids'.length = ids.length →
          InStep l (Case.generateBodies c p (i + body.scopeCount) after ids rest : Gen A Unit)
            (Case.generateBodies c' q (j + body.scopeCount) after' ids' rest' : Gen B Unit) :=
        fun ids ids' hids => Case.generateBodies_inStep after after' hall hids hrest h.2 h'.2 hp
          (hmeet.sub _ (by omega))
      cases value with
      | none =>
          cases value' with
          | none =>
              rw [Case.generateBodies, Case.generateBodies, ← hscopes]
              exact hothers ids ids' hids
          | some x' => simp only [Option.map_none, Option.map_some, reduceCtorEq] at hvalue
      | some x =>
          cases value' with
          | none => simp only [Option.map_none, Option.map_some, reduceCtorEq] at hvalue
          | some x' =>
              -- Both sides have run out of labels, or neither has.
              cases ids with
              | nil =>
                  obtain rfl := List.length_eq_zero_iff.mp hids
                  rw [Case.generateBodies, Case.generateBodies]
                  · exact .pure trivial
                  all_goals simp
              | cons id ids =>
                  cases ids' with
                  | nil => exact absurd hids (by rintro ⟨⟩)
                  | cons id' ids' =>
                      have hids : ids'.length = ids.length := Nat.succ.inj hids
                      -- So both bodies are the last one, or neither is.
                      have hempty : ids'.isEmpty = ids.isEmpty := by
                        rw [Bool.eq_iff_iff, List.isEmpty_iff, List.isEmpty_iff,
                          ← List.length_eq_zero_iff, ← List.length_eq_zero_iff, hids]
                      rw [Case.generateBodies, Case.generateBodies, ← hscopes, hempty]
                      refine (label_inStep id id').then fun _ _ => ?_
                      refine (hshared hbody h.1 h'.1 hp (hmeet.sub 0 (by omega))).then
                        fun _ _ => ?_
                      exact .ite (fun _ => hothers ids ids' hids) fun _ =>
                        (jumpTo_inStep after after' 0).then fun _ _ => hothers ids ids' hids

-- A statement that is the same as another one up to lines is built in the same way, so the
-- cases below come in pairs of which all but one are absurd.
namespace Stmt.Shared

variable {line : Nat} {body : Block}

/-- An expression that is a statement. -/
theorem expr (hc : c.Comparable c') {e : Expr} : (Stmt.expr line e).Shared A B l c c' n := by
  intro s' p q i j hsame h h' hp _
  cases s' with
  | expr line' e' =>
      simp only [Stmt.onLine, Stmt.expr.injEq, true_and] at hsame
      rw [Stmt.Charted] at h h'
      rcases h with ⟨k, hk, hzero⟩
      rcases h' with ⟨k', hk', hzero'⟩
      obtain rfl := hzero.resolve_right hc.strict
      obtain rfl := hzero'.resolve_right hc.strict
      rw [Stmt.generate, Stmt.generate, hc.dialect]
      refine (setLine_inStep line line').then fun _ _ => height_beside.same fun before => ?_
      refine (Expr.generate_inStep hc.dialect hp e e' hsame hk hk').then fun _ _ => ?_
      exact .ite (fun _ => expectHeight_inStep line line' before _) fun _ => .pure trivial
  | _ => simp only [Stmt.onLine, reduceCtorEq] at hsame

/-- An assignment. -/
theorem assign (hc : c.Comparable c') {targets : List Identifier} {value : Expr} :
    (Stmt.assign line targets value).Shared A B l c c' n := by
  intro s' p q i j hsame h h' hp _
  cases s' with
  | assign line' targets' value' =>
      simp only [Stmt.onLine, Stmt.assign.injEq, true_and] at hsame
      rw [Stmt.Charted] at h h'
      have hnames : targets.map (·.name) = targets'.map (·.name) := by
        rw [← Identifier.name_onLine (n := n), hsame.1, Identifier.name_onLine]
      have hlength : targets'.length = targets.length := by
        simpa only [List.length_map] using congrArg List.length hnames.symm
      rw [hlength] at h'
      rw [Stmt.generate, Stmt.generate]
      refine (setLine_inStep line line').then fun _ _ => ?_
      refine (Expr.generate_inStep hc.dialect hp value value' hsame.2 h.1 h'.1).then fun _ _ => ?_
      exact assignVariables_inStep hp targets targets' hnames h.2
  | _ => simp only [Stmt.onLine, reduceCtorEq] at hsame

/-- A declaration, whose variables get slots in the scopes of the two places. -/
theorem decl (hc : c.Comparable c') {vars : List TypedName} {value : Option Expr} :
    (Stmt.decl line vars value).Shared A B l c c' n := by
  intro s' p q i j hsame h h' hp _
  cases s' with
  | decl line' vars' value' =>
      simp only [Stmt.onLine, Stmt.decl.injEq, true_and] at hsame
      rw [Stmt.Charted] at h h'
      have hnames := TypedName.names_eq hsame.1
      have hlength : vars'.length = vars.length := by
        simpa only [List.length_map] using congrArg List.length hnames.symm
      rw [Stmt.generate, Stmt.generate, hlength]
      refine (setLine_inStep line line').then fun _ _ => height_beside.same fun before => ?_
      -- What comes behind the value, or behind the zeros.
      have hrest : InStep l
          (do
            expectHeight line (before + vars.length) "variable declaration"
            declareSlots c p before vars : Gen A Unit)
          (do
            expectHeight line' (before + vars.length) "variable declaration"
            declareSlots c' q before vars' : Gen B Unit) := by
        refine (expectHeight_inStep line line' _ _).then fun _ _ => ?_
        rw [declareSlots_eq vars before h.1, declareSlots_eq vars' before h'.1]
        exact setSlots_inStep hp.scope hnames before
      -- Either both have a value or none.
      cases value with
      | none =>
          cases value' with
          | none => exact (zeros_inStep vars.length).then fun _ _ => hrest
          | some e' => exact absurd hsame.2 (by simp)
      | some e =>
          cases value' with
          | none => exact absurd hsame.2 (by simp)
          | some e' =>
              have he : e.onLine n = e'.onLine n := Option.some.inj hsame.2
              have hcount' := h'.2 e' rfl
              rw [hlength] at hcount'
              exact (Expr.generate_inStep hc.dialect hp e e' he (h.2 e rfl) hcount').then
                fun _ _ => hrest
  | _ => simp only [Stmt.onLine, reduceCtorEq] at hsame

/-- A definition. -/
theorem func (hc : c.Comparable c') {name : String} {params returns : List TypedName}
    (hshared : body.Shared A B l c c' n) :
    (Stmt.func line name params returns body).Shared A B l c c' n := by
  intro s' p q i j hsame h h' hp hmeet
  cases s' with
  | func line' name' params' returns' body' =>
      simp only [Stmt.onLine, Stmt.func.injEq, true_and] at hsame
      obtain ⟨rfl, hparams, hreturns, hbody⟩ := hsame
      rw [Stmt.Charted] at h h'
      rw [Stmt.scopeCount, Nat.add_comm] at hmeet
      have hfirst : l.Meet 1 i j := hmeet.first (by omega)
      refine Stmt.generate_func_inStep (TypedName.names_eq hparams) (TypedName.names_eq hreturns)
        hfirst ?_
      exact hshared (p := ⟨i, none, name⟩) (q := ⟨j, none, name⟩) hbody h.2 h'.2
        (.enterFunction hc hparams hreturns h.1 h'.1 hfirst) (hmeet.sub 1 (by omega))
  | _ => simp only [Stmt.onLine, reduceCtorEq] at hsame

/-- A condition. -/
theorem cond (hc : c.Comparable c') {test : Expr} (hshared : body.Shared A B l c c' n) :
    (Stmt.cond line test body).Shared A B l c c' n := by
  intro s' p q i j hsame h h' hp hmeet
  cases s' with
  | cond line' test' body' =>
      simp only [Stmt.onLine, Stmt.cond.injEq, true_and] at hsame
      rw [Stmt.Charted] at h h'
      rw [Stmt.scopeCount] at hmeet
      rw [Stmt.generate, Stmt.generate]
      refine (setLine_inStep line line').then fun _ _ => height_beside.same fun before => ?_
      refine (Expr.generate_inStep hc.dialect hp test test' hsame.1 h.1 h'.1).then fun _ _ => ?_
      refine (instruction_inStep .iszero).then fun _ _ => ?_
      refine newLabel_inStep.then fun after after' => ?_
      refine (jumpToIf_inStep after after').then fun _ _ => ?_
      refine (hshared hsame.2 h.2 h'.2 hp hmeet).then fun _ _ => ?_
      refine (label_inStep after after').then fun _ _ => ?_
      exact expectHeight_inStep line line' before "if"
  | _ => simp only [Stmt.onLine, reduceCtorEq] at hsame

/-- A switch, whose labels agree in number. -/
theorem switch (hc : c.Comparable c') {subject : Expr} {cases : List Case}
    (hall : ∀ x ∈ cases, x.body.Shared A B l c c' n) :
    (Stmt.switch line subject cases).Shared A B l c c' n := by
  intro s' p q i j hsame h h' hp hmeet
  cases s' with
  | switch line' subject' cases' =>
      simp only [Stmt.onLine, Stmt.switch.injEq, true_and] at hsame
      rw [Stmt.Charted] at h h'
      rw [Stmt.scopeCount] at hmeet
      rw [Stmt.generate, Stmt.generate]
      refine (setLine_inStep line line').then fun _ _ => height_beside.same fun before => ?_
      refine (Expr.generate_inStep hc.dialect hp subject subject' hsame.1 h.1 h'.1).then
        fun _ _ => ?_
      refine newLabel_inStep.then fun after after' => ?_
      refine (Case.generateTests_inStep hall hsame.2 h.2 h'.2 hp hmeet).bind
        fun ids ids' hids => ?_
      -- From here on, the bodies with their labels.
      refine (jumpTo_inStep after after' 0).then fun _ _ => ?_
      refine (Case.generateBodies_inStep after after' hall hids hsame.2 h.2 h'.2 hp hmeet).then
        fun _ _ => ?_
      refine (label_inStep after after').then fun _ _ => ?_
      exact (pops_inStep 1).then fun _ _ => expectHeight_inStep line line' before "switch"
  | _ => simp only [Stmt.onLine, reduceCtorEq] at hsame

/-- A loop, whose init block opens a scope for all of its parts. -/
theorem loop (hc : c.Comparable c') {preLine : Nat} {pre : List Stmt} {test : Expr} {post : Block}
    (hall : ∀ s ∈ pre, s.Shared A B l c c' n) (hpost : post.Shared A B l c c' n)
    (hbody : body.Shared A B l c c' n) :
    (Stmt.loop line ⟨preLine, pre⟩ test post body).Shared A B l c c' n := by
  intro s' p q i j hsame h h' hp hmeet
  cases s' with
  | loop line' init' test' post' body' =>
      rcases init' with ⟨preLine', pre'⟩
      simp only [Stmt.onLine, Block.onLine, Stmt.loop.injEq, Block.mk.injEq, true_and] at hsame
      rcases hsame with ⟨hsamePre, hsameTest, hsamePost, hsameBody⟩
      rw [Stmt.Charted] at h h'
      rcases h with ⟨hscope, hcharts, hcount, hcharts₁, hcharts₂⟩
      rcases h' with ⟨hscope', hcharts', hcount', hcharts₁', hcharts₂'⟩
      rw [Stmt.scopeCount, Block.scopeCount] at hmeet
      -- The scopes of the init block come first, then those of the body and of the post part.
      have hscopes : Stmt.scopeCountSeq pre = Stmt.scopeCountSeq pre' := by
        rw [← Stmt.scopeCountSeq_onLine (n := n), hsamePre, Stmt.scopeCountSeq_onLine]
      have hscopes₁ := Block.scopeCount_eq hsameBody
      rw [← hscopes] at hcharts₁' hcharts₂'
      rw [← hscopes₁] at hcharts₂'
      rcases hp.enter hc hsamePre hscope hscope' (hmeet.first (by omega)) with ⟨hin, hvars⟩
      rw [Stmt.generate, Stmt.generate, ← hscopes, ← hscopes₁]
      refine (setLine_inStep line line').then fun _ _ => height_beside.same fun before => ?_
      -- The init block stands in scopes that meet again.
      refine (Stmt.generateSeq_inStep hall hsamePre hcharts hcharts' hin
        (hmeet.sub 1 (by omega))).then fun _ _ => ?_
      refine newLabel_inStep.then fun start start' => ?_
      refine newLabel_inStep.then fun again again' => ?_
      refine newLabel_inStep.then fun after after' => ?_
      -- Behind it the condition.
      refine (setLine_inStep line line').then fun _ _ => ?_
      refine (label_inStep start start').then fun _ _ => ?_
      refine (Expr.generate_inStep hc.dialect hin test test' hsameTest hcount hcount').then
        fun _ _ => ?_
      refine (instruction_inStep .iszero).then fun _ _ => ?_
      refine (jumpToIf_inStep after after').then fun _ _ => ?_
      refine height_beside.same fun top => ?_
      -- The targets of jumps out of the body are at the same height.
      have hinside : Place.Abreast l c c' ⟨i, some ⟨after, again, top⟩, p.function⟩
          ⟨j, some ⟨after', again', top⟩, q.function⟩ := ⟨hin.scope, hin.function, rfl, hin.sees⟩
      refine (hbody hsameBody hcharts₁ hcharts₁' hinside ?_).then fun _ _ => ?_
      · rw [Nat.add_assoc, Nat.add_assoc]
        exact hmeet.sub _ (by omega)
      refine (label_inStep again again').then fun _ _ => ?_
      refine (hpost hsamePost hcharts₂ hcharts₂' hin ?_).then fun _ _ => ?_
      · rw [Nat.add_assoc, Nat.add_assoc, Nat.add_assoc, Nat.add_assoc]
        exact hmeet.sub _ (by omega)
      refine (jumpTo_inStep start start' 0).then fun _ _ => ?_
      refine (label_inStep after after').then fun _ _ => ?_
      exact closeBlock_inStep hc.dialect hvars preLine preLine' before
  | _ => simp only [Stmt.onLine, reduceCtorEq] at hsame

/-- A break. -/
theorem brk : (Stmt.brk line).Shared A B l c c' n := by
  intro s' p q i j hsame _ _ hp _
  cases s' with
  | brk line' =>
      rw [Stmt.generate, Stmt.generate]
      exact (setLine_inStep line line').then fun _ _ => leaveBody_inStep hp line line' _ _
  | _ => simp only [Stmt.onLine, reduceCtorEq] at hsame

/-- A continue. -/
theorem cont : (Stmt.cont line).Shared A B l c c' n := by
  intro s' p q i j hsame _ _ hp _
  cases s' with
  | cont line' =>
      rw [Stmt.generate, Stmt.generate]
      exact (setLine_inStep line line').then fun _ _ => leaveBody_inStep hp line line' _ _
  | _ => simp only [Stmt.onLine, reduceCtorEq] at hsame

/-- A block opens a scope on both sides. -/
theorem block (hshared : body.Shared A B l c c' n) :
    (Stmt.block body).Shared A B l c c' n := by
  intro s' p q i j hsame h h' hp hmeet
  cases s' with
  | block body' =>
      rcases body with ⟨line, stmts⟩
      rcases body' with ⟨line', stmts'⟩
      simp only [Stmt.onLine, Stmt.block.injEq] at hsame
      rw [Stmt.Charted] at h h'
      rw [Stmt.scopeCount] at hmeet
      rw [Stmt.generate, Stmt.generate]
      exact (setLine_inStep line line').then fun _ _ => hshared hsame h h' hp hmeet
  | _ => simp only [Stmt.onLine, reduceCtorEq] at hsame

/-- A label. -/
theorem label {name : String} : (Stmt.label line name).Shared A B l c c' n := by
  intro s' p q i j hsame _ _ hp _
  cases s' with
  | label line' name' =>
      rw [Stmt.generate, Stmt.generate]
      refine (setLine_inStep line line').then fun _ _ => ?_
      refine lookup_beside.bind fun found found' _ => ?_
      exact ((labelOf_names _).inStep (labelOf_names _)).then fun id id' => label_inStep id id'
  | _ => simp only [Stmt.onLine, reduceCtorEq] at hsame

/-- An assignment from the stack. -/
theorem stackAssign {target : Identifier} :
    (Stmt.stackAssign line target).Shared A B l c c' n := by
  intro s' p q i j hsame h _ hp _
  cases s' with
  | stackAssign line' target' =>
      simp only [Stmt.onLine, Stmt.stackAssign.injEq, true_and] at hsame
      have hname : (target.onLine n).name = (target'.onLine n).name := by rw [hsame]
      obtain hname : target.name = target'.name := hname
      rw [Stmt.Charted] at h
      rw [Stmt.generate, Stmt.generate, ← hname]
      exact (setLine_inStep line line').then fun _ _ =>
        assignVariable_inStep hp line line' (h target List.mem_cons_self)
  | _ => simp only [Stmt.onLine, reduceCtorEq] at hsame

end Stmt.Shared

omit [Target.Lawful A] [Target.Lawful B] in
mutual

/-- The same block is generated in step in two programs. -/
theorem Block.shared [Target.Lawful A] [Target.Lawful B] (hc : c.Comparable c') :
    ∀ b : Block, b.Shared A B l c c' n
  | ⟨_, stmts⟩ => .of_stmts hc (Stmt.sharedSeq hc stmts)
termination_by structural b => b

/-- All statements of a list are shared. -/
theorem Stmt.sharedSeq [Target.Lawful A] [Target.Lawful B] (hc : c.Comparable c') :
    ∀ stmts : List Stmt,
    ∀ s ∈ stmts, s.Shared A B l c c' n
  | [] => fun _ h => absurd h List.not_mem_nil
  | s :: rest => List.forall_mem_cons.mpr ⟨Stmt.shared hc s, Stmt.sharedSeq hc rest⟩
termination_by structural stmts => stmts

/-- The same statement is generated in step in two programs. -/
theorem Stmt.shared [Target.Lawful A] [Target.Lawful B] (hc : c.Comparable c') :
    ∀ s : Stmt, s.Shared A B l c c' n
  | .expr _ _ => .expr hc
  | .assign _ _ _ => .assign hc
  | .decl _ _ _ => .decl hc
  | .func _ _ _ _ body => .func hc (Block.shared hc body)
  | .cond _ _ body => .cond hc (Block.shared hc body)
  | .switch _ _ cases => .switch hc (Case.sharedSeq hc cases)
  | .loop _ ⟨_, pre⟩ _ post body =>
      .loop hc (Stmt.sharedSeq hc pre) (Block.shared hc post) (Block.shared hc body)
  | .brk _ => .brk
  | .cont _ => .cont
  | .block b => .block (Block.shared hc b)
  | .label _ _ => .label
  | .stackAssign _ _ => .stackAssign
termination_by structural s => s

/-- All bodies of a switch are shared. -/
theorem Case.sharedSeq [Target.Lawful A] [Target.Lawful B] (hc : c.Comparable c') :
    ∀ cases : List Case,
    ∀ x ∈ cases, x.body.Shared A B l c c' n
  | [] => fun _ h => absurd h List.not_mem_nil
  | ⟨_, _, body⟩ :: rest => List.forall_mem_cons.mpr ⟨Block.shared hc body, Case.sharedSeq hc rest⟩
termination_by structural cases => cases

end

/-- The same function reports the same in two programs. -/
theorem Generates.same (hc : c.Comparable c') {f f' : LocatedFunction}
    (hsame : f.function.stmt.onLine n = f'.function.stmt.onLine n)
    {errors errors' : List StackTooDeep} (h : Generates A c f errors)
    (h' : Generates B c' f' errors') : errors = errors' := by
  rcases f with ⟨⟨line, name, params, returns, body⟩, _, i⟩
  rcases f' with ⟨⟨line', name', params', returns', body'⟩, _, j⟩
  rcases h with ⟨p, s, t, hchart, hunused, hrun, herrors⟩
  rcases h' with ⟨q, s', t', hchart', hunused', hrun', herrors'⟩
  simp only [FunctionDef.stmt, Stmt.onLine, Stmt.func.injEq, true_and] at hsame
  obtain ⟨rfl, hparams, hreturns, hbody⟩ := hsame
  simp only [FunctionDef.stmt, Stmt.scopeCount] at hunused hunused'
  simp only [FunctionDef.stmt, Stmt.Charted, hc.dialect] at hchart hchart'
  have hscopes := Block.scopeCount_eq hbody
  have hmeet : Lanes.Meet ⟨i, j, 1 + body.scopeCount, s.tooDeep, s'.tooDeep⟩
      (1 + body.scopeCount) i j := ⟨0, rfl, rfl, (Nat.zero_add _).le⟩
  have hfirst := hmeet.first (by omega)
  have hbodies : InStep _ (body.generate c ⟨i, none, name⟩ (i + 1) : Gen A Unit)
      (body'.generate c' ⟨j, none, name⟩ (j + 1) : Gen B Unit) :=
    Block.shared hc body (p := ⟨i, none, name⟩) (q := ⟨j, none, name⟩) hbody hchart.2 hchart'.2
      (.enterFunction hc hparams hreturns hchart.1 hchart'.1 hfirst) (hmeet.sub 1 (by omega))
  -- In the beginning no variable of the function has a slot, and nothing is reported for it.
  have hstart : s.Parallel ⟨i, j, 1 + body.scopeCount, s.tooDeep, s'.tooDeep⟩ s' := by
    refine ⟨fun i' j' ⟨m, hi, hj, hm⟩ x => ?_, [], rfl, rfl⟩
    obtain rfl : i' = i + m := hi
    obtain rfl : j' = j + m := hj
    have hm : m + 1 ≤ 1 + body.scopeCount := hm
    rw [hunused (i + m) ⟨by omega, by omega⟩, hunused' (j + m) ⟨by omega, by omega⟩]
  rcases (Stmt.generate_func_beside (TypedName.names_eq hparams) (TypedName.names_eq hreturns)
    hfirst hbodies s s' hstart () t () t' hrun hrun').2.reports with ⟨reported, ht, ht'⟩
  rw [herrors] at ht
  rw [herrors'] at ht'
  exact (List.append_cancel_right ht).trans (List.append_cancel_right ht').symm

end Statements

end YulToolchain
