import YulToolchain.Proofs.Bytecode.Assignment
import YulToolchain.Proofs.CodeGen.DryRun
import YulToolchain.Proofs.Execution.Calls
import YulToolchain.Proofs.Static.Chart

/-!
# Who Reports

The reports of a program, taken apart by functions.

Generation walks over a program once, and a report carries the name of the function in
whose body the access stands. So a run contains a run for every function that is defined
(`Generates`), and what it reports for the function is what that run reports for it, if no
other function has the name (`Attributed`).

When the run for a function begins, none of the variables inside it has a slot: scopes are
entered once, each with a number of its own. This has to be carried along, since cases of a
switch are not generated in the order of the text (`Case.locatedOf`, `Case.opensOf`).

Nothing is asked of the code but that its scopes fit its text.

## Main definitions

* `Passes`: What pieces of code without variables do to the height.
* `OwnReports`: A piece of code that reports for one function only.
* `Generates`: What the run for a function reports.
* `Attributed`: All reports of a piece of code are those of its functions.
* `Tallies`: What generating a piece of code does to slots and reports.

## Theorems

* `Expr.generate_stays`: Expressions report for the function they stand in.
* `Block.tallied`, `Stmt.tallied`: Reports of blocks and statements are attributed.
* `generate_attributed`: So are those of a program.
-/

namespace YulToolchain

open Gen

/-- The statement that defines a function. -/
def FunctionDef.stmt (f : FunctionDef) : Stmt := .func f.line f.name f.params f.returns f.body

/-- A scope is one of those opened from a number on. -/
def ScopeRange (next count i : Nat) : Prop := next ≤ i ∧ i < next + count

theorem ScopeRange.mono {next count next' count' i : Nat} (h : ScopeRange next count i)
    (hfirst : next' ≤ next) (hlast : next + count ≤ next' + count') : ScopeRange next' count' i :=
  ⟨hfirst.trans h.1, h.2.trans_le hlast⟩

theorem ScopeRange.first {next count : Nat} (h : 0 < count) : ScopeRange next count next :=
  ⟨le_rfl, Nat.lt_add_of_pos_right h⟩

theorem ScopeRange.apart {next count next' count' i : Nat} (h : ScopeRange next count i)
    (hlast : next' + count' ≤ next) : ¬ ScopeRange next' count' i :=
  fun h' => absurd (h'.2.trans_le (hlast.trans h.1)) (Nat.lt_irrefl i)

/-- No variable of some scopes has a slot. -/
def GenState.Unused {A : Type} (s : GenState A) (P : Nat → Prop) : Prop :=
  ∀ i, P i → ∀ x, s.slots.lookup ⟨i, x⟩ = none

/-- The height changes by a difference, and nothing else that reports depend on. -/
structure Passes {A : Type} [Target A] (difference : Int) (s t : GenState A) : Prop where
  height : t.height = s.height + difference
  slots : t.slots = s.slots
  tooDeep : t.tooDeep = s.tooDeep

/-- No variable gets a slot, and all new reports are of one function. -/
structure OwnReports {A : Type} (function : String) (s t : GenState A) : Prop where
  slots : t.slots = s.slots
  reports : ∃ errors, t.tooDeep = errors ++ s.tooDeep ∧ ∀ e ∈ errors, e.function = function

section Staying

variable {A : Type} {function : String} {s t u : GenState A}

theorem OwnReports.refl (s : GenState A) : OwnReports function s s :=
  ⟨rfl, [], rfl, fun _ he => absurd he List.not_mem_nil⟩

/-- Reports one after the other. -/
theorem OwnReports.trans (h : OwnReports function s t) (h' : OwnReports function t u) :
    OwnReports function s u := by
  rcases h.reports with ⟨errors, ht, hall⟩
  rcases h'.reports with ⟨errors', hu, hall'⟩
  refine ⟨h'.slots.trans h.slots, errors' ++ errors, ?_, List.forall_mem_append.mpr ⟨hall', hall⟩⟩
  rw [hu, ht, List.append_assoc]

theorem Passes.refl [Target A] (s : GenState A) : Passes 0 s s := ⟨(add_zero _).symm, rfl, rfl⟩

theorem Passes.stays [Target A] {δ : Int} (h : Passes δ s t) : OwnReports function s t :=
  ⟨h.slots, [], h.tooDeep, fun _ he => absurd he List.not_mem_nil⟩

end Staying

namespace Gen

section Passing

variable {A : Type} [Target A] {s : GenState A} {c : GenContext}

/-- Writing reports nothing. -/
theorem Writes.passes {m : Gen A Unit} {δ : Int} (h : Writes m δ) :
    Ensures m s fun _ => Passes δ s := by
  rcases h s with ⟨a, hm, ha⟩
  intro _ t ht
  rw [hm] at ht
  cases ht
  exact ⟨ha, rfl, rfl⟩

theorem Names.passes {m : Gen A Nat} (h : Names m) : Ensures m s fun _ => Passes 0 s :=
  (h s).ensures.mono fun _ _ ht => ⟨ht.1.trans (add_zero _).symm, ht.2.1, ht.2.2⟩

variable [Target.Lawful A]

/-- A query passes. -/
theorem objectQuery_passes {line : Nat} {function : String} {args : List Expr} {own : Item}
    {attachment : Nat → Reference} (hown : own.stackEffect = 1) :
    Ensures (objectQuery c line function args own attachment) s fun _ => Passes 1 s := by
  refine objectName_ensures.bind ?_
  rintro name _ rfl
  split
  · exact (emit_writes own).passes.mono fun _ t ht => ⟨hown ▸ ht.height, ht.slots, ht.tooDeep⟩
  · split
    · rename_i id _
      exact (emit_writes (.reference (attachment id))).passes
    · exact Ensures.violation

/-- Setting the height passes. -/
theorem setHeight_passes (h : Int) : Ensures (setHeight h) s fun _ => Passes (h - s.height) s := by
  intro _ t ht
  cases ht
  refine ⟨?_, rfl, rfl⟩
  show Target.height (Target.setHeight h s.target) = s.height + (h - s.height)
  rw [Target.Lawful.height_setHeight]
  ring

end Passing

/-- A computation gives no variable a slot and reports for one function only. -/
def Stay {A α : Type} (function : String) (m : Gen A α) : Prop :=
  ∀ s, Ensures m s fun _ => OwnReports function s

section Rules

variable {A α β : Type} {fn : String}

theorem Stay.pure (a : α) : Stay fn (pure a : Gen A α) := fun s => Ensures.pure (.refl s)

theorem Stay.bind {m : Gen A α} {f : α → Gen A β} (hm : Stay fn m) (hf : ∀ a, Stay fn (f a)) :
    Stay fn (m >>= f) := fun s =>
  (hm s).bind fun a t ht => (hf a t).mono fun _ _ hu => ht.trans hu

theorem Stay.get {f : GenState A → Gen A α} (h : ∀ s, Stay fn (f s)) : Stay fn (get >>= f) :=
  fun s => Ensures.get (h s s)

theorem Stay.throw {e : Failure} : Stay fn (throw e : Gen A α) := fun _ => Ensures.throw

theorem Stay.violation {line : Nat} {fault : InternalFault} :
    Stay fn (violation line fault : Gen A α) := Stay.throw

theorem orStop_stay {ε : Type} {cause : ε → Cause} {r : Except ε α} :
    Stay fn (orStop cause r : Gen A α) := fun s => Ensures.orStop fun _ _ => .refl s

theorem lookup_stay (c : GenContext) (p : Place) (line : Nat) (x : String) :
    Stay fn (lookup c p line x : Gen A _) := fun s => Ensures.lookup fun _ _ => .refl s

variable [Target A]

theorem Writes.stay {m : Gen A Unit} {δ : Int} (h : Writes m δ) : Stay fn m := fun _ =>
  h.passes.mono fun _ _ ht => ht.stays

theorem Names.stay {m : Gen A Nat} (h : Names m) : Stay fn m := fun _ =>
  h.passes.mono fun _ _ ht => ht.stays

theorem height_stay : Stay fn (Gen.height : Gen A Int) := Stay.get fun _ => Stay.pure _

/-- Expecting a height stays. -/
theorem expectHeight_stay (line : Nat) (expected : Int) (place : String) :
    Stay fn (expectHeight line expected place : Gen A Unit) := by
  refine fun s => expectHeight_ensures.mono ?_
  rintro _ _ ⟨rfl, -⟩
  exact .refl _

end Rules

section Operations

variable {A : Type} [Target A] [Target.Lawful A] {c : GenContext} {p : Place} {fn : String}

/-- A report is for the function of the place. -/
theorem reportTooDeep_stay (name : String) (depth : Int) :
    Stay p.function (reportTooDeep p name depth : Gen A Unit) := by
  refine Stay.bind (fun s => ?_) fun _ => (emit_writes (.instruction .invalid)).stay
  rintro _ _ ⟨⟩
  exact ⟨rfl, [⟨p.function, name, depth⟩], rfl, List.forall_mem_singleton.mpr rfl⟩

/-- The search reports for the function of the place. -/
theorem distance?_stay (line : Nat) (x : String) (least limit : Int) :
    Stay p.function (distance? c p line x least limit : Gen A _) := by
  refine (lookup_stay c p line x).bind fun found => Stay.get fun s => ?_
  split
  · exact .violation
  · refine height_stay.bind fun h => ?_
    dsimp only
    split
    · exact .violation
    · split
      · exact (reportTooDeep_stay x _).bind fun _ => .pure none
      · exact .pure _

/-- Copying a variable reports for its own function. -/
theorem copyVariable_stay (line : Nat) (x : String) :
    Stay p.function (copyVariable c p line x : Gen A Unit) := by
  refine (distance?_stay line x 1 maxCopyDepth).bind fun r => ?_
  cases r with
  | none => exact (zeros_writes 1).stay
  | some distance => exact orStop_stay.bind fun op => (emit_writes (.instruction op)).stay

/-- Assigning reports for its own function. -/
theorem assignVariable_stay (line : Nat) (x : String) :
    Stay p.function (assignVariable c p line x : Gen A Unit) := by
  refine (distance?_stay line x 2 maxAssignDepth).bind fun r => ?_
  have hpop : Stay p.function (pops 1 : Gen A Unit) := (pops_writes 1).stay
  cases r with
  | none => exact hpop
  | some distance =>
      exact orStop_stay.bind fun op => (emit_writes (.instruction op)).stay.bind fun _ => hpop

theorem assignVariables_stay : ∀ targets : List Identifier,
    Stay p.function (assignVariables c p targets : Gen A Unit)
  | [] => .pure ()
  | x :: rest => (assignVariables_stay rest).bind fun _ => assignVariable_stay x.line x.name

/-- Leaving a body reports nothing. -/
theorem leaveBody_stay (line : Nat) (goal : LoopTargets → Nat) :
    Stay fn (leaveBody p line goal : Gen A Unit) := by
  rw [leaveBody]
  split
  · exact .violation
  · refine Stay.bind ?_ fun popped => (jumpTo_writes _ popped).stay
    exact height_stay.bind fun h => (pops_writes _).stay.bind fun _ => .pure _

theorem setHeight_stay (h : Int) : Stay fn (setHeight h : Gen A Unit) := fun _ =>
  (setHeight_passes h).mono fun _ _ ht => ht.stays

/-- Unwinding a frame reports for its own function. -/
theorem unwindFrame_stay (params returns : Nat) :
    Stay p.function (unwindFrame p params returns : Gen A Unit) := by
  refine height_stay.bind fun h => ?_
  split
  · exact .violation
  · split
    · exact (reportTooDeep_stay "" _).bind fun _ => setHeight_stay _
    · refine orStop_stay.bind fun r => ?_
      refine (instructions_writes r.1).stay.bind fun _ => ?_
      split
      · exact .pure ()
      · exact .violation

/-- Closing a block reports nothing. -/
theorem closeBlock_stay (scope line : Nat) (before : Int) :
    Stay fn (closeBlock c scope line before : Gen A Unit) := by
  refine (setLine_writes line).stay.bind fun _ => (pops_writes _).stay.bind fun _ => ?_
  split
  · exact expectHeight_stay line before "block"
  · exact .pure ()

theorem literal_stay (l : Literal) : Stay fn (Gen.literal l : Gen A Unit) := by
  rw [Gen.literal]
  split
  · exact (setLine_writes l.line).stay.bind fun _ => (emit_writes _).stay
  · exact .throw

theorem objectQuery_stay {line : Nat} {name : String} {args : List Expr} {own : Item}
    {attachment : Nat → Reference} (hown : own.stackEffect = 1) :
    Stay fn (objectQuery c line name args own attachment : Gen A Unit) := fun _ =>
  (objectQuery_passes hown).mono fun _ _ ht => ht.stays

end Operations

end Gen

section Expressions

variable {A : Type} [Target A] [Target.Lawful A] {c : GenContext} {p : Place}

omit [Target.Lawful A] in
mutual

/-- An expression reports for the function that it stands in. -/
theorem Expr.generate_stays [Target.Lawful A] :
    ∀ e : Expr, Stay p.function (e.generate c p : Gen A Unit)
  | .literal l => by
      rw [Expr.generate]
      exact literal_stay l
  | .ident line x => by
      rw [Expr.generate]
      refine (lookup_stay c p line x).bind fun ⟨d, symbol⟩ => ?_
      cases symbol with
      | var type => exact copyVariable_stay line x
      | label => exact (labelOf_names d).stay.bind fun id => (emit_writes _).stay
      | function params returns => exact .violation
  | .instr line op args => by
      rw [Expr.generate]
      exact (Expr.generateArgs_stays args).bind fun _ => (setLine_writes line).stay.bind fun _ =>
        (emit_writes (.instruction op)).stay
  | .call line x args => by
      rw [Expr.generate]
      split
      · rename_i b _
        split
        · exact (Expr.generateArgs_stays args).bind fun _ => (emit_writes _).stay
        · exact objectQuery_stay rfl
        · exact objectQuery_stay rfl
        · exact (Expr.generateArgs_stays args).bind fun _ => (emit_writes _).stay
        · split
          · exact (zeros_writes b.returns).stay
          · exact (Expr.generateArgs_stays args).bind fun _ =>
              (pops_writes args.length).stay.bind fun _ => (zeros_writes b.returns).stay
      · refine (lookup_stay c p line x).bind fun ⟨d, symbol⟩ => ?_
        cases symbol with
        -- A call pushes the label, evaluates the arguments and jumps.
        | function params returns =>
            refine newLabel_names.stay.bind fun back => (emit_writes _).stay.bind fun _ => ?_
            refine (Expr.generateArgs_stays args).bind fun _ => ?_
            refine (entryOf_names c d).stay.bind fun entry => ?_
            refine (setLine_writes line).stay.bind fun _ => ?_
            exact (jumpTo_writes entry _).stay.bind fun _ => (emit_writes (.label back)).stay
        | _ => exact .violation

/-- So do arguments. -/
theorem Expr.generateArgs_stays [Target.Lawful A] : ∀ args : List Expr,
    Stay p.function (Expr.generateArgs c p args : Gen A Unit)
  | [] => by
      rw [Expr.generateArgs]
      exact .pure ()
  | e :: rest => by
      rw [Expr.generateArgs]
      exact (Expr.generateArgs_stays rest).bind fun _ => Expr.generate_stays e

end

end Expressions

/-- The functions of two lists have different names. -/
def LocatedFunction.Unlike (fs fs' : List LocatedFunction) : Prop :=
  ∀ f ∈ fs, ∀ g ∈ fs', f.function.name ≠ g.function.name

/-- No two functions of a list have the same name. -/
def LocatedFunction.Distinct (fs : List LocatedFunction) : Prop :=
  (fs.map (·.function.name)).Nodup

/-- The reports of a piece of code of a function: each is of the function itself or of one
    defined inside, and those of the latter are ones that it gives. -/
structure Attributed (gives : LocatedFunction → List StackTooDeep → Prop) (function : String)
    (fs : List LocatedFunction) (errors : List StackTooDeep) : Prop where
  inside : ∀ f ∈ fs, f.function.name ≠ function → ∃ own, gives f own ∧
    errors.filter (·.function = f.function.name) = own.filter (·.function = f.function.name)
  names : ∀ e ∈ errors, e.function = function ∨ ∃ f ∈ fs, e.function = f.function.name

open LocatedFunction

/-- Functions of two lists are distinct within each and apart from each other. -/
theorem LocatedFunction.distinct_append {fs fs' : List LocatedFunction} :
    Distinct (fs ++ fs') ↔ Distinct fs ∧ Distinct fs' ∧ Unlike fs fs' := by
  rw [Distinct, List.map_append, List.nodup_append]
  simp only [List.forall_mem_map]
  rfl

namespace Attributed

variable {gives : LocatedFunction → List StackTooDeep → Prop} {function : String}
  {fs fs' : List LocatedFunction} {errors before : List StackTooDeep}

-- Code that defines nothing reports for its function only.
theorem of_own (h : ∀ e ∈ errors, e.function = function) : Attributed gives function [] errors :=
  ⟨fun _ hf => absurd hf List.not_mem_nil, fun e he => Or.inl (h e he)⟩

/-- No report is of a function that is not around or inside. -/
theorem filter_eq_nil (h : Attributed gives function fs errors) {name : String}
    (hne : name ≠ function) (hmem : ∀ f ∈ fs, name ≠ f.function.name) :
    errors.filter (·.function = name) = [] := by
  rw [List.filter_eq_nil_iff]
  intro e he hc
  obtain rfl := of_decide_eq_true hc
  rcases h.names e he with hown | ⟨f, hf, hname⟩
  · exact hne hown
  · exact hmem f hf hname

/-- Reports of one piece of code before those of another. The latest ones come first. -/
theorem append (h : Attributed gives function fs errors)
    (h' : Attributed gives function fs' before) (hapart : Unlike fs fs') :
    Attributed gives function (fs ++ fs') (before ++ errors) := by
  refine ⟨fun f hf hne => ?_, List.forall_mem_append.mpr ⟨fun e he => ?_, fun e he => ?_⟩⟩
  · rw [List.filter_append]
    rcases List.mem_append.mp hf with hf | hf
    · rw [h'.filter_eq_nil hne fun g hg => hapart f hf g hg]
      exact h.inside f hf hne
    · rw [h.filter_eq_nil hne fun g hg hc => hapart g hg f hf hc.symm, List.append_nil]
      exact h'.inside f hf hne
  · exact (h'.names e he).imp_right fun ⟨f, hf, hname⟩ =>
      ⟨f, List.mem_append_right fs hf, hname⟩
  · exact (h.names e he).imp_right fun ⟨f, hf, hname⟩ =>
      ⟨f, List.mem_append_left fs' hf, hname⟩

theorem congr (h : Attributed gives function fs errors) (hfs : ∀ f, f ∈ fs ↔ f ∈ fs') :
    Attributed gives function fs' errors :=
  ⟨fun f hf => h.inside f ((hfs f).mpr hf), fun e he => (h.names e he).imp_right
    fun ⟨f, hf, hname⟩ => ⟨f, (hfs f).mp hf, hname⟩⟩

/-- The reports of a definition, from the code around it. -/
theorem define {f : LocatedFunction} (h : Attributed gives f.function.name fs errors)
    (hgives : gives f errors) (hdistinct : Distinct (f :: fs)) :
    Attributed gives function (f :: fs) errors := by
  rw [Distinct, List.map_cons, List.nodup_cons] at hdistinct
  refine ⟨fun g hg _ => ?_, fun e he => Or.inr ?_⟩
  · rcases List.mem_cons.mp hg with rfl | hg
    · exact ⟨errors, hgives, rfl⟩
    · exact h.inside g hg fun hc => hdistinct.1 (hc ▸ List.mem_map_of_mem hg)
  · rcases h.names e he with hown | ⟨g, hg, hname⟩
    · exact ⟨f, List.mem_cons_self, hown⟩
    · exact ⟨g, List.mem_cons_of_mem f hg, hname⟩

end Attributed

/-- What generating a piece of code does: it gives slots to variables of some scopes only,
    and its reports are attributed to its functions. -/
structure Tallies {A : Type} (gives : LocatedFunction → List StackTooDeep → Prop)
    (function : String) (P : Nat → Prop) (fs : List LocatedFunction) (s t : GenState A) :
    Prop where
  slots : ∀ key : Declaration, ¬ P key.scope → t.slots.lookup key = s.slots.lookup key
  reports : ∃ errors, t.tooDeep = errors ++ s.tooDeep ∧ Attributed gives function fs errors

section Tallying

variable {A : Type} {gives : LocatedFunction → List StackTooDeep → Prop} {function : String}
  {P P' Q : Nat → Prop} {fs fs' : List LocatedFunction} {s t u : GenState A}

theorem OwnReports.tallies (h : OwnReports function s t) : Tallies gives function P [] s t := by
  rcases h.reports with ⟨errors, ht, hall⟩
  exact ⟨fun _ _ => by rw [h.slots], errors, ht, .of_own hall⟩

/-- Tallies add up where the functions are different. -/
theorem Tallies.trans (h : Tallies gives function P fs s t) (h' : Tallies gives function P fs' t u)
    (hapart : Unlike fs fs') : Tallies gives function P (fs ++ fs') s u := by
  rcases h.reports with ⟨errors, ht, hall⟩
  rcases h'.reports with ⟨errors', hu, hall'⟩
  refine ⟨fun key hkey => (h'.slots key hkey).trans (h.slots key hkey), errors' ++ errors, ?_,
    hall.append hall' hapart⟩
  rw [hu, ht, List.append_assoc]

theorem Tallies.mono (h : Tallies gives function P fs s t) (hP : ∀ i, P i → P' i) :
    Tallies gives function P' fs s t :=
  ⟨fun key hkey => h.slots key fun hc => hkey (hP _ hc), h.reports⟩

theorem Tallies.congr (h : Tallies gives function P fs s t) (hfs : ∀ f, f ∈ fs ↔ f ∈ fs') :
    Tallies gives function P fs' s t := by
  rcases h.reports with ⟨errors, ht, hall⟩
  exact ⟨h.slots, errors, ht, hall.congr hfs⟩

-- Code that stays in its function, behind or in front of other code.
theorem Tallies.onward (h : Tallies gives function P fs s t) (h' : OwnReports function t u) :
    Tallies gives function P fs s u := by
  have := h.trans h'.tallies fun _ _ _ hg => absurd hg List.not_mem_nil
  rwa [List.append_nil] at this

theorem OwnReports.onward (h : OwnReports function s t) (h' : Tallies gives function P fs t u) :
    Tallies gives function P fs s u :=
  h.tallies.trans h' fun _ hf => absurd hf List.not_mem_nil

-- Sequencing, in front of the rest of a piece of code and at its end.
theorem Gen.Stay.before {α β : Type} {m : Gen A α} {f : α → Gen A β} (hm : Stay function m)
    (hf : ∀ a t, OwnReports function u t → Ensures (f a) t fun _ => Tallies gives function P fs s) :
    Ensures (m >>= f) u fun _ => Tallies gives function P fs s := (hm u).bind hf

theorem Gen.Stay.last {m : Gen A Unit} (hm : Stay function m)
    (hf : ∀ t, OwnReports function u t → Tallies gives function P fs s t) :
    Ensures m u fun _ => Tallies gives function P fs s := (hm u).mono fun _ => hf

theorem GenState.Unused.mono (h : s.Unused P) (hP : ∀ i, P' i → P i) : s.Unused P' :=
  fun i hi => h i (hP i hi)

theorem GenState.Unused.stays (h : s.Unused P) (ht : OwnReports function s t) : t.Unused P := by
  intro i hi x
  rw [ht.slots]
  exact h i hi x

/-- Code inside other scopes gives no slots here. -/
theorem GenState.Unused.after (h : s.Unused Q) (ht : Tallies gives function P fs s t)
    (hapart : ∀ i, Q i → ¬ P i) : t.Unused Q := by
  intro i hi x
  rw [ht.slots ⟨i, x⟩ (hapart i hi)]
  exact h i hi x

end Tallying

/-- A run of generation that begins where no variable inside a function has a slot reports
    some accesses for the function. -/
def Generates (A : Type) [Target A] (c : GenContext) (f : LocatedFunction)
    (errors : List StackTooDeep) : Prop :=
  ∃ (p : Place) (s t : GenState A), f.function.stmt.Charted c.dialect c.scopes p.scope f.own ∧
    s.Unused (ScopeRange f.own f.function.stmt.scopeCount) ∧
    f.function.stmt.generate c p f.own s = .ok ((), t) ∧ t.tooDeep = errors ++ s.tooDeep

/-- The functions that a statement in a scope defines, the ones inside it included. -/
def Stmt.allLocated (scope next : Nat) (s : Stmt) : List LocatedFunction :=
  (s.located? scope next).toList ++ s.innerLocated next

/-- The functions in the default of a switch, or those in the other cases. -/
def Case.locatedOf (default : Bool) (next : Nat) : List Case → List LocatedFunction
  | [] => []
  | ⟨_, value, body⟩ :: rest =>
    (if value.isNone = default then body.located next else [])
      ++ Case.locatedOf default (next + body.scopeCount) rest

/-- A scope is one of those opened in the default of a switch, or in the other cases. -/
def Case.opensOf (default : Bool) (next : Nat) : List Case → Nat → Prop
  | [], _ => False
  | ⟨_, value, body⟩ :: rest, i => (value.isNone = default ∧ ScopeRange next body.scopeCount i) ∨
      Case.opensOf default (next + body.scopeCount) rest i

section Cases

/-- The functions of a switch are in the default or in the other bodies. -/
theorem Case.mem_locatedSeq {f : LocatedFunction} {cases : List Case} {next : Nat} :
    f ∈ Case.locatedSeq next cases ↔
      f ∈ Case.locatedOf true next cases ∨ f ∈ Case.locatedOf false next cases := by
  induction cases generalizing next with
  | nil => simp only [Case.locatedSeq, Case.locatedOf, List.not_mem_nil, or_self]
  | cons c rest ih =>
      rcases c with ⟨_, value, body⟩
      rw [Case.locatedSeq, Case.locatedOf, Case.locatedOf]
      cases value <;> simp only [Option.isNone_none, Option.isNone_some, Bool.false_eq_true,
        reduceCtorEq, if_true, if_false, List.nil_append, List.mem_append, ih] <;> tauto

/-- Different functions in cases, and above all in the default and in the others. -/
theorem Case.distinct_locatedOf : ∀ {cases : List Case} {next : Nat},
    Distinct (Case.locatedSeq next cases) →
      Distinct (Case.locatedOf true next cases) ∧ Distinct (Case.locatedOf false next cases) ∧
        Unlike (Case.locatedOf true next cases) (Case.locatedOf false next cases)
  | [], _, _ => by
      rw [Case.locatedOf, Case.locatedOf]
      exact ⟨List.nodup_nil, List.nodup_nil, fun _ hf => absurd hf List.not_mem_nil⟩
  | ⟨_, value, body⟩ :: rest, next, h => by
      rw [Case.locatedSeq, distinct_append] at h
      rcases h with ⟨hbody, hrest, hapart⟩
      rcases Case.distinct_locatedOf hrest with ⟨htrue, hfalse, hothers⟩
      -- The first body is apart from either kind of the others.
      have hleft : Unlike (body.located next)
          (Case.locatedOf true (next + body.scopeCount) rest) :=
        fun f hf g hg => hapart f hf g (Case.mem_locatedSeq.mpr (.inl hg))
      have hright : Unlike (body.located next)
          (Case.locatedOf false (next + body.scopeCount) rest) :=
        fun f hf g hg => hapart f hf g (Case.mem_locatedSeq.mpr (.inr hg))
      rw [Case.locatedOf, Case.locatedOf]
      cases value with
      | none =>
          refine ⟨distinct_append.mpr ⟨hbody, htrue, hleft⟩, hfalse, fun f hf g hg => ?_⟩
          exact (List.mem_append.mp hf).elim (hright f · g hg) (hothers f · g hg)
      | some l =>
          refine ⟨htrue, distinct_append.mpr ⟨hbody, hfalse, hright⟩, fun f hf g hg => ?_⟩
          exact (List.mem_append.mp hg).elim (fun hg => (hleft g hg f hf).symm) (hothers f hf g ·)

/-- Bodies open scopes of the range of the switch. -/
theorem Case.opensOf_spans {default : Bool} {i : Nat} : ∀ {cases : List Case} {next : Nat},
    Case.opensOf default next cases i → ScopeRange next (Case.scopeCountSeq cases) i
  | [], _, h => h.elim
  | ⟨_, _, body⟩ :: rest, next, h => by
      rw [Case.scopeCountSeq]
      rcases h with ⟨-, h⟩ | h
      · exact h.mono le_rfl (by omega)
      · exact (Case.opensOf_spans h).mono (by omega) (by omega)

/-- The default opens other scopes than the other bodies. -/
theorem Case.opensOf_apart {i : Nat} : ∀ {cases : List Case} {next : Nat},
    Case.opensOf false next cases i → ¬ Case.opensOf true next cases i
  | [], _, h, _ => h.elim
  | ⟨_, value, body⟩ :: rest, next, h, h' => by
      rcases h with ⟨hvalue, h⟩ | h <;> rcases h' with ⟨hvalue', h'⟩ | h'
      · exact absurd (hvalue.symm.trans hvalue') (by decide)
      · exact (Case.opensOf_spans h').apart le_rfl h
      · exact (Case.opensOf_spans h).apart le_rfl h'
      · exact Case.opensOf_apart h h'

end Cases

section Statements

variable {A : Type} [Target A] {c : GenContext}

omit [Target A] in
/-- Slots are set in one scope only. -/
theorem Gen.setSlots_tallies {gives : LocatedFunction → List StackTooDeep → Prop}
    {function : String} (scope : Nat) : ∀ (vars : List TypedName) (first : Int) (s : GenState A),
      Ensures (setSlots scope first vars) s fun _ => Tallies gives function (· = scope) [] s
  | [], _, s => Ensures.pure (OwnReports.refl s).tallies
  | x :: rest, first, s => by
      refine Ensures.bind (P := fun _ => Tallies gives function (· = scope) [] s) ?_ fun _ t ht =>
        (setSlots_tallies scope rest (first + 1) t).mono fun _ u hu =>
          ht.trans hu fun _ hf => absurd hf List.not_mem_nil
      rintro _ _ ⟨⟩
      refine ⟨fun key hkey => ?_, (OwnReports.refl s).tallies (P := fun _ => True) |>.reports⟩
      have hne : key ≠ ⟨scope, x.name⟩ := fun hc => hkey (congrArg (·.scope) hc)
      simp only [List.lookup_cons, beq_eq_false_iff_ne.mpr hne]

/-- Generating a block gives slots to variables of its own scopes only, and its reports are
    attributed to its functions, if these have different names and nothing inside has a slot
    yet. -/
def Block.Tallied (A : Type) [Target A] (c : GenContext) (b : Block) : Prop :=
  ∀ ⦃p : Place⦄ ⦃parent : Option Nat⦄ ⦃id : Nat⦄ ⦃s : GenState A⦄,
    b.Charted c.dialect c.scopes parent id → Distinct (b.located id) →
    s.Unused (ScopeRange id b.scopeCount) →
    Ensures (b.generate c p id) s fun _ =>
      Tallies (Generates A c) p.function (ScopeRange id b.scopeCount) (b.located id) s

/-- Statements may also give slots to variables of the scope that they are in. -/
def Stmt.Tallied (A : Type) [Target A] (c : GenContext) (stmt : Stmt) : Prop :=
  ∀ ⦃p : Place⦄ ⦃next : Nat⦄ ⦃s : GenState A⦄,
    stmt.Charted c.dialect c.scopes p.scope next → p.scope < next →
    Distinct (stmt.allLocated p.scope next) → s.Unused (ScopeRange next stmt.scopeCount) →
    Ensures (stmt.generate c p next) s fun _ =>
      Tallies (Generates A c) p.function (fun i => i = p.scope ∨ ScopeRange next stmt.scopeCount i)
        (stmt.allLocated p.scope next) s

/-- A statement without statements inside reports for its function only. -/
theorem Stmt.Tallied.of_stay {stmt : Stmt}
    (hlocated : ∀ scope next, stmt.allLocated scope next = [])
    (hstay : ∀ (p : Place) (next : Nat), Stay p.function (stmt.generate c p next : Gen A Unit)) :
    stmt.Tallied A c := by
  intro p next s _ _ _ _
  rw [hlocated]
  exact (hstay p next s).mono fun _ t ht => ht.tallies

/-- The scopes of statements come one after the other. -/
theorem Stmt.generateSeq_tallies : ∀ {stmts : List Stmt}, (∀ stmt ∈ stmts, stmt.Tallied A c) →
    ∀ {p : Place} {next : Nat} {s : GenState A},
      Stmt.ChartedSeq c.dialect c.scopes p.scope next stmts → p.scope < next →
      Distinct (Stmt.allLocatedSeq p.scope next stmts) →
      s.Unused (ScopeRange next (Stmt.scopeCountSeq stmts)) →
      Ensures (Stmt.generateSeq c p next stmts) s fun _ =>
        Tallies (Generates A c) p.function
          (fun i => i = p.scope ∨ ScopeRange next (Stmt.scopeCountSeq stmts) i)
          (Stmt.allLocatedSeq p.scope next stmts) s
  | [], _, p, next, s, _, _, _, _ => by
      rw [Stmt.generateSeq, Stmt.allLocatedSeq]
      exact Ensures.pure (OwnReports.refl s).tallies
  | stmt :: rest, hall, p, next, s, h, hscope, hdistinct, hunused => by
      rcases List.forall_mem_cons.mp hall with ⟨hstmt, hrest⟩
      rw [Stmt.ChartedSeq] at h
      rw [Stmt.allLocatedSeq, ← Stmt.allLocated] at hdistinct ⊢
      rw [Stmt.scopeCountSeq] at hunused ⊢
      rcases distinct_append.mp hdistinct with ⟨hfirst, hothers, hapart⟩
      rw [Stmt.generateSeq]
      refine (hstmt h.1 hscope hfirst
        (hunused.mono fun i hi => hi.mono le_rfl (by omega))).bind fun _ t ht => ?_
      -- The scopes of the other statements are still ahead.
      have hunused' : t.Unused (ScopeRange (next + stmt.scopeCount) (Stmt.scopeCountSeq rest)) := by
        refine (hunused.mono fun i hi => hi.mono (by omega) (by omega)).after ht fun i hi hc => ?_
        rcases hc with rfl | hc
        · have := hi.1
          omega
        · exact hi.apart le_rfl hc
      refine (Stmt.generateSeq_tallies hrest h.2 (by omega) hothers hunused').mono fun _ u hu => ?_
      exact Tallies.trans (ht.mono fun i hi => hi.imp_right fun hi => hi.mono le_rfl (by omega))
        (hu.mono fun i hi => hi.imp_right fun hi => hi.mono (by omega) (by omega)) hapart

variable [Target.Lawful A]

/-- A block tallies if its statements do. -/
theorem Block.Tallied.of_stmts {line : Nat} {stmts : List Stmt}
    (hall : ∀ stmt ∈ stmts, stmt.Tallied A c) : Block.Tallied A c ⟨line, stmts⟩ := by
  intro p parent id s h hdistinct hunused
  rw [Block.Charted] at h
  rw [Block.located] at hdistinct ⊢
  rw [Block.scopeCount] at hunused ⊢
  rw [Block.generate]
  refine Ensures.height ?_
  refine (Stmt.generateSeq_tallies hall (p := { p with scope := id }) h.2 (Nat.lt_succ_self id)
    hdistinct (hunused.mono fun i hi => hi.mono (by omega) (by omega))).bind fun _ t ht => ?_
  refine Stay.last (closeBlock_stay id line _) fun u hu => (ht.mono fun i hi => ?_).onward hu
  rcases hi with rfl | hi
  · exact .first (by omega)
  · exact hi.mono (by omega) (by omega)

section Compound

variable {line : Nat}

/-- A declaration gives slots to its variables and reports for its own function. -/
theorem Stmt.Tallied.decl {vars : List TypedName} {value : Option Expr} :
    (Stmt.decl line vars value).Tallied A c := by
  intro p next s h _ _ _
  rw [Stmt.Charted] at h
  rw [Stmt.generate]
  refine Stay.before (setLine_writes line).stay fun _ t ht => Ensures.height ?_
  -- What comes behind the value, or behind the zeros.
  have hrest : ∀ u : GenState A, OwnReports p.function s u →
      Ensures (do
        expectHeight line (t.height + vars.length) "variable declaration"
        declareSlots c p t.height vars) u fun _ =>
          Tallies (Generates A c) p.function
            (fun i => i = p.scope ∨ ScopeRange next (Stmt.decl line vars value).scopeCount i)
            (Stmt.allLocated p.scope next (.decl line vars value)) s := by
    intro u hu
    refine Stay.before (expectHeight_stay line _ _) fun _ v hv => ?_
    rw [declareSlots_eq vars t.height h.1]
    exact (setSlots_tallies p.scope vars t.height v).mono fun _ w hw =>
      (hu.trans hv).onward (hw.mono fun i hi => .inl hi)
  -- Either way only the function itself may be reported.
  cases value with
  | none =>
      exact Stay.before (zeros_writes vars.length).stay fun _ u hu => hrest u (ht.trans hu)
  | some e => exact Stay.before (Expr.generate_stays e) fun _ u hu => hrest u (ht.trans hu)

variable {name : String} {params returns : List TypedName} {body : Block}

/-- What the definition of a function does, from inside: all that is reported is of the
    function or of one inside it. -/
theorem Stmt.generate_func_tallies (hbody : body.Tallied A c) {p : Place} {next : Nat}
    {s : GenState A}
    (h : (Stmt.func line name params returns body).Charted c.dialect c.scopes p.scope next)
    (hdistinct : Distinct (body.located (next + 1)))
    (hunused : s.Unused (ScopeRange next (1 + body.scopeCount))) :
    Ensures ((Stmt.func line name params returns body).generate c p next) s fun _ =>
      Tallies (Generates A c) name (ScopeRange next (1 + body.scopeCount))
        (body.located (next + 1)) s := by
  rw [Stmt.Charted] at h
  rw [Stmt.generate]
  -- Up to the body nothing but slots of the frame is new.
  refine Stay.before (setLine_writes line).stay fun _ s₁ h₁ => ?_
  refine Stay.before (lookup_stay c p line name) fun found s₂ h₂ => ?_
  refine Stay.before (entryOf_names c _).stay fun entry s₃ h₃ => ?_
  refine Ensures.bind (P := fun _ => Tallies (Generates A c) name (· = next) [] s₃)
    (setSlots_tallies next params.reverse 1 s₃) fun _ s₄ h₄ => ?_
  refine Stay.before height_stay fun before s₅ h₅ => ?_
  refine Stay.before newLabel_names.stay fun after s₆ h₆ => ?_
  refine Stay.before (jumpTo_writes after _).stay fun _ s₇ h₇ => ?_
  refine Stay.before (emit_writes (.label entry)).stay fun _ s₈ h₈ => ?_
  refine Stay.before (setHeight_stay _) fun _ s₉ h₉ => ?_
  refine Ensures.bind (P := fun _ => Tallies (Generates A c) name (· = next) [] s₉)
    (setSlots_tallies next returns _ s₉) fun _ s₁₀ h₁₀ => ?_
  refine Stay.before (zeros_writes returns.length).stay fun _ s₁₁ h₁₁ => ?_
  -- So far only parameters and returned variables have got slots.
  have hframe : Tallies (Generates A c) name (· = next) [] s s₁₁ := by
    have hentered := ((h₁.trans h₂).trans h₃).onward h₄
    have hstarted := hentered.onward ((((h₅.trans h₆).trans h₇).trans h₈).trans h₉)
    exact (hstarted.trans h₁₀ fun _ hf => absurd hf List.not_mem_nil).onward h₁₁
  -- The scopes of the body are unused when it starts.
  have hunused₁₁ : s₁₁.Unused (ScopeRange (next + 1) body.scopeCount) := by
    refine (hunused.mono fun i hi => hi.mono (by omega) (by omega)).after hframe fun i hi hc => ?_
    have := hi.1
    omega
  refine (hbody (p := ⟨next, none, name⟩) h.2 hdistinct hunused₁₁).bind fun _ s₁₂ h₁₂ => ?_
  refine Stay.before (expectHeight_stay line _ _) fun _ s₁₃ h₁₃ => ?_
  refine Stay.before (unwindFrame_stay (p := ⟨next, none, name⟩) params.length returns.length)
    fun _ s₁₄ h₁₄ => ?_
  refine Stay.before (setLine_writes line).stay fun _ s₁₅ h₁₅ => ?_
  refine Stay.before (jump_writes _).stay fun _ s₁₆ h₁₆ => ?_
  refine Stay.before (emit_writes (.label after)).stay fun _ s₁₇ h₁₇ => ?_
  -- What remains reports for the function itself.
  refine Stay.last (expectHeight_stay line before _) fun s₁₈ h₁₈ => ?_
  refine ((hframe.mono ?_).trans (h₁₂.mono fun i hi => hi.mono (by omega) (by omega))
    fun _ hf => absurd hf List.not_mem_nil).onward ?_
  · rintro i rfl
    exact .first (by omega)
  · exact ((((h₁₃.trans h₁₄).trans h₁₅).trans h₁₆).trans h₁₇).trans h₁₈

/-- A definition reports under the name that it defines. -/
theorem Stmt.Tallied.func (hbody : body.Tallied A c) :
    (Stmt.func line name params returns body).Tallied A c := by
  intro p next s h hscope hdistinct hunused result t hrun
  have hinside := (List.nodup_cons.mp (show List.Nodup (name :: _) from hdistinct)).2
  have htallies := Stmt.generate_func_tallies hbody h hinside hunused result t hrun
  rcases htallies.reports with ⟨errors, herrors, hattributed⟩
  -- The run for the function is this one.
  have hgenerates : Generates A c ⟨⟨line, name, params, returns, body⟩, ⟨p.scope, name⟩, next⟩
      errors := ⟨p, s, t, h, hunused, hrun, herrors⟩
  exact ⟨fun key hkey => htallies.slots key fun hc => hkey (.inr hc), errors, herrors,
    hattributed.define hgenerates hdistinct⟩

/-- A condition. -/
theorem Stmt.Tallied.cond {test : Expr} (hbody : body.Tallied A c) :
    (Stmt.cond line test body).Tallied A c := by
  intro p next s h _ hdistinct hunused
  rw [Stmt.Charted] at h
  rw [Stmt.generate]
  refine Stay.before (setLine_writes line).stay fun _ s₁ h₁ => ?_
  refine Stay.before height_stay fun before s₂ h₂ => ?_
  refine Stay.before (Expr.generate_stays test) fun _ s₃ h₃ => ?_
  refine Stay.before (emit_writes (.instruction .iszero)).stay fun _ s₄ h₄ => ?_
  refine Stay.before newLabel_names.stay fun after s₅ h₅ => ?_
  refine Stay.before (jumpToIf_writes after).stay fun _ s₆ h₆ => ?_
  have htested := ((((h₁.trans h₂).trans h₃).trans h₄).trans h₅).trans h₆
  refine (hbody h.2 hdistinct (hunused.stays htested)).bind fun _ s₇ h₇ => ?_
  refine Stay.before (emit_writes (.label after)).stay fun _ s₈ h₈ => ?_
  refine Stay.last (expectHeight_stay line before _) fun s₉ h₉ => ?_
  exact htested.onward ((h₇.mono fun i hi => .inr hi).onward (h₈.trans h₉))

/-- A block. -/
theorem Stmt.Tallied.block (hbody : body.Tallied A c) : (Stmt.block body).Tallied A c := by
  intro p next s h _ hdistinct hunused
  rcases body with ⟨line, stmts⟩
  rw [Stmt.Charted] at h
  rw [Stmt.generate]
  refine Stay.before (setLine_writes line).stay fun _ t ht => ?_
  exact (hbody h hdistinct (hunused.stays ht)).mono fun _ u hu =>
    ht.onward (hu.mono fun i hi => .inr hi)

/-- The scopes of a loop are those of its beginning, of its body and of what is run after the
    body, in this order. -/
theorem Stmt.Tallied.loop {preLine : Nat} {pre : List Stmt} {test : Expr} {post : Block}
    (hpre : ∀ stmt ∈ pre, stmt.Tallied A c) (hpost : post.Tallied A c)
    (hbody : body.Tallied A c) :
    (Stmt.loop line ⟨preLine, pre⟩ test post body).Tallied A c := by
  intro p next s h _ hdistinct hunused
  rw [Stmt.Charted] at h
  rcases h with ⟨-, hcharts, -, hcharts₁, hcharts₂⟩
  -- The functions of a loop are those of its three parts, in this order.
  have hlocated : Stmt.allLocated p.scope next (.loop line ⟨preLine, pre⟩ test post body)
      = Stmt.allLocatedSeq next (next + 1) pre
        ++ body.located (next + 1 + Stmt.scopeCountSeq pre)
        ++ post.located (next + 1 + Stmt.scopeCountSeq pre + body.scopeCount) := rfl
  rw [hlocated] at hdistinct ⊢
  rcases distinct_append.mp hdistinct with ⟨hdistinct, hdistinct₂, hapart₂⟩
  rcases distinct_append.mp hdistinct with ⟨hdistinct, hdistinct₁, hapart₁⟩
  rw [Stmt.scopeCount, Block.scopeCount] at hunused ⊢
  rw [Stmt.generate]
  -- First the init block, in the scope of the loop.
  refine Stay.before (setLine_writes line).stay fun _ s₁ h₁ => ?_
  refine Stay.before height_stay fun before s₂ h₂ => ?_
  have hunused₂ := hunused.stays (h₁.trans h₂)
  refine (Stmt.generateSeq_tallies hpre (p := { p with scope := next }) hcharts
    (Nat.lt_succ_self next) hdistinct
    (hunused₂.mono fun i hi => hi.mono (by omega) (by omega))).bind fun _ s₃ h₃ => ?_
  -- Then the condition, for the function itself.
  refine Stay.before newLabel_names.stay fun start s₄ h₄ => ?_
  refine Stay.before newLabel_names.stay fun again s₅ h₅ => ?_
  refine Stay.before newLabel_names.stay fun exit s₆ h₆ => ?_
  refine Stay.before (setLine_writes line).stay fun _ s₇ h₇ => ?_
  refine Stay.before (emit_writes (.label start)).stay fun _ s₈ h₈ => ?_
  refine Stay.before (Expr.generate_stays (p := { p with scope := next }) test) fun _ s₉ h₉ => ?_
  refine Stay.before (emit_writes (.instruction .iszero)).stay fun _ s₁₀ h₁₀ => ?_
  refine Stay.before (jumpToIf_writes exit).stay fun _ s₁₁ h₁₁ => ?_
  refine Stay.before height_stay fun top s₁₂ h₁₂ => ?_
  have htested := h₃.onward ((((((((h₄.trans h₅).trans h₆).trans h₇).trans h₈).trans h₉).trans
    h₁₀).trans h₁₁).trans h₁₂)
  -- The scopes of the body and of the post part are still unused.
  have hunused₁₂ : s₁₂.Unused (ScopeRange (next + 1 + Stmt.scopeCountSeq pre)
      (body.scopeCount + post.scopeCount)) := by
    refine (hunused₂.mono fun i hi => hi.mono (by omega) (by omega)).after htested
      fun i hi hc => ?_
    rcases hc with rfl | hc
    · have : i + 1 + Stmt.scopeCountSeq pre ≤ i := hi.1
      omega
    · exact hi.apart le_rfl hc
  refine (hbody hcharts₁ hdistinct₁ (hunused₁₂.mono fun i hi => hi.mono le_rfl (by omega))).bind
    fun _ s₁₃ h₁₃ => ?_
  refine Stay.before (emit_writes (.label again)).stay fun _ s₁₄ h₁₄ => ?_
  have hround := h₁₃.onward h₁₄
  have hunused₁₄ : s₁₄.Unused (ScopeRange (next + 1 + Stmt.scopeCountSeq pre + body.scopeCount)
      post.scopeCount) :=
    (hunused₁₂.mono fun i hi => hi.mono (by omega) (by omega)).after hround
      fun i hi => hi.apart le_rfl
  -- Last the post part.
  refine (hpost hcharts₂ hdistinct₂ hunused₁₄).bind fun _ s₁₅ h₁₅ => ?_
  refine Stay.before (jumpTo_writes start 0).stay fun _ s₁₆ h₁₆ => ?_
  refine Stay.before (emit_writes (.label exit)).stay fun _ s₁₇ h₁₇ => ?_
  refine Stay.last (closeBlock_stay next preLine before) fun s₁₈ h₁₈ => ?_
  have hclosed := h₁₅.onward ((h₁₆.trans h₁₇).trans h₁₈)
  -- The three parts have different functions, since all are distinct.
  refine (h₁.trans h₂).onward (Tallies.trans (Tallies.trans (htested.mono ?_)
    (hround.mono fun i hi => .inr (hi.mono (by omega) (by omega))) hapart₁)
    (hclosed.mono fun i hi => .inr (hi.mono (by omega) (by omega))) hapart₂)
  rintro i (rfl | hi)
  · exact .inr (.first (by omega))
  · exact .inr (hi.mono (by omega) (by omega))

end Compound

/-- The code that compares the subject of a switch holds the default. -/
theorem Case.generateTests_tallies : ∀ {cases : List Case}, (∀ x ∈ cases, x.body.Tallied A c) →
    ∀ {p : Place} {next : Nat} {s : GenState A},
      Case.ChartedSeq c.dialect c.scopes p.scope next cases →
      Distinct (Case.locatedOf true next cases) → s.Unused (Case.opensOf true next cases) →
      Ensures (Case.generateTests c p next cases) s fun ids t =>
        Tallies (Generates A c) p.function (Case.opensOf true next cases)
          (Case.locatedOf true next cases) s t ∧ ids.length = Case.valueCount cases
  | [], _, p, next, s, _, _, _ => by
      rw [Case.generateTests, Case.locatedOf]
      exact Ensures.pure ⟨(OwnReports.refl s).tallies, rfl⟩
  | ⟨_, none, body⟩ :: rest, hall, p, next, s, h, hdistinct, hunused => by
      rcases List.forall_mem_cons.mp hall with ⟨hbody, hall⟩
      rw [Case.ChartedSeq] at h
      rw [Case.locatedOf, if_pos (by rfl)] at hdistinct ⊢
      rcases distinct_append.mp hdistinct with ⟨hfirst, hrest, hapart⟩
      rw [Case.generateTests]
      refine (hbody h.1 hfirst (hunused.mono fun i hi => .inl ⟨rfl, hi⟩)).bind fun _ t ht => ?_
      -- The scopes of the defaults behind this body are unused.
      have hunused' : t.Unused (Case.opensOf true (next + body.scopeCount) rest) :=
        (hunused.mono fun i hi => .inr hi).after ht fun i hi =>
          (Case.opensOf_spans hi).apart le_rfl
      refine (Case.generateTests_tallies hall h.2 hrest hunused').mono fun ids u ⟨hu, hcount⟩ => ?_
      refine ⟨Tallies.trans (ht.mono fun i hi => .inl ⟨rfl, hi⟩) (hu.mono fun i hi => .inr hi)
        hapart, ?_⟩
      rw [hcount, Case.valueCount, Case.valueCount, List.countP_cons]
      rfl
  | ⟨_, some l, body⟩ :: rest, hall, p, next, s, h, hdistinct, hunused => by
      rw [Case.ChartedSeq] at h
      rw [Case.locatedOf, if_neg (by simp), List.nil_append] at hdistinct ⊢
      rw [Case.generateTests]
      -- A comparison reports nothing.
      refine Ensures.bind (P := fun _ => OwnReports p.function s) (literal_stay l s)
        fun _ s₁ h₁ => ?_
      refine Ensures.bind (P := fun _ => OwnReports p.function s₁)
        ((emit_writes (.instruction (.dup 1))).stay s₁) fun _ s₂ h₂ => ?_
      refine Ensures.bind (P := fun _ => OwnReports p.function s₂)
        ((emit_writes (.instruction .eq)).stay s₂) fun _ s₃ h₃ => ?_
      refine Ensures.bind (P := fun _ => OwnReports p.function s₃) (newLabel_names.stay s₃)
        fun id s₄ h₄ => ?_
      refine Ensures.bind (P := fun _ => OwnReports p.function s₄) ((jumpToIf_writes id).stay s₄)
        fun _ s₅ h₅ => ?_
      have htested := (((h₁.trans h₂).trans h₃).trans h₄).trans h₅
      refine (Case.generateTests_tallies (List.forall_mem_cons.mp hall).2 h.2 hdistinct
        ((hunused.mono fun i hi => .inr hi).stays htested)).bind fun ids s₆ ⟨h₆, hcount⟩ => ?_
      refine Ensures.pure ⟨htested.onward (h₆.mono fun i hi => .inr hi), ?_⟩
      rw [List.length_cons, hcount, Case.valueCount, Case.valueCount, List.countP_cons]
      rfl

/-- The other cases come behind it. -/
theorem Case.generateBodies_tallies (after : Nat) : ∀ {cases : List Case} (ids : List Nat),
    (∀ x ∈ cases, x.body.Tallied A c) → ∀ {p : Place} {next : Nat} {s : GenState A},
      Case.ChartedSeq c.dialect c.scopes p.scope next cases →
      ids.length = Case.valueCount cases → Distinct (Case.locatedOf false next cases) →
      s.Unused (Case.opensOf false next cases) →
      Ensures (Case.generateBodies c p next after ids cases) s fun _ =>
        Tallies (Generates A c) p.function (Case.opensOf false next cases)
          (Case.locatedOf false next cases) s
  | [], ids, _, p, next, s, _, _, _, _ => by
      rw [Case.generateBodies, Case.locatedOf]
      · exact Ensures.pure (OwnReports.refl s).tallies
      all_goals simp
  -- The default was generated before.
  | ⟨_, none, body⟩ :: rest, ids, hall, p, next, s, h, hcount, hdistinct, hunused => by
      rw [Case.ChartedSeq] at h
      rw [Case.locatedOf, if_neg (by simp), List.nil_append] at hdistinct ⊢
      rw [Case.valueCount, List.countP_cons] at hcount
      rw [Case.generateBodies]
      exact (Case.generateBodies_tallies after ids (List.forall_mem_cons.mp hall).2 h.2 hcount
        hdistinct (hunused.mono fun i hi => .inr hi)).mono fun _ t ht => ht.mono fun i hi => .inr hi
  | ⟨_, some l, body⟩ :: rest, [], _, p, next, s, _, hcount, _, _ => by
      rw [Case.valueCount, List.countP_cons] at hcount
      exact absurd hcount (by simp)
  | ⟨line, some l, body⟩ :: rest, id :: ids, hall, p, next, s, h, hcount, hdistinct, hunused => by
      rcases List.forall_mem_cons.mp hall with ⟨hbody, hall⟩
      -- There is one label for each case that is left.
      have hcount' : ids.length = Case.valueCount rest := by
        rw [Case.valueCount, List.countP_cons] at hcount
        rw [Case.valueCount]
        simpa using hcount
      rw [Case.ChartedSeq] at h
      rw [Case.locatedOf, if_pos (by rfl)] at hdistinct ⊢
      rcases distinct_append.mp hdistinct with ⟨hfirst, hrest, hapart⟩
      rw [Case.generateBodies]
      refine Stay.before (emit_writes (.label id)).stay fun _ s₁ h₁ => ?_
      refine (hbody h.1 hfirst ((hunused.mono fun i hi => .inl ⟨rfl, hi⟩).stays h₁)).bind
        fun _ s₂ h₂ => ?_
      have hentered := h₁.onward h₂
      -- All but the last of the bodies jump behind the switch.
      have hothers : ∀ s₃, OwnReports p.function s₂ s₃ →
          Ensures (Case.generateBodies c p (next + body.scopeCount) after ids rest) s₃ fun _ =>
            Tallies (Generates A c) p.function
              (Case.opensOf false next (⟨line, some l, body⟩ :: rest))
              (Block.located next body ++ Case.locatedOf false (next + body.scopeCount) rest)
              s := by
        intro s₃ h₃
        have hunused₃ : s₃.Unused (Case.opensOf false (next + body.scopeCount) rest) :=
          ((hunused.mono fun i hi => .inr hi).after hentered fun i hi =>
            (Case.opensOf_spans hi).apart le_rfl).stays h₃
        refine (Case.generateBodies_tallies after ids hall h.2 hcount' hrest hunused₃).mono
          fun _ s₄ h₄ => ?_
        exact Tallies.trans ((hentered.onward h₃).mono fun i hi => .inl ⟨rfl, hi⟩)
          (h₄.mono fun i hi => .inr hi) hapart
      by_cases hlast : ids.isEmpty = true
      · rw [if_pos hlast]
        exact hothers s₂ (.refl s₂)
      · rw [if_neg hlast]
        exact Stay.before (jumpTo_writes after 0).stay fun _ s₃ h₃ => hothers s₃ h₃

theorem Stmt.Tallied.switch {line : Nat} {subject : Expr} {cases : List Case}
    (hall : ∀ x ∈ cases, x.body.Tallied A c) :
    (Stmt.switch line subject cases).Tallied A c := by
  intro p next s h _ hdistinct hunused
  rw [Stmt.Charted] at h
  rcases Case.distinct_locatedOf (show Distinct (Case.locatedSeq next cases) from hdistinct)
    with ⟨htests, hbodies, hapart⟩
  have hspans : ∀ default i, Case.opensOf default next cases i →
      ScopeRange next (Stmt.switch line subject cases).scopeCount i :=
    fun default i hi => Case.opensOf_spans hi
  rw [Stmt.generate]
  refine Stay.before (setLine_writes line).stay fun _ s₁ h₁ => ?_
  refine Stay.before height_stay fun before s₂ h₂ => ?_
  refine Stay.before (Expr.generate_stays subject) fun _ s₃ h₃ => ?_
  refine Stay.before newLabel_names.stay fun after s₄ h₄ => ?_
  have hsubject := ((h₁.trans h₂).trans h₃).trans h₄
  have hunused₄ := hunused.stays hsubject
  refine (Case.generateTests_tallies hall h.2 htests (hunused₄.mono (hspans true))).bind
    fun ids s₅ ⟨h₅, hcount⟩ => ?_
  refine Stay.before (jumpTo_writes after 0).stay fun _ s₆ h₆ => ?_
  -- What the default has opened is not opened again.
  have hunused₅ := (hunused₄.mono (hspans false)).after h₅ fun i => Case.opensOf_apart
  refine (Case.generateBodies_tallies after ids hall h.2 hcount hbodies
    (hunused₅.stays h₆)).bind fun _ s₇ h₇ => ?_
  refine Stay.before (emit_writes (.label after)).stay fun _ s₈ h₈ => ?_
  refine Stay.before (pops_writes 1).stay fun _ s₉ h₉ => ?_
  refine Stay.last (expectHeight_stay line before _) fun s₁₀ h₁₀ => ?_
  refine hsubject.onward (Tallies.congr ?_ fun f => List.mem_append.trans Case.mem_locatedSeq.symm)
  exact Tallies.trans ((h₅.mono fun i hi => .inr (hspans true i hi)).onward h₆)
    ((h₇.mono fun i hi => .inr (hspans false i hi)).onward ((h₈.trans h₉).trans h₁₀)) hapart

omit [Target.Lawful A] in
mutual

/-- The reports of a block are those of its functions, if these have different names. -/
theorem Block.tallied [Target.Lawful A] : ∀ b : Block, b.Tallied A c
  | ⟨_, stmts⟩ => .of_stmts (Stmt.talliedSeq stmts)
termination_by structural b => b

theorem Stmt.talliedSeq [Target.Lawful A] : ∀ stmts : List Stmt, ∀ stmt ∈ stmts, stmt.Tallied A c
  | [] => fun _ h => absurd h List.not_mem_nil
  | stmt :: rest => List.forall_mem_cons.mpr ⟨Stmt.tallied stmt, Stmt.talliedSeq rest⟩
termination_by structural stmts => stmts

/-- Every statement tallies, by recursion. -/
theorem Stmt.tallied [Target.Lawful A] : ∀ stmt : Stmt, stmt.Tallied A c
  | .expr line e => by
      refine .of_stay (fun _ _ => rfl) fun p next => ?_
      rw [Stmt.generate]
      refine (setLine_writes line).stay.bind fun _ => height_stay.bind fun h =>
        (Expr.generate_stays e).bind fun _ => ?_
      split
      · exact expectHeight_stay line h _
      · exact .pure ()
  | .assign line targets value => by
      refine .of_stay (fun _ _ => rfl) fun p next => ?_
      rw [Stmt.generate]
      exact (setLine_writes line).stay.bind fun _ => (Expr.generate_stays value).bind fun _ =>
        assignVariables_stay targets
  | .decl _ _ _ => .decl
  | .func _ _ _ _ body => .func (Block.tallied body)
  | .cond _ _ body => .cond (Block.tallied body)
  | .switch _ _ cases => .switch (Case.talliedSeq cases)
  | .loop _ ⟨_, pre⟩ _ post body =>
      .loop (Stmt.talliedSeq pre) (Block.tallied post) (Block.tallied body)
  | .brk line => by
      refine .of_stay (fun _ _ => rfl) fun p next => ?_
      rw [Stmt.generate]
      exact (setLine_writes line).stay.bind fun _ => leaveBody_stay line _
  | .cont line => by
      refine .of_stay (fun _ _ => rfl) fun p next => ?_
      rw [Stmt.generate]
      exact (setLine_writes line).stay.bind fun _ => leaveBody_stay line _
  | .block b => .block (Block.tallied b)
  | .label line name => by
      refine .of_stay (fun _ _ => rfl) fun p next => ?_
      rw [Stmt.generate]
      exact (setLine_writes line).stay.bind fun _ => (lookup_stay c p line name).bind fun _ =>
        (labelOf_names _).stay.bind fun id => (emit_writes (.label id)).stay
  | .stackAssign line target => by
      refine .of_stay (fun _ _ => rfl) fun p next => ?_
      rw [Stmt.generate]
      exact (setLine_writes line).stay.bind fun _ => assignVariable_stay line target.name
termination_by structural stmt => stmt

theorem Case.talliedSeq [Target.Lawful A] : ∀ cases : List Case, ∀ x ∈ cases, x.body.Tallied A c
  | [] => fun _ h => absurd h List.not_mem_nil
  | ⟨_, _, body⟩ :: rest => List.forall_mem_cons.mpr ⟨Block.tallied body, Case.talliedSeq rest⟩
termination_by structural cases => cases

end

/-- The reports of a program are those of its functions, if these have different names. -/
theorem generate_attributed {code : Block} (h : code.Charted c.dialect c.scopes none 0)
    (hdistinct : Distinct (code.located 0)) {target target' : A} {errors : List StackTooDeep}
    (hrun : generate c code target = .ok (errors, target')) :
    Attributed (Generates A c) "" (code.located 0) errors.reverse := by
  rw [generate, StateT.run] at hrun
  rcases bind_eq_ok hrun with ⟨⟨⟨⟩, s⟩, hs, hrun⟩
  cases hrun
  rcases (Block.tallied code (p := ⟨0, none, ""⟩) h hdistinct (fun _ _ _ => rfl) () s
    hs).reports with ⟨errors, herrors, hattributed⟩
  rw [GenState.ofTarget, List.append_nil] at herrors
  rwa [List.reverse_reverse, herrors]

end Statements

end YulToolchain
