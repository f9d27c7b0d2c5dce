import YulToolchain.Proofs.CodeGen.Ledger
import YulToolchain.Proofs.CodeGen.Modularity

/-!
# Generation with Named Labels

Code generation with named labels takes the same steps as without, and writes the same
under other labels.

The proof follows the text of code generation with a ledger that grows. Most steps leave
the ledger as it is (`Gen.Steady`). It grows where a label is handed out, and a label that
is kept for later is still in it then. On the way the names of all functions are counted
whose entries are marked, which are all functions of the code.

Nothing is asked of the code: it need not be accepted, only generated.

## Main definitions

* `GenContext.named`: The context in which labels have names.
* `GenState.Relabelled`, `Place.Relabelled`: States and places differ in labels only.
* `Gen.Relabels`: If a computation succeeds then so does another one, which writes the same
  under other labels.
* `Stmt.namesOf`: The names of the functions that statements define.
* `Block.Echoed`, `Stmt.Echoed`: Code is written the same under other labels.

## Theorems

* `Gen.Relabels.bind`, `Gen.Relabels.step`: Sequencing.
* `Gen.entryOf_relabels`, `Gen.labelOf_relabels`: Entries of functions and labels of labels.
* `Stmt.Echoed.func`, `Stmt.Echoed.loop` and so on: One for each kind of statement, from what
  is known of its parts.
* `Expr.generate_relabels`, `Stmt.generate_relabels`, `Block.generate_relabels`: The same is
  written under other labels.
* `generate_relabels`: So it is for a program.
-/

namespace YulToolchain

/-- The context in which the entries of functions have the labels of their names. -/
def GenContext.named (c : GenContext) : GenContext := { c with namedLabels := true }

/-- Two states of code generation differ in labels only. The entries that have been marked
    are those of functions with some names. -/
structure GenState.Relabelled (w : Ledger) (names : List String) (s t : GenState Assembly) :
    Prop where
  height : t.target.height = s.target.height
  line : t.target.line = s.target.line
  slots : t.slots = s.slots
  tooDeep : t.tooDeep = s.tooDeep
  written : w.Covers names s.target.items.toList t.target.items.toList
  kept : w.Kept s.target.lastLabel t.target.lastLabel t.target.named
  entries : w.Labels (fun d => some d.name) s.entries t.entries
  labels : w.Labels (fun _ => none) s.labels t.labels

/-- The targets of the jumps out of a loop body differ in labels only. -/
structure LoopTargets.Relabelled (w : Ledger) (a b : LoopTargets) : Prop where
  exit : w.Sends a.exit b.exit none
  next : w.Sends a.next b.next none
  height : b.height = a.height

/-- Two places differ in labels only. -/
structure Place.Relabelled (w : Ledger) (p q : Place) : Prop where
  scope : q.scope = p.scope
  function : q.function = p.function
  loop : Option.Rel (LoopTargets.Relabelled w) p.loop q.loop

/-- If a computation succeeds then so does another one, whose state differs in labels only.
    The first one marks the entries of functions with some names, and the ledger grows. -/
def Gen.Relabels {α β : Type} (w : Ledger) (m : Gen Assembly α) (n : Gen Assembly β)
    (names : List String) (R : Ledger → α → β → Prop) : Prop :=
  ∀ before s t a s', GenState.Relabelled w before s t → m s = .ok (a, s') →
    ∃ b t' w', n t = .ok (b, t') ∧ w <+: w' ∧ R w' a b ∧
      GenState.Relabelled w' (before ++ names) s' t'

/-- If a computation succeeds then so does another one, and no labels are handed out or
    marked. -/
def Gen.Steady {α β : Type} (w : Ledger) (m : Gen Assembly α) (n : Gen Assembly β)
    (R : α → β → Prop) : Prop :=
  ∀ names, Gen.Carries (GenState.Relabelled w names) m n R

section Places

variable {w w' : Ledger} {p q : Place}

/-- Places are relabelled by a longer ledger. -/
theorem Place.Relabelled.mono (h : p.Relabelled w q) (hle : w <+: w') : p.Relabelled w' q := by
  refine ⟨h.scope, h.function, ?_⟩
  have hloop := h.loop
  generalize p.loop = inner, q.loop = inner' at hloop
  cases hloop with
  | none => exact .none
  | some h => exact .some ⟨h.exit.mono hle, h.next.mono hle, h.height⟩

theorem Place.Relabelled.inside (h : p.Relabelled w q) (scope : Nat) :
    Place.Relabelled w { p with scope } { q with scope } := ⟨rfl, h.function, h.loop⟩

theorem Place.Relabelled.matches (h : p.Relabelled w q) (c : GenContext) :
    Place.Matches c c.named p q := ⟨rfl, rfl, h.scope, h.function⟩

end Places

/-- A named label changes labels and names only. -/
theorem Assembly.namedLabel_keeps (x : String) (a : Assembly) :
    ∃ last named, (a.namedLabel x).2 = { a with lastLabel := last, named } := by
  cases a
  rw [namedLabel]
  split <;> exact ⟨_, _, rfl⟩

namespace Gen

section Rules

variable {w : Ledger} {α β γ δ : Type} {m : Gen Assembly α} {n : Gen Assembly β}
  {f : α → Gen Assembly γ} {g : β → Gen Assembly δ} {names names' : List String}
  {R : Ledger → α → β → Prop} {S : Ledger → γ → δ → Prop}

theorem Relabels.pure {a : α} {b : β} (h : R w a b) :
    Relabels w (pure a : Gen Assembly α) (pure b : Gen Assembly β) [] R := by
  rintro before s t _ _ hst ⟨⟩
  exact ⟨b, t, w, rfl, List.prefix_rfl, h, by rwa [List.append_nil]⟩

/-- What is relabelled one after the other, with the names of both. -/
theorem Relabels.bind (hm : Relabels w m n names R)
    (hf : ∀ w' a b, w <+: w' → R w' a b → Relabels w' (f a) (g b) names' S) :
    Relabels w (m >>= f) (n >>= g) (names ++ names') S := by
  intro before s t c s' hst hrun
  rcases bind_eq_ok hrun with ⟨⟨a, s₁⟩, ha, hc⟩
  rcases hm before s t a s₁ hst ha with ⟨b, t₁, w₁, hb, hle, hab, hst₁⟩
  rcases hf w₁ a b hle hab _ s₁ t₁ c s' hst₁ hc with ⟨d, t', w', hd, hle', hcd, hst'⟩
  refine ⟨d, t', w', ?_, hle.trans hle', hcd, by rwa [← List.append_assoc]⟩
  show (n t >>= fun r => g r.1 r.2) = _
  rw [hb]
  exact hd

/-- The order of the names does not matter. -/
theorem Relabels.perm (h : Relabels w m n names R) (hperm : names.Perm names') :
    Relabels w m n names' R := by
  intro before s t a s' hst hrun
  rcases h before s t a s' hst hrun with ⟨b, t', w', hb, hle, hab, hst'⟩
  exact ⟨b, t', w', hb, hle, hab, { hst' with written := hst'.written.perm (hperm.append_left _) }⟩

theorem Relabels.cast (h : Relabels w m n names R) (hnames : names = names') :
    Relabels w m n names' R := hnames ▸ h

/-- What marks nothing is followed by the rest. -/
theorem Relabels.next (hm : Relabels w m n [] R)
    (hf : ∀ w' a b, w <+: w' → R w' a b → Relabels w' (f a) (g b) names S) :
    Relabels w (m >>= f) (n >>= g) names S := hm.bind hf

/-- What is steady defines no names. -/
theorem Steady.relabels {Q : α → β → Prop} (h : Steady w m n Q) :
    Relabels w m n [] fun _ => Q := by
  intro before s t a s' hst hrun
  rcases h before s t a s' hst hrun with ⟨b, t', hb, hab, hst'⟩
  exact ⟨b, t', w, hb, List.prefix_rfl, hab, by rwa [List.append_nil]⟩

/-- A step that leaves the ledger as it is. -/
theorem Relabels.after {Q : α → β → Prop} (hm : Steady w m n Q)
    (hf : ∀ a b, Q a b → Relabels w (f a) (g b) names S) :
    Relabels w (m >>= f) (n >>= g) names S := by
  intro before s t c s' hst hrun
  rcases bind_eq_ok hrun with ⟨⟨a, s₁⟩, ha, hc⟩
  rcases hm before s t a s₁ hst ha with ⟨b, t₁, hb, hab, hst₁⟩
  rcases hf a b hab before s₁ t₁ c s' hst₁ hc with ⟨d, t', w', hd, hle, hcd, hst'⟩
  refine ⟨d, t', w', ?_, hle, hcd, hst'⟩
  show (n t >>= fun r => g r.1 r.2) = _
  rw [hb]
  exact hd

end Rules

section Labels

variable {w : Ledger} {i j : Nat} {name : Option String}

/-- A reference is steady if the ledger sends its label. -/
theorem reference_steady (h : w.Sends i j name) :
    Steady w (emit (.reference (.label i))) (emit (.reference (.label j))) fun _ _ => True := by
  rintro names s t _ _ hst ⟨⟩
  refine ⟨(), _, rfl, trivial, { hst with height := ?_, written := ?_ }⟩
  · show t.target.height + _ = s.target.height + _
    rw [hst.height]
    rfl
  · show w.Covers names (s.target.items.push _).toList (t.target.items.push _).toList
    rw [Array.toList_push, Array.toList_push]
    exact hst.written.reference h

/-- A relation of states that differ in labels outlasts what has to do with no label. -/
theorem relabelled_bond (w : Ledger) (names : List String) :
    Bond (GenState.Relabelled w names) where
  height _ _ hst := hst.height
  slots _ _ hst := hst.slots
  setHeight h := by
    rintro s t _ _ hst ⟨⟩
    exact ⟨(), _, rfl, trivial, { hst with height := rfl }⟩
  setLine line := by
    rintro s t _ _ hst ⟨⟩
    exact ⟨(), _, rfl, trivial, { hst with line := rfl }⟩
  -- A plain item is written on both sides.
  emit i hi := by
    rintro s t _ _ hst ⟨⟩
    refine ⟨(), _, rfl, trivial, { hst with height := ?_, written := ?_ }⟩
    · show t.target.height + _ = s.target.height + _
      rw [hst.height]
    · show w.Covers names (s.target.items.push i).toList (t.target.items.push i).toList
      rw [Array.toList_push, Array.toList_push]
      exact hst.written.plain hi
  setSlot d slot := by
    rintro s t _ _ hst ⟨⟩
    exact ⟨(), _, rfl, trivial, { hst with slots := congrArg (List.cons (d, slot)) hst.slots }⟩
  report e _ := by
    rintro s t _ _ hst ⟨⟩
    exact ⟨(), _, rfl, trivial, { hst with tooDeep := congrArg (List.cons e) hst.tooDeep }⟩

/-- A step that has to do with no label. -/
theorem Relabels.step {α β γ δ : Type} {m : Gen Assembly α} {n : Gen Assembly β}
    {f : α → Gen Assembly γ} {g : β → Gen Assembly δ} {names : List String} {Q : α → β → Prop}
    {S : Ledger → γ → δ → Prop}
    (hm : ∀ Rel : GenState Assembly → GenState Assembly → Prop, Bond Rel → Carries Rel m n Q)
    (hf : ∀ a b, Q a b → Relabels w (f a) (g b) names S) :
    Relabels w (m >>= f) (n >>= g) names S :=
  .after (fun names => hm _ (relabelled_bond w names)) hf

theorem Relabels.of_bond {α β : Type} {m : Gen Assembly α} {n : Gen Assembly β} {Q : α → β → Prop}
    (hm : ∀ Rel : GenState Assembly → GenState Assembly → Prop, Bond Rel → Carries Rel m n Q) :
    Relabels w m n [] fun _ => Q :=
  Steady.relabels fun names => hm _ (relabelled_bond w names)

theorem jumpTo_steady (h : w.Sends i j name) (difference : Int) :
    Steady w (jumpTo i difference) (jumpTo j difference) fun _ _ => True := fun names =>
  (relabelled_bond w names).jumpTo (reference_steady h names) difference

theorem jumpToIf_steady (h : w.Sends i j name) :
    Steady w (jumpToIf i) (jumpToIf j) fun _ _ => True := fun names =>
  (relabelled_bond w names).jumpToIf (reference_steady h names)

/-- Marking the entry of a function counts its name. -/
theorem label_relabels (h : w.Sends i j name) :
    Relabels w (label i) (label j) name.toList fun _ _ _ => True := by
  rintro before s t _ _ hst ⟨⟩
  refine ⟨(), _, w, rfl, List.prefix_rfl, trivial, { hst with height := ?_, written := ?_ }⟩
  · show t.target.height + _ = s.target.height + _
    rw [hst.height]
    rfl
  · show w.Covers _ (s.target.items.push _).toList (t.target.items.push _).toList
    rw [Array.toList_push, Array.toList_push]
    exact hst.written.label h

/-- A new label without a name, on both sides. -/
theorem newLabel_relabels :
    Relabels w newLabel newLabel [] fun w i j => w.Sends i j none := by
  rintro before s t _ _ hst ⟨⟩
  have hle : w <+: w ++ [(t.target.lastLabel + 1, none)] := List.prefix_append _ _
  refine ⟨_, _, _, rfl, hle, Ledger.sends_last hst.kept.length _ _, ?_⟩
  rw [List.append_nil]
  exact ⟨hst.height, hst.line, hst.slots, hst.tooDeep, hst.written.mono hle, hst.kept.newLabel,
    hst.entries.mono hle, hst.labels.mono hle⟩

/-- The label of a name stands for a label of a function's own. -/
theorem namedLabel_relabels (x : String) :
    Relabels w newLabel (namedLabel x) [] fun w i j => w.Sends i j (some x) := by
  rintro before s t _ _ hst ⟨⟩
  have hle : w <+: w ++ [((t.target.namedLabel x).1, some x)] := List.prefix_append _ _
  refine ⟨_, _, _, rfl, hle, Ledger.sends_last hst.kept.length _ _, ?_⟩
  rcases t.target.namedLabel_keeps x with ⟨last, named, hkeeps⟩
  rw [List.append_nil]
  refine ⟨?_, ?_, hst.slots, hst.tooDeep, ?_, hst.kept.namedLabel x,
    hst.entries.mono hle, hst.labels.mono hle⟩
  · show (t.target.namedLabel x).2.height = s.target.height
    rw [hkeeps, ← hst.height]
  · show (t.target.namedLabel x).2.line = s.target.line
    rw [hkeeps, ← hst.line]
  · show Ledger.Covers _ before s.target.items.toList (t.target.namedLabel x).2.items.toList
    rw [hkeeps]
    exact hst.written.mono hle

/-- A label that is known already is taken, and else one is handed out. -/
theorem Relabels.known {R : Ledger → Nat → Nat → Prop} {m n : Gen Assembly Nat}
    (find : GenState Assembly → Option Nat)
    (hfind : ∀ names s t, GenState.Relabelled w names s t → Option.Rel (R w) (find s) (find t))
    (hnew : Relabels w m n [] R) :
    Relabels w (do match find (← get) with | some id => return id | none => m)
      (do match find (← get) with | some id => return id | none => n) [] R := by
  intro before s t a s' hst hrun
  have hfound := hfind before s t hst
  change (match find s with | some id => (Pure.pure id : Gen Assembly Nat) | none => m) s
    = .ok (a, s')
    at hrun
  show ∃ b t' w', (match find t with | some id => (Pure.pure id : Gen Assembly Nat) | none => n) t
    = .ok (b, t') ∧ _
  generalize find s = known, find t = known' at hfound hrun
  cases hfound with
  | none => exact hnew before s t a s' hst hrun
  | some h => exact Relabels.pure h before s t a s' hst hrun

/-- The entry of a function has a label of its own in the one run, and that of its name in
    the other one. -/
theorem entryOf_relabels {c : GenContext} (hc : c.namedLabels = false) (d : Declaration) :
    Relabels w (entryOf c d) (entryOf c.named d) [] fun w i j => w.Sends i j (some d.name) := by
  refine Relabels.known (fun s => s.entries.lookup d) (fun names s t hst => hst.entries.lookup d) ?_
  rw [hc]
  refine (namedLabel_relabels d.name).next fun w₁ i j _ hij => ?_
  refine .after (Q := fun _ _ => True) ?_ fun _ _ _ => .pure hij
  rintro names s t _ _ hst ⟨⟩
  exact ⟨(), _, rfl, trivial, { hst with entries := hst.entries.cons hij }⟩

/-- A label of a declaration has no name. -/
theorem labelOf_relabels (d : Declaration) :
    Relabels w (labelOf d) (labelOf d) [] fun w i j => w.Sends i j none := by
  refine Relabels.known (fun s => s.labels.lookup d) (fun names s t hst => hst.labels.lookup d) ?_
  refine newLabel_relabels.next fun w₁ i j _ hij => ?_
  refine .after (Q := fun _ _ => True) ?_ fun _ _ _ => .pure hij
  rintro names s t _ _ hst ⟨⟩
  exact ⟨(), _, rfl, trivial, { hst with labels := hst.labels.cons hij }⟩

/-- What is looked up is declared under the name. -/
theorem lookup_steady {c : GenContext} {p q : Place} (hp : p.Relabelled w q) (line : Nat)
    (x : String) :
    Steady w (lookup c p line x) (lookup c.named q line x) fun a b => a = b ∧ a.1.name = x := by
  intro names
  rw [lookup, lookup, show c.named.scopes = c.scopes from rfl, hp.scope]
  split
  · rename_i found hfound
    exact .pure ⟨rfl, (Scopes.lookup_found hfound).1⟩
  · exact .fails

/-- Leaving a body. -/
theorem leaveBody_steady {p q : Place} (hp : p.Relabelled w q) (line : Nat)
    {goal : LoopTargets → Nat}
    (hgoal : ∀ a b, LoopTargets.Relabelled w a b → w.Sends (goal a) (goal b) none) :
    Steady w (leaveBody p line goal) (leaveBody q line goal) fun _ _ => True := by
  intro names
  have hloop := hp.loop
  rw [leaveBody, leaveBody]
  generalize p.loop = inner, q.loop = inner' at hloop
  cases hloop with
  | none => exact .fails
  | @some a b h =>
      simp only [h.height]
      refine ((relabelled_bond w names).popUntil a.height).same fun popped => ?_
      exact jumpTo_steady (hgoal a b h) popped names

end Labels

end Gen

open Gen

section Expressions

variable {c : GenContext} {w : Ledger} {p q : Place}

mutual

/-- An expression is written the same under other labels. -/
theorem Expr.generate_relabels (hc : c.namedLabels = false) : ∀ (e : Expr) {w : Ledger},
    p.Relabelled w q →
      Relabels w (e.generate c p) (e.generate c.named q) [] fun _ _ _ => True
  -- Where no label is involved, every bond carries the code.
  | .literal l, w, hp => by
      rw [Expr.generate, Expr.generate]
      exact .of_bond fun _ hb => hb.literal l
  | .ident line name, w, hp => by
      rw [Expr.generate, Expr.generate]
      refine .step (fun _ _ => Carries.lookup (hp.matches c) line name) ?_
      rintro ⟨d, symbol⟩ _ rfl
      cases symbol with
      | var type => exact .of_bond fun _ hb => hb.copyVariable (hp.matches c) line name
      | label =>
          refine (labelOf_relabels d).next fun w₁ i j _ hij => ?_
          exact (reference_steady hij).relabels
      | function params returns => exact .of_bond fun _ _ => .fails
  | .instr line op args, w, hp => by
      rw [Expr.generate, Expr.generate]
      -- The arguments may make the ledger longer.
      refine (Expr.generateArgs_relabels hc args hp).next fun w₁ _ _ _ _ => ?_
      refine .step (fun _ hb => hb.setLine line) fun _ _ _ => ?_
      exact .of_bond fun _ hb => hb.instruction op
  | .call line name args, w, hp => by
      rw [Expr.generate, Expr.generate, show c.named.dialect = c.dialect from rfl]
      rcases c.dialect.builtin? name with _ | b
      · refine .step (fun _ _ => Carries.lookup (hp.matches c) line name) ?_
        rintro ⟨d, symbol⟩ _ rfl
        cases symbol with
        | var type => exact .of_bond fun _ _ => .fails
        | label => exact .of_bond fun _ _ => .fails
        | function params returns =>
            -- The label to return to is still in the ledger when it is marked.
            refine newLabel_relabels.next fun w₁ back back' h₁ hback => ?_
            refine .after (reference_steady hback) fun _ _ _ => ?_
            refine (Expr.generateArgs_relabels hc args (hp.mono h₁)).next fun w₂ _ _ h₂ _ => ?_
            refine (entryOf_relabels hc d).next fun w₃ entry entry' h₃ hentry => ?_
            refine .step (fun _ hb => hb.setLine line) fun _ _ _ => ?_
            refine .after (jumpTo_steady hentry _) fun _ _ _ => ?_
            exact label_relabels (hback.mono (h₂.trans h₃))
      · simp only
        -- One case for each way in which the builtin is compiled.
        rcases b.code with op | _ | _ | _ | _
        · refine (Expr.generateArgs_relabels hc args hp).next fun w₁ _ _ _ _ => ?_
          exact .of_bond fun _ hb => hb.instruction op
        · exact .of_bond fun _ hb => hb.objectQuery rfl line name args (by trivial) fun _ => trivial
        · exact .of_bond fun _ hb => hb.objectQuery rfl line name args (by trivial) fun _ => trivial
        · refine (Expr.generateArgs_relabels hc args hp).next fun w₁ _ _ _ _ => ?_
          exact .of_bond fun _ hb => hb.instruction .codecopy
        · by_cases htext : b.literalArguments = true
          · simp only [if_pos htext]
            exact .of_bond fun _ hb => hb.zeros b.returns
          · simp only [if_neg htext]
            refine (Expr.generateArgs_relabels hc args hp).next fun w₁ _ _ _ _ => ?_
            refine .step (fun _ hb => hb.pops args.length) fun _ _ _ => ?_
            exact .of_bond fun _ hb => hb.zeros b.returns

/-- Arguments are relabelled from the last to the first. -/
theorem Expr.generateArgs_relabels (hc : c.namedLabels = false) : ∀ (args : List Expr)
    {w : Ledger}, p.Relabelled w q →
      Relabels w (Expr.generateArgs c p args) (Expr.generateArgs c.named q args) []
        fun _ _ _ => True
  | [], w, hp => by
      rw [Expr.generateArgs, Expr.generateArgs]
      exact .pure trivial
  | e :: rest, w, hp => by
      rw [Expr.generateArgs, Expr.generateArgs]
      refine (Expr.generateArgs_relabels hc rest hp).next fun w₁ _ _ h₁ _ => ?_
      exact Expr.generate_relabels hc e (hp.mono h₁)

end

end Expressions

section Names

/-- The names of the functions that some statements define, not those inside them. -/
def Stmt.namesOf (stmts : List Stmt) : List String := (Stmt.functionsOf stmts).map (·.name)

/-- The statements of the default case, whose code stands among the comparisons. -/
def Case.defaultStmts : List Case → List Stmt
  | [] => []
  | ⟨_, none, body⟩ :: rest => body.allStmts ++ Case.defaultStmts rest
  | ⟨_, some _, _⟩ :: rest => Case.defaultStmts rest

/-- The statements of the cases that have a value. -/
def Case.valueStmts : List Case → List Stmt
  | [] => []
  | ⟨_, none, _⟩ :: rest => Case.valueStmts rest
  | ⟨_, some _, body⟩ :: rest => body.allStmts ++ Case.valueStmts rest

theorem Stmt.namesOf_append (stmts stmts' : List Stmt) :
    Stmt.namesOf (stmts ++ stmts') = Stmt.namesOf stmts ++ Stmt.namesOf stmts' := by
  rw [namesOf, functionsOf_append, List.map_append, ← namesOf, ← namesOf]

/-- A statement that defines no function has the names inside it. -/
theorem Stmt.namesOf_cons {s : Stmt} (h : s.function? = none) (rest : List Stmt) :
    Stmt.namesOf (s :: rest) = Stmt.namesOf rest := by
  rw [namesOf, functionsOf_cons, h]
  rfl

/-- A function contributes its name in front. -/
theorem Stmt.namesOf_func (line : Nat) (name : String) (params returns : List TypedName)
    (body : Block) (rest : List Stmt) :
    Stmt.namesOf (.func line name params returns body :: rest) = name :: Stmt.namesOf rest := by
  rw [namesOf, functionsOf_cons]
  rfl

/-- The default and the other cases make up all cases, in another order. -/
theorem Case.allStmtsSeq_perm (cases : List Case) :
    (Case.defaultStmts cases ++ Case.valueStmts cases).Perm (Case.allStmtsSeq cases) := by
  induction cases with
  | nil =>
      rw [Case.defaultStmts, Case.valueStmts, Case.allStmtsSeq]
      exact List.Perm.refl _
  | cons first rest ih =>
      rcases first with ⟨_, _ | _, body⟩
      · rw [Case.defaultStmts, Case.valueStmts, Case.allStmtsSeq, List.append_assoc]
        exact ih.append_left _
      · rw [Case.defaultStmts, Case.valueStmts, Case.allStmtsSeq]
        exact (List.perm_append_comm_assoc _ _ _).trans (ih.append_left _)

theorem Stmt.namesOf_perm {stmts stmts' : List Stmt} (h : stmts.Perm stmts') :
    (Stmt.namesOf stmts).Perm (Stmt.namesOf stmts') := (h.filterMap _).map _

end Names

section Statements

variable {c : GenContext}

/-- A block is written the same under other labels, from whatever ledger it begins with. -/
def Block.Echoed (c : GenContext) (b : Block) : Prop :=
  ∀ ⦃w : Ledger⦄ ⦃p q : Place⦄,
    p.Relabelled w q → ∀ scope : Nat,
    Relabels w (b.generate c p scope) (b.generate c.named q scope) (Stmt.namesOf b.allStmts)
      fun _ _ _ => True

/-- Statements are written the same under other labels. -/
def Stmt.EchoedSeq (c : GenContext) (stmts : List Stmt) : Prop :=
  ∀ ⦃w : Ledger⦄ ⦃p q : Place⦄,
    p.Relabelled w q → ∀ next : Nat,
    Relabels w (Stmt.generateSeq c p next stmts) (Stmt.generateSeq c.named q next stmts)
      (Stmt.namesOf (Stmt.allStmtsSeq stmts)) fun _ _ _ => True

/-- A statement is written the same under other labels. -/
def Stmt.Echoed (c : GenContext) (s : Stmt) : Prop :=
  ∀ ⦃w : Ledger⦄ ⦃p q : Place⦄,
    p.Relabelled w q → ∀ next : Nat,
    Relabels w (s.generate c p next) (s.generate c.named q next)
      (Stmt.namesOf (s :: s.allInner)) fun _ _ _ => True

/-- So are the comparisons of a switch, and the labels of its bodies are sent to each other. -/
def Case.EchoedTests (c : GenContext) (cases : List Case) : Prop :=
  ∀ ⦃w : Ledger⦄ ⦃p q : Place⦄,
    p.Relabelled w q → ∀ next : Nat,
    Relabels w (Case.generateTests c p next cases) (Case.generateTests c.named q next cases)
      (Stmt.namesOf (Case.defaultStmts cases)) fun w ids ids' =>
        List.Forall₂ (fun i j => w.Sends i j none) ids ids' ∧ ids.length = Case.valueCount cases

/-- So are the bodies behind them. -/
def Case.EchoedBodies (c : GenContext) (cases : List Case) : Prop :=
  ∀ ⦃after after' : Nat⦄ ⦃w : Ledger⦄ ⦃p q : Place⦄,
    p.Relabelled w q →
    w.Sends after after' none → ∀ (next : Nat) ⦃ids ids' : List Nat⦄,
    List.Forall₂ (fun i j => w.Sends i j none) ids ids' → ids.length = Case.valueCount cases →
    Relabels w (Case.generateBodies c p next after ids cases)
      (Case.generateBodies c.named q next after' ids' cases)
      (Stmt.namesOf (Case.valueStmts cases)) fun _ _ _ => True

/-- A block is echoed if its statements are. -/
theorem Block.Echoed.of_stmts {line : Nat} {stmts : List Stmt} (hinner : Stmt.EchoedSeq c stmts) :
    Block.Echoed c ⟨line, stmts⟩ := by
  intro w p q hp scope
  rw [Block.generate, Block.generate, Block.allStmts]
  refine .step (fun _ hb => hb.readHeight) ?_
  rintro before _ rfl
  refine .cast ?_ (List.append_nil _)
  refine (hinner (hp.inside scope) (scope + 1)).bind fun w₁ _ _ _ _ => ?_
  exact .of_bond fun _ hb => hb.closeBlock (hp.matches c) scope line before

namespace Stmt.EchoedSeq

theorem nil : Stmt.EchoedSeq c [] := by
  intro w p q hp next
  rw [Stmt.generateSeq, Stmt.generateSeq, Stmt.allStmtsSeq]
  exact .pure trivial

/-- The first statement makes the ledger longer for the others. -/
theorem cons {s : Stmt} {rest : List Stmt} (hone : s.Echoed c) (hmore : Stmt.EchoedSeq c rest) :
    Stmt.EchoedSeq c (s :: rest) := by
  intro w p q hp next
  rw [Stmt.generateSeq, Stmt.generateSeq, Stmt.allStmtsSeq, ← List.cons_append,
    Stmt.namesOf_append]
  refine (hone hp next).bind fun w₁ _ _ h₁ _ => ?_
  exact hmore (hp.mono h₁) _

end Stmt.EchoedSeq

namespace Stmt.Echoed

/-- An expression that is a statement. -/
theorem expr (hc : c.namedLabels = false) {line : Nat} {e : Expr} :
    (Stmt.expr line e).Echoed c := by
  intro w p q hp next
  rw [Stmt.generate, Stmt.generate, show c.named.dialect = c.dialect from rfl]
  refine .step (fun _ hb => hb.setLine line) fun _ _ _ => ?_
  refine .step (fun _ hb => hb.readHeight) ?_
  rintro before _ rfl
  refine (Expr.generate_relabels hc e hp).next fun w₁ _ _ _ _ => ?_
  refine .of_bond fun _ hb => .ite (fun _ => ?_) fun _ => .pure trivial
  exact hb.expectHeight line before "expression statement"

/-- An assignment. -/
theorem assign (hc : c.namedLabels = false) {line : Nat} {targets : List Identifier}
    {value : Expr} : (Stmt.assign line targets value).Echoed c := by
  intro w p q hp next
  rw [Stmt.generate, Stmt.generate]
  refine .step (fun _ hb => hb.setLine line) fun _ _ _ => ?_
  refine (Expr.generate_relabels hc value hp).next fun w₁ _ _ _ _ => ?_
  exact .of_bond fun _ hb => hb.assignVariables (hp.matches c) targets

/-- A declaration. -/
theorem decl (hc : c.namedLabels = false) {line : Nat} {vars : List TypedName}
    {value : Option Expr} : (Stmt.decl line vars value).Echoed c := by
  intro w p q hp next
  rw [Stmt.generate, Stmt.generate]
  refine .step (fun _ hb => hb.setLine line) fun _ _ _ => ?_
  refine .step (fun _ hb => hb.readHeight) ?_
  rintro before _ rfl
  -- What comes behind the value, or behind the zeros.
  have hrest : ∀ w' : Ledger, Relabels w'
      (expectHeight line (before + vars.length) "variable declaration" >>= fun _ =>
        declareSlots c p before vars)
      (expectHeight line (before + vars.length) "variable declaration" >>= fun _ =>
        declareSlots c.named q before vars) [] fun _ _ _ => True := by
    intro w'
    refine .step (fun _ hb => hb.expectHeight line _ _) fun _ _ _ => ?_
    exact .of_bond fun _ hb => hb.declareSlots (hp.matches c) vars before
  cases value with
  | none => exact .step (fun _ hb => hb.zeros vars.length) fun _ _ _ => hrest w
  | some e => exact (Expr.generate_relabels hc e hp).next fun w₁ _ _ _ _ => hrest w₁

/-- The entry of a function and the label behind it are both in the ledger before anything of the
    function is written, and stay in it until they are marked. -/
theorem func (hc : c.namedLabels = false) {line : Nat} {name : String}
    {params returns : List TypedName} {body : Block} (hinner : body.Echoed c) :
    (Stmt.func line name params returns body).Echoed c := by
  intro w p q hp next
  rw [Stmt.generate, Stmt.generate, Stmt.allInner, Stmt.namesOf_func]
  refine .step (fun _ hb => hb.setLine line) fun _ _ _ => ?_
  refine .after (lookup_steady hp line name) ?_
  -- The entry has the name of the function in the other run.
  rintro ⟨d, symbol⟩ _ ⟨rfl, rfl⟩
  refine (entryOf_relabels hc d).next fun w₁ entry entry' h₁ hentry => ?_
  refine .step (fun _ hb => hb.setSlots next params.reverse 1) fun _ _ _ => ?_
  refine .step (fun _ hb => hb.readHeight) ?_
  rintro before _ rfl
  refine newLabel_relabels.next fun w₂ after after' h₂ hafter => ?_
  refine .after (jumpTo_steady hafter _) fun _ _ _ => ?_
  -- Marking it makes the name one of those that are covered.
  refine (label_relabels (hentry.mono h₂)).bind fun w₃ _ _ h₃ _ => ?_
  refine .step (fun _ hb => hb.setHeight _) fun _ _ _ => ?_
  refine .step (fun _ hb => hb.setSlots next returns _) fun _ _ _ => ?_
  refine .step (fun _ hb => hb.zeros returns.length) fun _ _ _ => ?_
  -- The body stands in a place without a loop.
  have hinside : ∀ w : Ledger,
      Place.Relabelled w ⟨next, none, d.name⟩ ⟨next, none, d.name⟩ :=
    fun _ => ⟨rfl, rfl, .none⟩
  refine .cast ?_ (List.append_nil _)
  -- The names inside the body come next.
  refine (hinner (hinside w₃) (next + 1)).bind fun w₄ _ _ h₄ _ => ?_
  refine .step (fun _ hb => hb.expectHeight line _ "function body") fun _ _ _ => ?_
  refine .step (fun _ hb => hb.unwindFrame ((hinside w₄).matches c) _ _) fun _ _ _ => ?_
  refine .step (fun _ hb => hb.setLine line) fun _ _ _ => ?_
  refine .step (fun _ hb => hb.jump _) fun _ _ _ => ?_
  -- The label behind the function has no name.
  refine (label_relabels (hafter.mono (h₃.trans h₄))).next fun w₅ _ _ _ _ => ?_
  exact .of_bond fun _ hb => hb.expectHeight line before "function definition"

/-- A condition. -/
theorem cond (hc : c.namedLabels = false) {line : Nat} {test : Expr} {body : Block}
    (hinner : body.Echoed c) : (Stmt.cond line test body).Echoed c := by
  intro w p q hp next
  rw [Stmt.generate, Stmt.generate, Stmt.allInner, Stmt.namesOf_cons rfl]
  refine .step (fun _ hb => hb.setLine line) fun _ _ _ => ?_
  refine .step (fun _ hb => hb.readHeight) ?_
  rintro before _ rfl
  refine (Expr.generate_relabels hc test hp).next fun w₁ _ _ h₁ _ => ?_
  refine .step (fun _ hb => hb.instruction .iszero) fun _ _ _ => ?_
  refine newLabel_relabels.next fun w₂ after after' h₂ hafter => ?_
  refine .after (jumpToIf_steady hafter) fun _ _ _ => ?_
  refine .cast ?_ (List.append_nil _)
  refine (hinner (hp.mono (h₁.trans h₂)) next).bind fun w₃ _ _ h₃ _ => ?_
  refine (label_relabels (hafter.mono h₃)).next fun w₄ _ _ _ _ => ?_
  exact .of_bond fun _ hb => hb.expectHeight line before "if"

/-- A switch. -/
theorem switch (hc : c.namedLabels = false) {line : Nat} {subject : Expr} {cases : List Case}
    (hcompare : Case.EchoedTests c cases) (hinner : Case.EchoedBodies c cases) :
    (Stmt.switch line subject cases).Echoed c := by
  intro w p q hp next
  rw [Stmt.generate, Stmt.generate, Stmt.allInner, Stmt.namesOf_cons rfl]
  refine .step (fun _ hb => hb.setLine line) fun _ _ _ => ?_
  refine .step (fun _ hb => hb.readHeight) ?_
  rintro before _ rfl
  refine (Expr.generate_relabels hc subject hp).next fun w₁ _ _ h₁ _ => ?_
  refine newLabel_relabels.next fun w₂ after after' h₂ hafter => ?_
  have hp₂ := hp.mono (h₁.trans h₂)
  -- The default case comes first, wherever it stands.
  refine .perm ?_ (Stmt.namesOf_perm (Case.allStmtsSeq_perm cases))
  rw [Stmt.namesOf_append]
  refine (hcompare hp₂ next).bind fun w₃ bodies bodies' h₃ hids => ?_
  refine .after (jumpTo_steady (hafter.mono h₃) 0) fun _ _ _ => ?_
  refine .cast ?_ (List.append_nil _)
  refine (hinner (hp₂.mono h₃) (hafter.mono h₃) next hids.1 hids.2).bind fun w₄ _ _ h₄ _ => ?_
  refine (label_relabels (hafter.mono (h₃.trans h₄))).next fun w₅ _ _ _ _ => ?_
  refine .step (fun _ hb => hb.pops 1) fun _ _ _ => ?_
  exact .of_bond fun _ hb => hb.expectHeight line before "switch"

/-- The three labels of a loop are in the ledger from the start. -/
theorem loop (hc : c.namedLabels = false) {line preLine : Nat} {pre : List Stmt} {test : Expr}
    {post body : Block} (hinit : Stmt.EchoedSeq c pre) (hround : body.Echoed c)
    (hthen : post.Echoed c) : (Stmt.loop line ⟨preLine, pre⟩ test post body).Echoed c := by
  intro w p q hp next
  rw [Stmt.generate, Stmt.generate, Stmt.allInner, Stmt.namesOf_cons rfl,
    Stmt.namesOf_append, Stmt.namesOf_append, List.append_assoc]
  refine .step (fun _ hb => hb.setLine line) fun _ _ _ => ?_
  refine .step (fun _ hb => hb.readHeight) ?_
  rintro before _ rfl
  have hin := hp.inside next
  -- The names of the init block come first.
  refine (hinit hin (next + 1)).bind fun w₁ _ _ h₁ _ => ?_
  refine newLabel_relabels.next fun w₂ start start' h₂ hstart => ?_
  refine newLabel_relabels.next fun w₃ continued continued' h₃ hcontinued => ?_
  refine newLabel_relabels.next fun w₄ after after' h₄ hafter => ?_
  refine .step (fun _ hb => hb.setLine line) fun _ _ _ => ?_
  refine (label_relabels (hstart.mono (h₃.trans h₄))).next fun w₅ _ _ h₅ _ => ?_
  have h₁₅ := h₁.trans (h₂.trans (h₃.trans (h₄.trans h₅)))
  refine (Expr.generate_relabels hc test (hin.mono h₁₅)).next fun w₆ _ _ h₆ _ => ?_
  refine .step (fun _ hb => hb.instruction .iszero) fun _ _ _ => ?_
  have hafter₆ := hafter.mono (h₅.trans h₆)
  refine .after (jumpToIf_steady hafter₆) fun _ _ _ => ?_
  refine .step (fun _ hb => hb.readHeight) ?_
  rintro height _ rfl
  have hcontinued₆ := hcontinued.mono (h₄.trans (h₅.trans h₆))
  -- The labels of the loop are in the ledger when the body is generated.
  have hbody : Place.Relabelled w₆ ⟨next, some ⟨after, continued, height⟩, p.function⟩
      ⟨next, some ⟨after', continued', height⟩, q.function⟩ :=
    ⟨rfl, hp.function, .some ⟨hafter₆, hcontinued₆, rfl⟩⟩
  refine (hround hbody _).bind fun w₇ _ _ h₇ _ => ?_
  refine (label_relabels (hcontinued₆.mono h₇)).next fun w₈ _ _ h₈ _ => ?_
  refine .cast ?_ (List.append_nil _)
  -- The names of the post part come last.
  refine (hthen (hin.mono (h₁₅.trans (h₆.trans (h₇.trans h₈)))) _).bind fun w₉ _ _ h₉ _ => ?_
  have h₆₉ := h₆.trans (h₇.trans (h₈.trans h₉))
  refine .after (jumpTo_steady (hstart.mono (h₃.trans (h₄.trans (h₅.trans h₆₉)))) 0)
    fun _ _ _ => ?_
  refine (label_relabels (hafter.mono (h₅.trans h₆₉))).next fun w₁₀ _ _ _ _ => ?_
  exact .of_bond fun _ hb => hb.closeBlock (hp.matches c) next preLine before

/-- A break. -/
theorem brk {line : Nat} : (Stmt.brk line).Echoed c := by
  intro w p q hp next
  rw [Stmt.generate, Stmt.generate]
  refine .step (fun _ hb => hb.setLine line) fun _ _ _ => ?_
  exact (leaveBody_steady hp line fun _ _ h => h.exit).relabels

/-- A continue. -/
theorem cont {line : Nat} : (Stmt.cont line).Echoed c := by
  intro w p q hp next
  rw [Stmt.generate, Stmt.generate]
  refine .step (fun _ hb => hb.setLine line) fun _ _ _ => ?_
  exact (leaveBody_steady hp line fun _ _ h => h.next).relabels

/-- A block. -/
theorem block {line : Nat} {stmts : List Stmt} (hinner : Block.Echoed c ⟨line, stmts⟩) :
    (Stmt.block ⟨line, stmts⟩).Echoed c := by
  intro w p q hp next
  rw [Stmt.generate, Stmt.generate, Stmt.allInner, Stmt.namesOf_cons rfl]
  refine .step (fun _ hb => hb.setLine line) fun _ _ _ => ?_
  exact hinner hp next

/-- A label. -/
theorem label {line : Nat} {name : String} : (Stmt.label line name).Echoed c := by
  intro w p q hp next
  rw [Stmt.generate, Stmt.generate]
  refine .step (fun _ hb => hb.setLine line) fun _ _ _ => ?_
  refine .step (fun _ _ => Carries.lookup (hp.matches c) line name) ?_
  rintro ⟨d, _⟩ _ rfl
  refine (labelOf_relabels d).next fun w₁ i j _ hij => ?_
  exact label_relabels hij

/-- An assignment from the stack. -/
theorem stackAssign {line : Nat} {target : Identifier} :
    (Stmt.stackAssign line target).Echoed c := by
  intro w p q hp next
  rw [Stmt.generate, Stmt.generate]
  refine .step (fun _ hb => hb.setLine line) fun _ _ _ => ?_
  exact .of_bond fun _ hb => hb.assignVariable (hp.matches c) line target.name

end Stmt.Echoed

namespace Case.EchoedTests

theorem nil : Case.EchoedTests c [] := by
  intro w p q hp next
  rw [Case.generateTests, Case.generateTests, Case.defaultStmts]
  exact .pure ⟨.nil, rfl⟩

/-- The default among the comparisons. -/
theorem default {line : Nat} {body : Block} {rest : List Case} (hinner : body.Echoed c)
    (hmore : Case.EchoedTests c rest) : Case.EchoedTests c (⟨line, none, body⟩ :: rest) := by
  intro w p q hp next
  rw [Case.generateTests, Case.generateTests, Case.defaultStmts, Stmt.namesOf_append]
  refine (hinner hp next).bind fun w₁ _ _ h₁ _ => ?_
  exact hmore (hp.mono h₁) _

/-- A comparison with its label. -/
theorem value {line : Nat} {l : Literal} {body : Block} {rest : List Case}
    (hmore : Case.EchoedTests c rest) : Case.EchoedTests c (⟨line, some l, body⟩ :: rest) := by
  intro w p q hp next
  rw [Case.generateTests, Case.generateTests, Case.defaultStmts]
  refine .step (fun _ hb => hb.literal l) fun _ _ _ => ?_
  refine .step (fun _ hb => hb.instruction (.dup 1)) fun _ _ _ => ?_
  refine .step (fun _ hb => hb.instruction .eq) fun _ _ _ => ?_
  refine newLabel_relabels.next fun w₁ id id' h₁ hid => ?_
  refine .after (jumpToIf_steady hid) fun _ _ _ => ?_
  refine .cast ?_ (List.append_nil _)
  refine (hmore (hp.mono h₁) _).bind fun w₂ ids ids' h₂ hids => ?_
  refine .pure ⟨.cons (hid.mono h₂) hids.1, ?_⟩
  rw [List.length_cons, hids.2, Case.valueCount, Case.valueCount, List.countP_cons]
  rfl

end Case.EchoedTests

namespace Case.EchoedBodies

/-- No bodies. -/
theorem nil : Case.EchoedBodies c [] := by
  intro after after' w p q hp hafter next ids ids' hids hlength
  obtain rfl := List.length_eq_zero_iff.mp hlength
  cases hids
  rw [Case.generateBodies, Case.generateBodies, Case.valueStmts]
  · exact .pure trivial
  all_goals simp

/-- The default among the bodies. -/
theorem default {line : Nat} {body : Block} {rest : List Case} (hmore : Case.EchoedBodies c rest) :
    Case.EchoedBodies c (⟨line, none, body⟩ :: rest) := by
  intro after after' w p q hp hafter next ids ids' hids hlength
  rw [Case.generateBodies, Case.generateBodies, Case.valueStmts]
  exact hmore hp hafter _ hids hlength

/-- The body of a case, behind its label. -/
theorem value {line : Nat} {l : Literal} {body : Block} {rest : List Case}
    (hinner : body.Echoed c) (hmore : Case.EchoedBodies c rest) :
    Case.EchoedBodies c (⟨line, some l, body⟩ :: rest) := by
  intro after after' w p q hp hafter next ids ids' hids hlength
  cases hids with
  | nil =>
      rw [Case.valueCount, List.countP_cons] at hlength
      exact absurd hlength (by simp)
  | @cons id id' ids ids' hid hids =>
      have hlength' : ids.length = Case.valueCount rest := by
        rw [Case.valueCount, List.countP_cons] at hlength
        exact Nat.succ.inj hlength
      rw [Case.generateBodies, Case.generateBodies, Case.valueStmts, Stmt.namesOf_append]
      refine (label_relabels hid).next fun w₁ _ _ h₁ _ => ?_
      refine (hinner (hp.mono h₁) next).bind fun w₂ _ _ h₂ _ => ?_
      have hle := h₁.trans h₂
      have hlater := hmore (hp.mono hle) (hafter.mono hle) (next + body.scopeCount)
        (hids.imp fun _ _ h => h.mono hle) hlength'
      -- Both runs are at their last body, or neither is.
      cases hids with
      | nil => exact hlater
      | cons _ _ => exact .after (jumpTo_steady (hafter.mono hle) 0) fun _ _ _ => hlater

end Case.EchoedBodies

mutual

/-- A block is written the same under other labels. -/
theorem Block.generate_relabels (hc : c.namedLabels = false) : ∀ b : Block, b.Echoed c
  | ⟨_, stmts⟩ => .of_stmts (Stmt.generateSeq_relabels hc stmts)

theorem Stmt.generateSeq_relabels (hc : c.namedLabels = false) : ∀ stmts : List Stmt,
    Stmt.EchoedSeq c stmts
  | [] => .nil
  | s :: rest => .cons (Stmt.generate_relabels hc s) (Stmt.generateSeq_relabels hc rest)

/-- A statement is written the same under other labels. -/
theorem Stmt.generate_relabels (hc : c.namedLabels = false) : ∀ s : Stmt, s.Echoed c
  | .expr _ _ => .expr hc
  | .assign _ _ _ => .assign hc
  | .decl _ _ _ => .decl hc
  | .func _ _ _ _ body => .func hc (Block.generate_relabels hc body)
  | .cond _ _ body => .cond hc (Block.generate_relabels hc body)
  | .switch _ _ cases => .switch hc (Case.generateTests_relabels hc cases)
      (Case.generateBodies_relabels hc cases)
  | .loop _ ⟨_, pre⟩ _ post body => .loop hc (Stmt.generateSeq_relabels hc pre)
      (Block.generate_relabels hc body) (Block.generate_relabels hc post)
  | .brk _ => .brk
  | .cont _ => .cont
  | .block ⟨line, stmts⟩ => .block (Block.generate_relabels hc ⟨line, stmts⟩)
  | .label _ _ => .label
  | .stackAssign _ _ => .stackAssign

/-- The labels of the bodies of a switch are sent to each other. -/
theorem Case.generateTests_relabels (hc : c.namedLabels = false) : ∀ cases : List Case,
    Case.EchoedTests c cases
  | [] => .nil
  | ⟨_, none, body⟩ :: rest => .default (Block.generate_relabels hc body)
      (Case.generateTests_relabels hc rest)
  | ⟨_, some _, _⟩ :: rest => .value (Case.generateTests_relabels hc rest)

/-- Any list of cases is echoed. -/
theorem Case.generateBodies_relabels (hc : c.namedLabels = false) : ∀ cases : List Case,
    Case.EchoedBodies c cases
  | [] => .nil
  | ⟨_, none, _⟩ :: rest => .default (Case.generateBodies_relabels hc rest)
  | ⟨_, some _, body⟩ :: rest => .value (Block.generate_relabels hc body)
      (Case.generateBodies_relabels hc rest)

end

/-- A program that is generated without names is generated with names, too, whatever is
    attached. The same is reported for it, and the same is written under other labels. The
    entries that are marked are those of all functions. -/
theorem generate_relabels (hc : c.namedLabels = false) {code : Block} {subs : List Attached}
    {a : Assembly} {errors : List StackTooDeep}
    (hrun : generate c code { (Target.fresh : Assembly) with attachments := subs }
      = .ok (errors, a)) (subs' : List Attached) :
    ∃ (b : Assembly) (w : Ledger),
      generate c.named code { (Target.fresh : Assembly) with attachments := subs' }
        = .ok (errors, b) ∧ b.line = a.line ∧ w.Faithful ∧
      w.Covers (code.allFunctions.map (·.name)) a.items.toList b.items.toList := by
  rcases bind_eq_ok hrun with ⟨⟨_, s⟩, hs, hrest⟩
  cases hrest
  -- Both runs start with label zero in the ledger.
  have hstart : GenState.Relabelled [(0, none)] []
      (.ofTarget { (Target.fresh : Assembly) with attachments := subs })
      (.ofTarget { (Target.fresh : Assembly) with attachments := subs' }) :=
    ⟨rfl, rfl, rfl, rfl, .nil, .start, .nil, .nil⟩
  have hp : Place.Relabelled [(0, none)] ⟨0, none, ""⟩ ⟨0, none, ""⟩ := ⟨rfl, rfl, .none⟩
  -- The other run follows, and its ledger covers all functions.
  rcases Block.generate_relabels hc code hp 0 [] _ _ _ s hstart hs with
    ⟨_, t, w, ht, -, -, hst⟩
  refine ⟨t.target, w, ?_, hst.line, hst.kept.faithful, hst.written⟩
  rw [generate, StateT.run, ht, ← hst.tooDeep]
  rfl

end Statements

end YulToolchain
