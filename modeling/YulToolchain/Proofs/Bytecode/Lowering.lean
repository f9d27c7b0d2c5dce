import YulToolchain.Proofs.Assembly.Embedding
import YulToolchain.Proofs.Bytecode.Emission

/-!
# Generated Statements

The code that is generated for a program is code of the program.

A statement is generated at a site and leaves the site behind it, where the variables it
declares have got the slots that their values are in. Blocks leave the site that they
found. So `Site.At` is carried along, and what is written is code at the sites that it
passes.

## Main definitions

* `Undeclared`: The variables that some statements leave alone.
* `Block.Lowers`, `Stmt.Lowers`: What is written for a block or a statement is code of it.

## Theorems

* `Site.At.enter`, `Site.At.declare`, `Site.At.enterFunction`: The sites along a program.
* `Stmt.Lowers.func`, `Stmt.Lowers.loop` and so on: One for each kind of statement, from what is
  known of its parts.
* `Stmt.generate_coded`, `Block.generate_coded`: Items of all statements and blocks.
* `generate_coded`, `Object.compile_coded`: Items of a program.
-/

namespace YulToolchain

open Gen

/-- The variables of scopes below a number, but for those of one scope with some names. -/
def Undeclared (next scope : Nat) (names : List String) (key : Declaration) : Prop :=
  key.scope < next ∧ (key.scope = scope → key.name ∉ names)

section Places

variable {c : GenContext} {p : Place} {next : Nat} {v : Sight} {entry : Declaration → Nat}
  {base : Nat} {k : Site} {s t u : GenState Assembly}

/-- The site at the start of a block. -/
theorem Site.At.enter {stmts : List Stmt} (h : k.At c p next v entry base s)
    (hin : c.scopes.Inherits next p.scope v) (ho : c.scopes.Opened next stmts) :
    (k.enter stmts fun f => entry ⟨next, f.name⟩).At c { p with scope := next } (next + 1)
      (v.enter stmts) entry base s := by
  refine ⟨h.tells.enter hin ho, ?_, ?_, h.height, fun x hx => ?_, h.loop, h.below⟩
  -- The functions of the block come in front of those that were in sight.
  · rw [Sight.functions_enter, ← h.functions]
    simp only [Site.enter, EntryTable.functions, List.map_cons, List.map_map]
    congr 1
    exact List.map_id _
  -- Each function in sight has the entry of its declaration.
  · intro x f id key symbol hf hl
    rw [Site.enter, EntryTable.find?] at hf
    split at hf
    · -- A function of the block.
      rename_i found hfound
      obtain rfl := Option.some.inj hf
      have hname : f.name = x := by simpa only [beq_iff_eq] using List.find?_some hfound
      rcases List.mem_map.mp (List.mem_reverse.mp (List.mem_of_find?_eq_some hfound)) with
        ⟨g, hg, heq⟩
      obtain ⟨rfl, rfl⟩ := Prod.mk.inj heq
      rw [← hname, ho.functions g hg] at hl
      rw [(Prod.mk.inj (Option.some.inj hl)).1]
    -- A function from outside keeps its declaration, and so its entry.
    · have hseen : v.functions.find? x = some f := by
        rw [← h.functions, EntryTable.find?_functions, hf]
        rfl
      rw [hin.functions x f hseen] at hl
      exact h.entries x f id key symbol hf hl
  -- Variables are not touched by entering.
  · have hslot := h.slots x hx
    rw [GenState.slot?] at hslot ⊢
    rwa [hin.vars x hx]

/-- Giving variables their slots changes nothing but slots. -/
theorem Gen.setSlots_only {A : Type} (scope : Nat) : ∀ (vars : List TypedName) (first : Int)
    (s : GenState A), Ensures (setSlots scope first vars) s fun _ t =>
      t = { s with slots := t.slots }
  | [], _, s => Ensures.pure rfl
  | _ :: rest, first, s => by
      refine Ensures.bind (P := fun _ t => t = { s with slots := t.slots }) ?_ ?_
      · intro _ t ht
        cases ht
        rfl
      · intro _ t ht
        refine (Gen.setSlots_only scope rest (first + 1) t).mono fun _ u hu => ?_
        rw [hu, ht]

/-- Variables get their slots one above the other, and nothing else changes. -/
theorem Gen.setSlots_emits (entry : Declaration → Nat) (scope : Nat) {vars : List TypedName}
    (first : Int) (hnodup : (vars.map (·.name)).Nodup) :
    Ensures (setSlots scope first vars) s fun _ t =>
      Emits entry (fun key => key.scope = scope → key.name ∉ vars.map (·.name)) 0 [] s t ∧
      ∀ (i : Nat) (x : TypedName), vars[i]? = some x →
        t.slots.lookup ⟨scope, x.name⟩ = some (first + i) := by
  refine ((setSlots_does scope vars first s hnodup).ensures.and
    (setSlots_only scope vars first s)).mono ?_
  rintro _ t ⟨⟨htarget, hslots, hothers⟩, heq⟩
  refine ⟨⟨?_, fun key hkey => hothers key.scope key.name hkey, ?_, fun ht => ?_⟩, hslots⟩
  · rw [GenState.height, htarget, add_zero]
    rfl
  · rw [htarget, List.append_nil]
  · rw [heq] at ht
    exact ⟨ht.tooDeep, ht.entries⟩

/-- The site behind a declaration. -/
theorem Site.At.declare {d : Dialect} {vars : List TypedName} {piece : List Item}
    (h : k.At c p next v entry base s) (hfree : v.Free d (vars.map (·.name)))
    (hdecl : c.scopes.Declares p.scope vars)
    (ht : Emits entry (Outside next) vars.length piece s t) :
    Ensures (declareSlots c p s.height vars) t fun _ u =>
      Emits entry (Undeclared next p.scope (vars.map (·.name))) vars.length piece s u ∧
      (u.Towards entry → t.Towards entry) ∧
      (p.scope < next →
        (k.declare (vars.map (·.name))).At c p next (v.declare (vars.map (·.name)))
          entry base u) := by
  rw [declareSlots_eq vars s.height hdecl]
  refine (setSlots_emits entry p.scope s.height hfree.1).mono ?_
  rintro _ u ⟨hu, hslots⟩
  -- Only the slots of the new names are changed.
  have hsu : Emits entry (Undeclared next p.scope (vars.map (·.name))) vars.length piece s u :=
    ((ht.mono fun key hkey => hkey.1).trans (hu.mono fun key hkey => hkey.2)).cast (add_zero _)
      (List.append_nil _)
  refine ⟨hsu, hu.towards, fun hscope =>
    ⟨h.tells.declare hdecl hscope, ?_, h.entries, ?_, ?_, h.loop, ?_⟩⟩
  · rw [Sight.functions_declare]
    exact h.functions
  · rw [hsu.height, h.height, Site.declare, List.length_map]
    push_cast
    ring
  -- A visible variable is a new one or an old one.
  · intro x hx
    by_cases hnew : x ∈ vars.map (·.name)
    · rcases List.mem_iff_getElem?.mp hnew with ⟨i, hi⟩
      rw [List.getElem?_map] at hi
      rcases Option.map_eq_some_iff.mp hi with ⟨y, hy, rfl⟩
      refine ⟨k.height + i, ?_, ?_⟩
      · rw [Site.declare, List.lookup_append,
          lookup_zipIdx hfree.1 (by rw [List.getElem?_map, hy]; rfl)]
        rfl
      · rw [GenState.slot?, hdecl y (List.mem_of_getElem? hy), Option.bind_some, hslots i y hy,
          h.height]
        push_cast
        congr 1
        ring
    -- An old one is not hidden, since the names are free.
    · have hold := (Sight.mem_visible_declare hx).resolve_right hnew
      rcases h.slots x hold with ⟨slot, hslot, hgen⟩
      refine ⟨slot, ?_, ?_⟩
      · rw [Site.declare, List.lookup_append, lookup_zipIdx_eq_none hnew]
        exact hslot
      · rw [h.slot?_kept hsu hold fun n hn => ⟨hn, fun _ => hnew⟩]
        exact hgen
  · exact fun l hl => Nat.le_trans (h.below l hl) (Nat.le_add_right _ _)

/-- The site in the body of a loop. -/
theorem Site.At.inLoop (h : k.At c p next v entry base s) (exit again : Nat) :
    (k.inLoop exit again).At c { p with loop := some ⟨exit, again, s.height⟩ } next v
      entry base s := by
  refine ⟨h.tells, h.functions, h.entries, h.height, h.slots, ?_, ?_⟩
  · rw [h.height]
    rfl
  · rintro l hl
    obtain rfl := Option.some.inj hl
    exact Nat.le_refl _

/-- The names of a frame from the bottom upwards are those of the function, so each has the
    slot that its place in the frame says. -/
theorem lookup_frame {params returns : List TypedName} {scope : Nat}
    {slots : List (Declaration × Int)} (hnodup : ((params ++ returns).map (·.name)).Nodup)
    (hparams : ∀ (i : Nat) (x : TypedName), params.reverse[i]? = some x →
      slots.lookup ⟨scope, x.name⟩ = some ((1 : Int) + i))
    (hreturns : ∀ (i : Nat) (x : TypedName), returns[i]? = some x →
      slots.lookup ⟨scope, x.name⟩ = some ((1 : Int) + params.length + i))
    {y : TypedName} (hy : y ∈ params ++ returns) :
    ∃ i : Nat, ((params.reverse ++ returns).map (·.name)).zipIdx.lookup y.name = some i ∧
      i < params.length + returns.length ∧ slots.lookup ⟨scope, y.name⟩ = some ((i : Int) + 1) := by
  -- The slots are given in the order of the stack, where the parameters are reversed.
  have hperm : ((params.reverse ++ returns).map (·.name)).Perm ((params ++ returns).map (·.name)) :=
    ((List.reverse_perm params).append_right returns).map _
  have hslot : ∀ i : Nat, (params.reverse ++ returns)[i]? = some y →
      ((params.reverse ++ returns).map (·.name)).zipIdx.lookup y.name = some i := by
    intro i hi
    have hi' : ((params.reverse ++ returns).map (·.name))[i]? = some y.name := by
      rw [List.getElem?_map, hi]
      rfl
    exact (lookup_zipIdx (hperm.nodup_iff.mpr hnodup) hi').trans (by rw [Nat.zero_add])
  -- The name is that of a parameter or of a return variable.
  rcases List.mem_append.mp hy with hy | hy
  · rcases List.mem_iff_getElem?.mp (List.mem_reverse.mpr hy) with ⟨i, hi⟩
    have hlt := (List.getElem?_eq_some_iff.mp hi).1
    refine ⟨i, hslot i ?_, ?_, ?_⟩
    · rw [List.getElem?_append_left hlt, hi]
    · rw [List.length_reverse] at hlt
      omega
    · rw [hparams i y hi, add_comm]
  · rcases List.mem_iff_getElem?.mp hy with ⟨i, hi⟩
    have hlt := (List.getElem?_eq_some_iff.mp hi).1
    refine ⟨params.length + i, hslot _ ?_, Nat.add_lt_add_left hlt _, ?_⟩
    · rw [List.getElem?_append_right (by rw [List.length_reverse]; omega), List.length_reverse,
        Nat.add_sub_cancel_left, hi]
    · rw [hreturns i y hi]
      push_cast
      congr 1
      ring

/-- The site in the body of a function. -/
theorem Site.At.enterFunction {d : Dialect} {params returns : List TypedName}
    (h : k.At c p next v entry base s) (name : String)
    (hfree : v.Free d ((params ++ returns).map (·.name)))
    (hin : ∀ x f, v.functions.find? x = some f →
      c.scopes.lookup next x = c.scopes.lookup p.scope x)
    (hdecl : c.scopes.Declares next (params ++ returns))
    (hparams : ∀ (i : Nat) (x : TypedName), params.reverse[i]? = some x →
      t.slots.lookup ⟨next, x.name⟩ = some ((1 : Int) + i))
    (hreturns : ∀ (i : Nat) (x : TypedName), returns[i]? = some x →
      t.slots.lookup ⟨next, x.name⟩ = some ((1 : Int) + params.length + i))
    (hheight : t.height = 1 + params.length + returns.length) :
    (Site.ofFunction k.functions params returns).At c ⟨next, none, name⟩ (next + 1)
      (v.enterFunction ((params ++ returns).map (·.name))) entry 1 t := by
  -- Inside of a function there are the functions in sight and its own variables.
  refine ⟨h.tells.enterFunction hin hdecl, h.functions, ?_, ?_, ?_, rfl, fun l hl =>
    absurd hl (by rintro ⟨⟩)⟩
  · intro x f id key symbol hf hl
    have hseen : v.functions.find? x = some f := by
      rw [← h.functions, EntryTable.find?_functions]
      exact congrArg (Option.map (·.1)) hf
    rw [hin x f hseen] at hl
    exact h.entries x f id key symbol hf hl
  · rw [hheight, Site.ofFunction]
    push_cast
    ring
  -- The visible names are exactly those of the frame.
  · intro x hx
    simp only [Sight.enterFunction, Sight.visible, List.flatten_cons, List.flatten_nil,
      List.append_nil] at hx
    rcases List.mem_map.mp hx with ⟨y, hy, rfl⟩
    rcases lookup_frame hfree.1 hparams hreturns hy with ⟨i, hslot, -, hgen⟩
    rw [GenState.slot?, hdecl y hy, Option.bind_some]
    exact ⟨i, hslot, hgen⟩

end Places

section Statements

variable {c : GenContext} {p : Place} {next : Nat} {v : Sight} {entry : Declaration → Nat}
  {base : Nat} {k : Site} {s : GenState Assembly}

/-- The end of a function is the moves of its frame. -/
theorem Gen.unwindFrame_emits (entry : Declaration → Nat) (kept : Declaration → Prop)
    {params returns : Nat} (h : s.height = 1 + params + returns) :
    Ensures (unwindFrame p params returns) s fun _ t => ∃ piece,
      Emits entry kept (-params) piece s t ∧
      (t.Towards entry → ∃ moves, Frame.Unwinds params returns moves ∧
        piece = moves.map .instruction) := by
  have hsize := Frame.size_ofFunction params returns
  -- Either the frame is too large to be unwound, or the moves are those of the frame.
  refine Ensures.height ?_
  split
  · exact Ensures.violation
  · split
    · refine (reportTooDeep_emits entry kept p "" _).bind ?_
      rintro _ t ⟨ht, hnot⟩
      refine (setHeight_appends _).mono fun _ u hu => ?_
      have hu := hu.emits entry kept
      -- With a report no target is reached.
      refine ⟨_, (ht.trans hu).cast ?_ rfl, fun hc => absurd (hu.towards hc) hnot⟩
      rw [ht.height, h]
      ring
    · rename_i hlimit
      rw [hsize, maxAssignDepth, not_lt] at hlimit
      refine (Ensures.orStop (P := fun r u => u = s ∧ Frame.unwind
        (2 * (Frame.ofFunction params returns).size) (.ofFunction params returns) = .ok r)
        fun r hr => ⟨rfl, hr⟩).bind ?_
      rintro ⟨moves, frame⟩ t ⟨ht, hunwind⟩
      subst t
      have hmoves : Frame.Unwinds params returns moves :=
        ⟨by push_cast at hlimit; omega, frame, hunwind⟩
      -- The moves drop as many slots as there are parameters.
      have hfuel := Frame.card_misplaced_le (.ofFunction params returns)
      rcases Frame.Settles.unwind (2 * (Frame.ofFunction params returns).size)
        (Frame.settles_ofFunction params returns) (by rw [hsize]; push_cast at hlimit; omega)
          (by omega)
        with ⟨moves', frame', hok, hends, -⟩
      obtain ⟨rfl, rfl⟩ := Prod.mk.inj (Except.ok.inj (hunwind.symm.trans hok))
      refine (instructions_appends moves).bind fun _ t ht => ?_
      have hdrop : (moves.map Instruction.stackEffect).sum = -(params : Int) := by
        rw [Frame.stackEffect_unwind _ hok, hends, hsize]
        push_cast
        ring
      have ht := (ht.cast hdrop rfl).emits entry kept
      split
      · exact Ensures.pure ⟨_, ht, fun _ => ⟨moves, hmoves, rfl⟩⟩
      · exact Ensures.violation

theorem Gen.closeBlock_emits {scope line : Nat} {before : Int} {count : Nat}
    (h : c.scopes.variableCount scope = count) :
    Ensures (closeBlock c scope line before) s fun _ => Appends (-count) (Item.pops count) s := by
  rw [closeBlock, h]
  refine (setLine_appends line).bind fun _ t h₁ => (pops_appends count).bind fun _ u h₂ => ?_
  have h₁₂ := (h₁.trans h₂).cast (zero_add _) rfl
  split
  · refine expectHeight_ensures.mono ?_
    rintro _ _ ⟨rfl, -⟩
    exact h₁₂
  · exact Ensures.pure h₁₂

/-- A loop is left by dropping what lies above its height. -/
theorem Gen.leaveBody_emits {line : Nat} {goal : LoopTargets → Nat} (target : LoopSite → Nat)
    (hgoal : ∀ l : LoopSite, goal (l.targets base) = target l)
    (hat : k.At c p next v entry base s) :
    Ensures (leaveBody p line goal) s fun _ t => ∃ piece, Appends 0 piece s t ∧
      k.CodedLeave target piece := by
  rw [leaveBody]
  -- Outside of loops a violation is reported.
  rcases hl : k.loop with _ | l
  · rw [hat.loop, hl]
    exact Ensures.violation
  · have hbelow := hat.below l hl
    rw [hat.loop, hl]
    -- The variables of the loop are dropped before the jump.
    refine Ensures.bind (P := fun popped t => popped = ((k.height - l.height : Nat) : Int) ∧
      Appends (-popped) (Item.pops (k.height - l.height)) s t) ?_ ?_
    · refine Ensures.height ?_
      have hcount : s.height - (l.targets base).height = ((k.height - l.height : Nat) : Int) := by
        rw [hat.height, LoopSite.targets]
        push_cast [Nat.cast_sub hbelow]
        ring
      simp only [hcount, Int.toNat_natCast]
      exact (pops_appends _).bind fun _ t ht => Ensures.pure ⟨rfl, ht⟩
    · rintro popped t ⟨-, ht⟩
      refine (jumpTo_appends _ popped).mono fun _ u hu =>
        ⟨_, (ht.trans hu).cast (by ring) rfl, l, hl,
        hbelow, ?_⟩
      show Item.pops (k.height - l.height) ++ Item.goTo (goal (l.targets base)) = _
      rw [hgoal]

/-- A statement that declares nothing leaves the site that it found. -/
theorem Site.At.passed {stmt : Stmt} {t : GenState Assembly} {piece : List Item}
    (h : k.At c p next v entry base s) (hdecl : stmt.declaresVars = [])
    (hafter : v.after stmt = v) (ht : Emits entry (Outside next) 0 piece s t)
    (hcode : t.Towards entry → stmt.Coded c.dialect k piece) :
    ∃ piece, Emits entry (Undeclared next p.scope stmt.declaresVars) stmt.declaresVars.length
        piece s t ∧
      (t.Towards entry → stmt.Coded c.dialect k piece) ∧
      (k.after stmt).At c p (next + stmt.scopeCount) (v.after stmt) entry base t := by
  rw [Site.after, hdecl, hafter]
  exact ⟨piece, ht.mono fun _ hkey => hkey.1, hcode, (h.same ht).later (Nat.le_add_right _ _)⟩

/-- What is written for a block is code of the block, and the slots around it are kept. -/
def Block.Lowers (c : GenContext) (entry : Declaration → Nat) (b : Block) : Prop :=
  ∀ ⦃p : Place⦄ ⦃id : Nat⦄ ⦃v : Sight⦄ ⦃inLoop : Bool⦄ ⦃base : Nat⦄ ⦃k : Site⦄
    ⦃s : GenState Assembly⦄,
    b.Resolved c.dialect c.scopes v p.scope id inLoop → k.At c p id v entry base s →
    Ensures (b.generate c p id) s fun _ t => ∃ piece, Emits entry (Outside id) 0 piece s t ∧
      (t.Towards entry → b.Coded c.dialect k piece)

/-- What is written for statements is code of the statements, from one site to the next. -/
def Stmt.LowersSeq (c : GenContext) (entry : Declaration → Nat) (stmts : List Stmt) : Prop :=
  ∀ ⦃p : Place⦄ ⦃next : Nat⦄ ⦃v : Sight⦄ ⦃inLoop : Bool⦄ ⦃base : Nat⦄ ⦃k : Site⦄
    ⦃s : GenState Assembly⦄,
    Stmt.ResolvedSeq c.dialect c.scopes v p.scope next inLoop stmts → p.scope < next →
    (∀ f ∈ stmts.filterMap Stmt.function?, k.functions.Here f (entry ⟨p.scope, f.name⟩)) →
    k.At c p next v entry base s →
    Ensures (Stmt.generateSeq c p next stmts) s fun _ t => ∃ piece,
      Emits entry (Undeclared next p.scope (Stmt.declaredSeq stmts)) (Stmt.declaredSeq stmts).length
        piece s t ∧
      (t.Towards entry → Stmt.CodedSeq c.dialect k stmts piece) ∧
      (k.afterSeq stmts).At c p (next + Stmt.scopeCountSeq stmts) (v.afterSeq stmts) entry base t

/-- What is written for a statement is code of the statement, and the site moves on. -/
def Stmt.Lowers (c : GenContext) (entry : Declaration → Nat) (stmt : Stmt) : Prop :=
  ∀ ⦃p : Place⦄ ⦃next : Nat⦄ ⦃v : Sight⦄ ⦃inLoop : Bool⦄ ⦃base : Nat⦄ ⦃k : Site⦄
    ⦃s : GenState Assembly⦄,
    stmt.Resolved c.dialect c.scopes v p.scope next inLoop → p.scope < next →
    (∀ f, stmt.function? = some f → k.functions.Here f (entry ⟨p.scope, f.name⟩)) →
    k.At c p next v entry base s →
    Ensures (stmt.generate c p next) s fun _ t => ∃ piece,
      Emits entry (Undeclared next p.scope stmt.declaresVars) stmt.declaresVars.length piece s t ∧
      (t.Towards entry → stmt.Coded c.dialect k piece) ∧
      (k.after stmt).At c p (next + stmt.scopeCount) (v.after stmt) entry base t

/-- What is written for the comparisons of a switch is code of its cases. -/
def Case.LowersTests (c : GenContext) (entry : Declaration → Nat) (cases : List Case) : Prop :=
  ∀ ⦃p : Place⦄ ⦃next : Nat⦄ ⦃v : Sight⦄ ⦃inLoop : Bool⦄ ⦃seen : List Word⦄ ⦃base : Nat⦄ ⦃k : Site⦄
    ⦃s : GenState Assembly⦄,
    Case.ResolvedSeq c.dialect c.scopes v p.scope next inLoop seen cases →
    k.At c p next v entry base s →
    Ensures (Case.generateTests c p next cases) s fun ids t => ∃ piece,
      Emits entry (Outside next) 0 piece s t ∧
      (t.Towards entry → Case.CodedTests c.dialect k cases ids piece)

/-- What is written for the bodies behind them is code of its cases. -/
def Case.LowersBodies (c : GenContext) (entry : Declaration → Nat) (after : Nat)
    (cases : List Case) : Prop :=
  ∀ (ids : List Nat) ⦃p : Place⦄ ⦃next : Nat⦄ ⦃v : Sight⦄ ⦃inLoop : Bool⦄ ⦃seen : List Word⦄
    ⦃base : Nat⦄ ⦃k : Site⦄ ⦃s : GenState Assembly⦄,
    Case.ResolvedSeq c.dialect c.scopes v p.scope next inLoop seen cases →
    k.At c p next v entry base s →
    Ensures (Case.generateBodies c p next after ids cases) s fun _ t => ∃ piece,
      Emits entry (Outside next) 0 piece s t ∧
      (t.Towards entry → Case.CodedBodies c.dialect k after ids cases piece)

/-- A block is lowered if its statements are. -/
theorem Block.Lowers.of_stmts {line : Nat} {stmts : List Stmt}
    (hinner : Stmt.LowersSeq c entry stmts) : Block.Lowers c entry ⟨line, stmts⟩ := by
  intro p id v inLoop base k s hb hat
  rw [Block.Resolved] at hb
  rcases hb with ⟨-, hin, hopened, hstmts⟩
  rw [Block.generate]
  refine Ensures.height ?_
  refine (hinner hstmts (Nat.lt_succ_self id)
    (fun f hf => ⟨_, _, rfl, List.mem_map.mpr ⟨f, hf, rfl⟩⟩) (hat.enter hin hopened)).bind ?_
  rintro _ t ⟨code, h₁, hcode, _⟩
  refine (closeBlock_emits hopened.count).mono fun _ u h₂ => ?_
  have h₂ := h₂.emits entry (Outside id)
  have h₁ : Emits entry (Outside id) (Stmt.declaredSeq stmts).length code s t :=
    h₁.mono fun key hkey => ⟨Nat.lt_succ_of_lt hkey, fun hc => absurd hc (Nat.ne_of_lt hkey)⟩
  refine ⟨_, (h₁.trans h₂).cast (add_neg_cancel _) rfl, fun hu => ?_⟩
  rw [Block.Coded]
  exact ⟨_, code, hcode (h₂.towards hu), rfl⟩

namespace Stmt.LowersSeq

/-- No statements, no code. -/
theorem nil : Stmt.LowersSeq c entry [] := by
  intro p next v inLoop base k s _ _ _ hat
  rw [Stmt.generateSeq]
  refine Ensures.pure ⟨[], .refl s, fun _ => ?_, hat⟩
  rw [Stmt.CodedSeq]

/-- The code of a list is that of the first statement with that of the others behind. -/
theorem cons {stmt : Stmt} {rest : List Stmt} (hone : stmt.Lowers c entry)
    (hmore : Stmt.LowersSeq c entry rest) : Stmt.LowersSeq c entry (stmt :: rest) := by
  intro p next v inLoop base k s hstmts hscope hhere hat
  rw [Stmt.ResolvedSeq] at hstmts
  rw [Stmt.generateSeq]
  have hfirst : ∀ f, stmt.function? = some f → k.functions.Here f (entry ⟨p.scope, f.name⟩) :=
    fun f hf => hhere f (List.mem_filterMap.mpr ⟨stmt, List.mem_cons_self, hf⟩)
  -- The first statement leaves the site for the others.
  refine (hone hstmts.1 hscope hfirst hat).bind ?_
  rintro _ t ⟨here, h₁, hcode₁, hat₁⟩
  refine (hmore hstmts.2 (by omega) (fun f hf => ?_) hat₁).mono ?_
  · rcases List.mem_filterMap.mp hf with ⟨s', hs', hf'⟩
    exact hhere f (List.mem_filterMap.mpr ⟨s', List.mem_cons_of_mem _ hs', hf'⟩)
  rintro _ u ⟨later, h₂, hcode₂, hat₂⟩
  refine ⟨here ++ later, Emits.cast (Emits.trans (h₁.mono ?_) (h₂.mono ?_)) ?_ rfl,
    fun hu => ?_, ?_⟩
  -- What either of them keeps is kept by both: their declarations are different.
  · intro key hkey
    refine ⟨hkey.1, fun hc hmem => hkey.2 hc ?_⟩
    rw [Stmt.declaredSeq_cons]
    exact List.mem_append_left _ hmem
  · intro key hkey
    refine ⟨Nat.lt_of_lt_of_le hkey.1 (Nat.le_add_right _ _), fun hc hmem => hkey.2 hc ?_⟩
    rw [Stmt.declaredSeq_cons]
    exact List.mem_append_right _ hmem
  · rw [Stmt.declaredSeq_cons, List.length_append]
    push_cast
    rfl
  · rw [Stmt.CodedSeq]
    exact ⟨here, later, hcode₁ (h₂.towards hu), hcode₂ hu, rfl⟩
  · rw [Stmt.scopeCountSeq, ← Nat.add_assoc]
    exact hat₂

end Stmt.LowersSeq

namespace Stmt.Lowers

/-- An expression that is a statement is lowered as such. -/
theorem expr {line : Nat} {e : Expr} : (Stmt.expr line e).Lowers c entry := by
  intro p next v inLoop base k s h _ _ hat
  rw [Stmt.Resolved] at h
  rw [Stmt.generate]
  refine (setLine_appends line).bind fun _ s₁ h₁ => Ensures.height ?_
  have h₁ := h₁.emits entry (Outside next)
  refine (Expr.generate_coded e h (hat.same h₁)).bind ?_
  rintro _ s₂ ⟨code, h₂, hcode⟩
  have h₁₂ := (h₁.trans h₂).cast (add_zero 0) (List.nil_append _)
  have hcoded : s₂.Towards entry → (Stmt.expr line e).Coded c.dialect k code := by
    rw [Stmt.Coded]
    exact hcode
  split
  · refine expectHeight_ensures.mono ?_
    rintro _ _ ⟨rfl, -⟩
    exact hat.passed rfl rfl h₁₂ hcoded
  · exact Ensures.pure (hat.passed rfl rfl h₁₂ hcoded)

/-- The value, then one swap and pop for each target. -/
theorem assign {line : Nat} {targets : List Identifier} {value : Expr} :
    (Stmt.assign line targets value).Lowers c entry := by
  intro p next v inLoop base k s h _ _ hat
  rw [Stmt.Resolved] at h
  rw [Stmt.generate]
  refine (setLine_appends line).bind fun _ s₁ h₁ => ?_
  have h₁ := h₁.emits entry (Outside next)
  refine (Expr.generate_coded value h.1 (hat.same h₁)).bind ?_
  rintro _ s₂ ⟨code, h₂, hcode⟩
  refine (assignVariables_emits h.2 ((hat.same h₁).push h₂)).mono ?_
  rintro _ s₃ ⟨moves, h₃, hmoves⟩
  refine hat.passed rfl rfl (((h₁.trans h₂).trans h₃).cast (by ring) rfl) fun ht => ?_
  rw [Stmt.Coded]
  exact ⟨code, moves, hcode (h₃.towards ht), hmoves ht, rfl⟩

/-- The value or zeros, which become the new variables. -/
theorem decl {line : Nat} {vars : List TypedName} {value : Option Expr} :
    (Stmt.decl line vars value).Lowers c entry := by
  intro p next v inLoop base k s h hscope _ hat
  rw [Stmt.Resolved] at h
  rcases h with ⟨hvalue, hfree, hdecl⟩
  rw [Stmt.generate]
  refine (setLine_appends line).bind fun _ s₁ h₁ => Ensures.height ?_
  have h₁ := h₁.emits entry (Outside next)
  have hat₁ := hat.same h₁
  -- The values are on the stack, whether they are given or zeros.
  have hrest : ∀ t code, Emits entry (Outside next) vars.length code s₁ t →
      (t.Towards entry → (Stmt.decl line vars value).Coded c.dialect k code) →
      Ensures (do
        expectHeight line (s₁.height + vars.length) "variable declaration"
        declareSlots c p s₁.height vars) t fun _ u => ∃ piece,
          Emits entry (Undeclared next p.scope (vars.map (·.name))) (vars.map (·.name)).length
            piece s u ∧
          (u.Towards entry → (Stmt.decl line vars value).Coded c.dialect k piece) ∧
          (k.declare (vars.map (·.name))).At c p next (v.declare (vars.map (·.name)))
            entry base u := by
    intro t code ht hcode
    refine expectHeight_ensures.bind ?_
    rintro _ _ ⟨rfl, -⟩
    refine (hat₁.declare hfree hdecl ht).mono ?_
    rintro _ u ⟨hu, hback, hat₂⟩
    refine ⟨code, Emits.cast ((h₁.mono fun _ hkey => hkey.1).trans hu) ?_ (List.nil_append _),
      fun hc => hcode (hback hc), hat₂ hscope⟩
    rw [List.length_map, zero_add]
  cases value with
  | none =>
      refine (zeros_appends vars.length).bind fun _ t ht => hrest t _ (ht.emits _ _) fun _ => ?_
      rw [Stmt.Coded]
  | some e =>
      refine (Expr.generate_coded e (hvalue e rfl) hat₁).bind ?_
      rintro _ t ⟨code, ht, hcode⟩
      refine hrest t code ht fun hc => ?_
      rw [Stmt.Coded]
      exact hcode hc

/-- The body of a function is written at a site of its own, with nothing but the frame of the
    function, and the code around it jumps over it. -/
theorem func {line : Nat} {name : String} {params returns : List TypedName} {body : Block}
    (hinner : body.Lowers c entry) : (Stmt.func line name params returns body).Lowers c entry := by
  intro p next v inLoop base k s h hscope hhere hat
  rw [Stmt.Resolved] at h
  rcases h with ⟨hfree, hlookup, hin, hdecl, hbody⟩
  have hnames : (params.map (·.name)).Nodup ∧ (returns.map (·.name)).Nodup ∧
      ∀ x ∈ params.map (·.name), x ∉ returns.map (·.name) := by
    have hnodup := hfree.1
    rw [List.map_append, List.nodup_append] at hnodup
    exact ⟨hnodup.1, hnodup.2.1, fun x hx hx' => hnodup.2.2 x hx x hx' rfl⟩
  have hreverse : (params.reverse.map (·.name)).Nodup := by
    rw [List.map_reverse]
    exact List.nodup_reverse.mpr hnames.1
  rw [Stmt.generate]
  -- In front of the body stand the jump over it, the entry and a zero for each return variable.
  refine (setLine_appends line).bind fun _ s₁ h₁ => ?_
  refine (lookup_ensures hlookup).bind ?_
  rintro _ _ ⟨rfl, rfl⟩
  refine (entryOf_emits entry (Outside next) _).bind ?_
  rintro id s₂ ⟨h₂, hid⟩
  refine (setSlots_emits entry next 1 hreverse).bind ?_
  rintro _ s₃ ⟨h₃, hslots₃⟩
  refine Ensures.height (newLabel_appends.bind fun after s₄ h₄ => ?_)
  refine (jumpTo_appends after _).bind fun _ s₅ h₅ => ?_
  refine (label_appends id).bind fun _ s₆ h₆ => ?_
  refine (setHeight_appends _).bind fun _ s₇ h₇ => ?_
  refine (setSlots_emits entry next _ hnames.2.1).bind ?_
  rintro _ s₈ ⟨h₈, hslots₈⟩
  refine (zeros_appends returns.length).bind fun _ s₉ h₉ => ?_
  -- The parameters keep their slots while the return variables get theirs.
  have h₄₇ := (((h₄.trans h₅).trans h₆).trans h₇)
  have hheight₇ : s₇.height = 1 + params.length := by
    rw [h₇.height]
    ring
  have hheight₉ : s₉.height = 1 + params.length + returns.length := by
    rw [h₉.height, h₈.height, hheight₇]
    ring
  have hslots₉ : ∀ (i : Nat) (x : TypedName), params.reverse[i]? = some x →
      s₉.slots.lookup ⟨next, x.name⟩ = some ((1 : Int) + i) := by
    intro i x hx
    have hmem : x.name ∈ params.map (·.name) :=
      List.mem_map_of_mem (List.mem_reverse.mp (List.mem_of_getElem? hx))
    rw [h₉.slots, h₈.slots ⟨next, x.name⟩ fun _ => hnames.2.2 _ hmem, h₄₇.slots]
    exact hslots₃ i x hx
  have hat₉ := hat.enterFunction name hfree hin hdecl hslots₉
    (fun i x hx => by rw [h₉.slots]; exact hslots₈ i x hx) hheight₉
  refine (hinner hbody hat₉).bind ?_
  rintro _ s₁₀ ⟨code, h₁₀, hcode⟩
  refine expectHeight_ensures.bind ?_
  rintro _ _ ⟨rfl, hheight₁₀⟩
  -- Behind it the frame is unwound down to the return variables, and control goes back.
  refine (unwindFrame_emits entry (Outside next) hheight₁₀).bind ?_
  rintro _ s₁₁ ⟨moves, h₁₁, hmoves⟩
  refine (setLine_appends line).bind fun _ s₁₂ h₁₂ => ?_
  refine (jump_appends _).bind fun _ s₁₃ h₁₃ => ?_
  refine (label_appends after).bind fun _ s₁₄ h₁₄ => ?_
  refine expectHeight_ensures.mono ?_
  rintro _ _ ⟨rfl, -⟩
  -- Nothing of this touches the scopes around the function.
  have hnew : ∀ key : Declaration, key.scope < next → ∀ names : List String,
      key.scope = next → key.name ∉ names :=
    fun key hkey names hc => absurd hc (Nat.ne_of_lt hkey)
  have h₁₂₁₄ := ((h₁₂.trans h₁₃).trans h₁₄).emits entry (Outside next)
  have h₉₁₀ := h₁₀.earlier (Nat.le_succ next)
  have hall := ((((((((h₁.emits entry (Outside next)).trans h₂).trans
    (h₃.mono fun key hkey => hnew key hkey _)).trans (h₄₇.emits entry (Outside next))).trans
    (h₈.mono fun key hkey => hnew key hkey _)).trans (h₉.emits entry (Outside next))).trans
    h₉₁₀).trans h₁₁).trans h₁₂₁₄
  refine hat.passed rfl rfl (hall.cast ?_ rfl) fun hc => ?_
  · rw [h₆.height, h₅.height, h₄.height]
    ring
  · -- Entries that are right at the end are right at each state on the way.
    have hc₁₁ := h₁₂₁₄.towards hc
    have hc₁₀ := h₁₁.towards hc₁₁
    have hc₂ : s₂.Towards entry := h₃.towards ((h₄₇.emits entry (Outside next)).towards
      (h₈.towards ((h₉.emits entry (Outside next)).towards (h₉₁₀.towards hc₁₀))))
    rcases hmoves hc₁₁ with ⟨ops, hops, rfl⟩
    rw [Stmt.Coded]
    refine ⟨id, after, code, ops, hid hc₂ ▸ hhere _ rfl, hcode hc₁₀, hops, ?_⟩
    simp only [List.append_nil, List.nil_append, List.cons_append, List.append_assoc]

/-- The condition, a jump over the body, and the body. -/
theorem cond {line : Nat} {test : Expr} {body : Block} (hinner : body.Lowers c entry) :
    (Stmt.cond line test body).Lowers c entry := by
  intro p next v inLoop base k s h _ _ hat
  rw [Stmt.Resolved] at h
  rw [Stmt.generate]
  refine (setLine_appends line).bind fun _ s₁ h₁ => Ensures.height ?_
  have h₁ := h₁.emits entry (Outside next)
  -- The condition is lowered in the same place.
  refine (Expr.generate_coded test h.1 (hat.same h₁)).bind ?_
  rintro _ s₂ ⟨value, h₂, hvalue⟩
  refine (instruction_appends .iszero).bind fun _ s₃ h₃ =>
    newLabel_appends.bind fun after s₄ h₄ => ?_
  refine (jumpToIf_appends after).bind fun _ s₅ h₅ => ?_
  have h₂₅ := ((h₃.trans h₄).trans h₅).emits entry (Outside next)
  -- The word of the condition is used up by the jump.
  have h₀₅ := ((h₁.trans h₂).trans h₂₅).cast (ε := 0) rfl rfl
  refine (hinner h.2 (hat.same h₀₅)).bind ?_
  rintro _ s₆ ⟨code, h₆, hcode⟩
  refine (label_appends after).bind fun _ s₇ h₇ => ?_
  have h₇ := h₇.emits entry (Outside next)
  refine expectHeight_ensures.mono ?_
  rintro _ _ ⟨rfl, -⟩
  -- Each part is coded if the state in the end is one towards the entries, which is passed back.
  refine hat.passed rfl rfl (((h₀₅.trans h₆).trans h₇).cast rfl rfl) fun hc => ?_
  have hc₆ := h₇.towards hc
  rw [Stmt.Coded]
  exact ⟨after, value, code, hvalue (h₂₅.towards (h₆.towards hc₆)), hcode hc₆, rfl⟩

/-- The subject, the comparisons and the bodies. -/
theorem switch {line : Nat} {subject : Expr} {cases : List Case}
    (hcompare : Case.LowersTests c entry cases)
    (hinner : ∀ after, Case.LowersBodies c entry after cases) :
    (Stmt.switch line subject cases).Lowers c entry := by
  intro p next v inLoop base k s h _ _ hat
  rw [Stmt.Resolved] at h
  rw [Stmt.generate]
  refine (setLine_appends line).bind fun _ s₁ h₁ => Ensures.height ?_
  have h₁ := h₁.emits entry (Outside next)
  refine (Expr.generate_coded subject h.1 (hat.same h₁)).bind ?_
  rintro _ s₂ ⟨value, h₂, hvalue⟩
  refine newLabel_appends.bind fun after s₃ h₃ => ?_
  -- All of the switch happens with its subject on the stack.
  have h₃ := h₃.emits entry (Outside next)
  have hat₃ := hat.push (n := 1) (((h₁.trans h₂).trans h₃).cast rfl rfl)
  refine (hcompare h.2 hat₃).bind ?_
  rintro ids s₄ ⟨tests, h₄, htests⟩
  refine (jumpTo_appends after 0).bind fun _ s₅ h₅ => ?_
  have h₅ := h₅.emits entry (Outside next)
  refine (hinner after ids h.2
    (hat₃.same ((h₄.trans h₅).cast rfl rfl))).bind ?_
  rintro _ s₆ ⟨bodies, h₆, hbodies⟩
  refine (label_appends after).bind fun _ s₇ h₇ => (pops_appends 1).bind fun _ s₈ h₈ => ?_
  have h₆₈ := (h₇.trans h₈).emits entry (Outside next)
  refine expectHeight_ensures.mono ?_
  rintro _ _ ⟨rfl, -⟩
  refine hat.passed rfl rfl (((((((h₁.trans h₂).trans h₃).trans h₄).trans h₅).trans h₆).trans
    h₆₈).cast rfl rfl) fun hc => ?_
  have hc₆ := h₆₈.towards hc
  have hc₄ := h₅.towards (h₆.towards hc₆)
  rw [Stmt.Coded]
  refine ⟨after, ids, value, tests, bodies, hvalue (h₃.towards (h₄.towards hc₄)), htests hc₄,
    hbodies hc₆, ?_⟩
  simp only [List.nil_append, List.append_nil, List.append_assoc, List.cons_append]
  rfl

/-- The initialisation of a loop stands in a block around all of it, so the test, the body and
    what follows it are written at the site behind the initialisation. -/
theorem loop {line preLine : Nat} {pre : List Stmt} {test : Expr} {post body : Block}
    (hinit : Stmt.LowersSeq c entry pre) (hround : body.Lowers c entry)
    (hthen : post.Lowers c entry) :
    (Stmt.loop line ⟨preLine, pre⟩ test post body).Lowers c entry := by
  intro p next v inLoop base k s h hscope _ hat
  rw [Stmt.Resolved] at h
  rcases h with ⟨-, hin, hopened, hpre, htest, hbody, hpost⟩
  rw [Stmt.generate]
  -- The init block is lowered in the scope of the loop.
  refine (setLine_appends line).bind fun _ s₁ h₁ => Ensures.height ?_
  have h₁ := h₁.emits entry (Outside next)
  refine (hinit hpre (Nat.lt_succ_self next)
    (fun f hf => ⟨_, _, rfl, List.mem_map.mpr ⟨f, hf, rfl⟩⟩)
    ((hat.same h₁).enter hin hopened)).bind ?_
  rintro _ s₂ ⟨first, h₂, hfirst, hat₂⟩
  have h₂ : Emits entry (Outside next) (Stmt.declaredSeq pre).length first s₁ s₂ :=
    h₂.mono fun key hkey => ⟨Nat.lt_succ_of_lt hkey, fun hc => absurd hc (Nat.ne_of_lt hkey)⟩
  refine newLabel_appends.bind fun start s₃ h₃ => newLabel_appends.bind fun again s₄ h₄ => ?_
  refine newLabel_appends.bind fun exit s₅ h₅ => (setLine_appends line).bind fun _ s₆ h₆ => ?_
  refine (label_appends start).bind fun _ s₇ h₇ => ?_
  -- What stands between the init block and the condition.
  have h₂₇ : Appends 0 [.label start] s₂ s₇ :=
    ((((h₃.trans h₄).trans h₅).trans h₆).trans h₇).cast rfl rfl
  have hat₇ := hat₂.same (h₂₇.emits _ _)
  refine (Expr.generate_coded test htest hat₇).bind ?_
  rintro _ s₈ ⟨value, h₈, hvalue⟩
  refine (instruction_appends .iszero).bind fun _ s₉ h₉ => ?_
  refine (jumpToIf_appends exit).bind fun _ s₁₀ h₁₀ => Ensures.height ?_
  have h₈₁₀ := (h₉.trans h₁₀).emits entry (Outside (next + 1 + Stmt.scopeCountSeq pre))
  -- Behind the condition the height is that of the loop again.
  have hat₁₀ := hat₇.same ((h₈.trans h₈₁₀).cast rfl rfl)
  refine (hround hbody (hat₁₀.inLoop exit again)).bind ?_
  rintro _ s₁₁ ⟨inner, h₁₁, hinner⟩
  -- The post part stands behind the body, in a scope still further ahead.
  refine (label_appends again).bind fun _ s₁₂ h₁₂ => ?_
  have h₁₂ := h₁₂.emits entry (Outside (next + 1 + Stmt.scopeCountSeq pre))
  have hat₁₂ := (hat₁₀.same ((h₁₁.trans h₁₂).cast rfl rfl)).later
    (Nat.le_add_right _ body.scopeCount)
  refine (hthen hpost hat₁₂).bind ?_
  rintro _ s₁₃ ⟨last, h₁₃, hlast⟩
  refine (jumpTo_appends start 0).bind fun _ s₁₄ h₁₄ =>
    (label_appends exit).bind fun _ s₁₅ h₁₅ => ?_
  refine (closeBlock_emits hopened.count).mono fun _ s₁₆ h₁₆ => ?_
  -- All parts leave the scopes outside of the loop alone.
  have hle : next ≤ next + 1 + Stmt.scopeCountSeq pre := by omega
  have h₁₃₁₆ := ((h₁₄.trans h₁₅).trans h₁₆).emits entry (Outside next)
  have hall := ((((((h₁.trans h₂).trans (h₂₇.emits entry (Outside next))).trans
    (h₈.earlier hle)).trans (h₈₁₀.earlier hle)).trans (h₁₁.earlier hle)).trans
    (h₁₂.earlier hle)).trans ((h₁₃.earlier (by omega)).trans h₁₃₁₆)
  refine hat.passed rfl rfl (hall.cast ?_ rfl) fun hc => ?_
  · show 0 + _ + 0 + 1 + (0 + -1) + 0 + 0 + (0 + (0 + 0 + -_)) = (0 : Int)
    ring
  -- The state in the end is towards the entries, and so are all before.
  · have hc₁₃ := h₁₃₁₆.towards hc
    have hc₁₁ := h₁₂.towards (h₁₃.towards hc₁₃)
    have hc₈ := h₈₁₀.towards (h₁₁.towards hc₁₁)
    have hc₂ := (h₂₇.emits entry (Outside next)).towards (h₈.towards hc₈)
    rw [Stmt.Coded]
    refine ⟨_, start, again, exit, first, value, inner, last, hfirst hc₂, hvalue hc₈, hinner hc₁₁,
      hlast hc₁₃, ?_⟩
    simp only [Item.goToUnless, List.nil_append, List.append_assoc, List.cons_append]

/-- A break jumps to the end of the loop. -/
theorem brk {line : Nat} : (Stmt.brk line).Lowers c entry := by
  intro p next v inLoop base k s h _ _ hat
  rw [Stmt.generate]
  refine (setLine_appends line).bind fun _ s₁ h₁ => ?_
  have h₁ := h₁.emits entry (Outside next)
  refine (leaveBody_emits LoopSite.exit (fun l => rfl) (hat.same h₁)).mono ?_
  rintro _ s₂ ⟨piece, h₂, hcode⟩
  refine hat.passed rfl rfl ((h₁.trans (h₂.emits _ _)).cast rfl rfl) fun _ => ?_
  rw [Stmt.Coded]
  exact hcode

/-- A continue jumps to the post part. -/
theorem cont {line : Nat} : (Stmt.cont line).Lowers c entry := by
  intro p next v inLoop base k s h _ _ hat
  rw [Stmt.generate]
  refine (setLine_appends line).bind fun _ s₁ h₁ => ?_
  have h₁ := h₁.emits entry (Outside next)
  refine (leaveBody_emits LoopSite.next (fun l => rfl) (hat.same h₁)).mono ?_
  rintro _ s₂ ⟨piece, h₂, hcode⟩
  refine hat.passed rfl rfl ((h₁.trans (h₂.emits _ _)).cast rfl rfl) fun _ => ?_
  rw [Stmt.Coded]
  exact hcode

/-- A block has a scope of its own. -/
theorem block {line : Nat} {stmts : List Stmt} (hinner : Block.Lowers c entry ⟨line, stmts⟩) :
    (Stmt.block ⟨line, stmts⟩).Lowers c entry := by
  intro p next v inLoop base k s h _ _ hat
  rw [Stmt.Resolved] at h
  rw [Stmt.generate]
  refine (setLine_appends line).bind fun _ s₁ h₁ => ?_
  have h₁ := h₁.emits entry (Outside next)
  refine (hinner h (hat.same h₁)).mono ?_
  rintro _ s₂ ⟨piece, h₂, hcode⟩
  refine hat.passed rfl rfl ((h₁.trans h₂).cast rfl rfl) fun hc => ?_
  rw [Stmt.Coded]
  exact hcode hc

-- What is in loose assembly only is not accepted here.
theorem label {line : Nat} {name : String} : (Stmt.label line name).Lowers c entry := by
  intro p next v inLoop base k s h _ _ _
  rw [Stmt.Resolved] at h
  exact h.elim

/-- Assignments from the stack are not resolved. -/
theorem stackAssign {line : Nat} {target : Identifier} :
    (Stmt.stackAssign line target).Lowers c entry := by
  intro p next v inLoop base k s h _ _ _
  rw [Stmt.Resolved] at h
  exact h.elim

end Stmt.Lowers

namespace Case.LowersTests

/-- Without cases there is nothing to compare. -/
theorem nil : Case.LowersTests c entry [] := by
  intro p next v inLoop seen base k s _ _
  rw [Case.generateTests]
  refine Ensures.pure ⟨[], .refl s, fun _ => ?_⟩
  rw [Case.codedTests_nil]
  exact ⟨rfl, rfl⟩

/-- The default is lowered behind the comparisons. -/
theorem default {line : Nat} {body : Block} {rest : List Case} (hinner : body.Lowers c entry) :
    Case.LowersTests c entry (⟨line, none, body⟩ :: rest) := by
  intro p next v inLoop seen base k s h hat
  rw [Case.ResolvedSeq] at h
  obtain rfl := h.2
  rw [Case.generateTests]
  refine (hinner h.1 hat).bind ?_
  rintro _ t ⟨code, ht, hcode⟩
  rw [Case.generateTests]
  refine Ensures.pure ⟨code, ht, fun hc => ?_⟩
  rw [Case.codedTests_default]
  exact ⟨rfl, rfl, hcode hc⟩

/-- One comparison, whose label comes first in the list of labels. -/
theorem value {line : Nat} {l : Literal} {body : Block} {rest : List Case}
    (hmore : Case.LowersTests c entry rest) :
    Case.LowersTests c entry (⟨line, some l, body⟩ :: rest) := by
  intro p next v inLoop seen base k s h hat
  rw [Case.ResolvedSeq] at h
  rcases h with ⟨w, hw, _, _, hrest⟩
  rw [Case.generateTests]
  refine (literal_appends hw).bind fun _ s₁ h₁ =>
    (instruction_appends (.dup 1)).bind fun _ s₂ h₂ => ?_
  refine (instruction_appends .eq).bind fun _ s₃ h₃ => newLabel_appends.bind fun id s₄ h₄ => ?_
  refine (jumpToIf_appends id).bind fun _ s₅ h₅ => ?_
  -- The word that is compared stays on the stack.
  have h₀₅ := (((((h₁.trans h₂).trans h₃).trans h₄).trans h₅).emits entry (Outside next)).cast
    (ε := 0) rfl rfl
  refine (hmore hrest ((hat.same h₀₅).later
    (Nat.le_add_right next body.scopeCount))).bind ?_
  rintro ids s₆ ⟨later, h₆, hlater⟩
  refine Ensures.pure ⟨_, (h₀₅.trans (h₆.earlier (Nat.le_add_right _ _))).cast rfl rfl,
    fun hc => ?_⟩
  rw [Case.codedTests_value]
  exact ⟨w, id, ids, later, hw, rfl, hlater hc, rfl⟩

end Case.LowersTests

namespace Case.LowersBodies

variable {after : Nat}

/-- Without cases there are no bodies. -/
theorem nil : Case.LowersBodies c entry after [] := by
  intro ids p next v inLoop seen base k s _ _
  rw [Case.generateBodies]
  · refine Ensures.pure ⟨[], .refl s, fun _ => ?_⟩
    rw [Case.CodedBodies]
    simp
  all_goals simp

/-- The body of the default stands behind the comparisons, not among the bodies. -/
theorem default {line : Nat} {body : Block} {rest : List Case} :
    Case.LowersBodies c entry after (⟨line, none, body⟩ :: rest) := by
  intro ids p next v inLoop seen base k s h _
  rw [Case.ResolvedSeq] at h
  obtain rfl := h.2
  rw [Case.generateBodies, Case.generateBodies]
  · refine Ensures.pure ⟨[], .refl s, fun _ => ?_⟩
    rw [Case.CodedBodies]
    simp
  all_goals simp

/-- The body of a case and a jump behind the switch, if there is one more body. -/
theorem value {line : Nat} {l : Literal} {body : Block} {rest : List Case}
    (hinner : body.Lowers c entry) (hmore : Case.LowersBodies c entry after rest) :
    Case.LowersBodies c entry after (⟨line, some l, body⟩ :: rest) := by
  intro ids p next v inLoop seen base k s h hat
  cases ids with
  | nil =>
      -- Without a label left there is no case to be lowered.
      rw [Case.generateBodies]
      · refine Ensures.pure ⟨[], .refl s, fun _ => ?_⟩
        rw [Case.CodedBodies]
        simp
      all_goals simp
  | cons id ids =>
      rw [Case.ResolvedSeq] at h
      rcases h with ⟨w, _, _, hbody, hrest⟩
      rw [Case.generateBodies]
      refine (label_appends id).bind fun _ s₁ h₁ => ?_
      have h₁ := h₁.emits entry (Outside next)
      refine (hinner hbody (hat.same h₁)).bind ?_
      rintro _ s₂ ⟨code, h₂, hcode⟩
      have h₀₂ := h₁.trans h₂
      -- All but the last of the bodies jump behind the switch.
      have hothers : ∀ (s₃ : GenState Assembly) (between : List Item),
          Emits entry (Outside next) 0 between s₂ s₃ →
          between = (if ids.isEmpty then [] else Item.goTo after) →
          Ensures (Case.generateBodies c p (next + body.scopeCount) after ids rest) s₃ fun _ t =>
            ∃ piece, Emits entry (Outside next) 0 piece s t ∧
              (t.Towards entry → Case.CodedBodies c.dialect k after (id :: ids)
                (⟨line, some l, body⟩ :: rest) piece) := by
        intro s₃ between h₃ hbetween
        have h₀₃ := (h₀₂.trans h₃).cast (ε := 0) rfl rfl
        refine (hmore ids hrest ((hat.same h₀₃).later
          (Nat.le_add_right next body.scopeCount))).mono ?_
        rintro _ s₄ ⟨later, h₄, hlater⟩
        refine ⟨_, (h₀₃.trans (h₄.earlier (Nat.le_add_right _ _))).cast rfl rfl, fun hc => ?_⟩
        rw [Case.CodedBodies]
        refine ⟨code, later, hcode (h₃.towards (h₄.towards hc)), hlater hc, ?_⟩
        rw [← hbetween]
        rfl
      -- The last body runs into the end of the switch.
      by_cases hlast : ids.isEmpty = true
      · rw [if_pos hlast]
        exact hothers s₂ [] (.refl s₂) (if_pos hlast).symm
      · rw [if_neg hlast]
        exact (jumpTo_appends after 0).bind fun _ s₃ h₃ =>
          hothers s₃ _ (h₃.emits _ _) (if_neg hlast).symm

end Case.LowersBodies

mutual

/-- The items of a block are code of the block. -/
theorem Block.generate_coded : ∀ b : Block, b.Lowers c entry
  | ⟨_, stmts⟩ => .of_stmts (Stmt.generateSeq_coded stmts)

/-- The items of statements are code of the statements. -/
theorem Stmt.generateSeq_coded : ∀ stmts : List Stmt, Stmt.LowersSeq c entry stmts
  | [] => .nil
  | stmt :: rest => .cons (Stmt.generate_coded stmt) (Stmt.generateSeq_coded rest)

/-- The items of a statement are code of the statement. -/
theorem Stmt.generate_coded : ∀ stmt : Stmt, stmt.Lowers c entry
  | .expr _ _ => .expr
  | .assign _ _ _ => .assign
  | .decl _ _ _ => .decl
  | .func _ _ _ _ body => .func (Block.generate_coded body)
  | .cond _ _ body => .cond (Block.generate_coded body)
  | .switch _ _ cases => .switch (Case.generateTests_coded cases) (Case.generateBodies_coded cases)
  | .loop _ ⟨_, pre⟩ _ post body => .loop (Stmt.generateSeq_coded pre)
      (Block.generate_coded body) (Block.generate_coded post)
  | .brk _ => .brk
  | .cont _ => .cont
  | .block ⟨line, stmts⟩ => .block (Block.generate_coded ⟨line, stmts⟩)
  | .label _ _ => .label
  | .stackAssign _ _ => .stackAssign

/-- The items of comparisons are those of the cases. -/
theorem Case.generateTests_coded : ∀ cases : List Case, Case.LowersTests c entry cases
  | [] => .nil
  | ⟨_, none, body⟩ :: _ => .default (Block.generate_coded body)
  | ⟨_, some _, _⟩ :: rest => .value (Case.generateTests_coded rest)

/-- So are the items of the bodies behind them. -/
theorem Case.generateBodies_coded : ∀ (cases : List Case) (after : Nat),
    Case.LowersBodies c entry after cases
  | [], _ => .nil
  | ⟨_, none, _⟩ :: _, _ => .default
  | ⟨_, some _, body⟩ :: rest, after => .value (Block.generate_coded body)
      (Case.generateBodies_coded rest after)

end

/-- The items of a program that is accepted, with nothing too deep in it, are code of the
    program. -/
theorem generate_coded {code : Block} (hcode : code.Resolved c.dialect c.scopes .empty 0 0 false)
    {before after : Assembly} (hitems : before.items = #[]) (hheight : before.height = 0)
    (h : generate c code before = .ok ([], after)) :
    code.Coded c.dialect .empty after.items.toList := by
  rcases generate_grows h with ⟨t, hrun, rfl, hreports, -⟩
  have htowards : t.Towards fun key => (t.entries.lookup key).getD 0 :=
    ⟨List.reverse_eq_nil_iff.mp hreports.symm, fun key id hid => by rw [hid]; rfl⟩
  have hat : Site.empty.At c ⟨0, none, ""⟩ 0 .empty (fun key => (t.entries.lookup key).getD 0) 0
      (.ofTarget before) :=
    ⟨.empty _ _ _, rfl, fun _ _ _ _ _ hf => absurd hf (by rintro ⟨⟩), hheight,
      fun _ hx => absurd hx List.not_mem_nil, rfl, fun _ hl => absurd hl (by rintro ⟨⟩)⟩
  rcases Block.generate_coded code hcode hat () t hrun with ⟨piece, hpiece, hcoded⟩
  have hall : t.target.items.toList = piece := by
    rw [hpiece.items, show (GenState.ofTarget before).target.items = #[] from hitems]
    rfl
  rw [hall]
  exact hcoded htowards

/-- The items of an object that is compiled are code of its program. -/
theorem Object.compile_coded {d : Dialect} {named : Bool} (hd : d.flavour ≠ .loose) {o : Object}
    (hread : o.code.Readable) {asm : Assembly} (h : o.compile d named Target.fresh = .ok asm) :
    o.code.Coded d .empty asm.items.toList := by
  rcases Object.compile_attaches h with ⟨attached, before, scopes, hattached, hscopes, hcode⟩
  rcases Attachment.compileSeq_attaches hattached with ⟨subs, rfl, -⟩
  exact generate_coded (c := ⟨d, scopes, ⟨some o.name, attached⟩, named⟩)
    (analyze_resolved hd hread hscopes) rfl rfl hcode

end Statements

end YulToolchain
