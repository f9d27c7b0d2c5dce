import YulToolchain.Proofs.Static.Chart

/-!
# Variables of One Function

Which variables the code of one function, or the code outside of all functions, can
change.

Functions do not see the variables around them. So code only changes variables that
it declares itself, outside of the functions in it, or that are its parameters and
return variables. If no name is declared twice, then what a function changes is
apart from what is changed around it, and what it declares is apart from that.

## Main definitions

* `Block.localVars`: The variables declared in a block, not in the functions in it.
* `Block.innerNames`: The names declared in the functions in a block.
* `Block.Secluded`: A block changes variables of its own, and functions in it keep away
  from those around them.

## Theorems

* `Block.count_localVars`: What is local and what is inner is declared in different
  places.
* `Block.Charted.secluded`: Code with finished scopes keeps to its local variables.
* `analyze_secluded`: So is an accepted program with different names.
-/

namespace YulToolchain

mutual

/-- The variables declared in a block, but not in the functions in it. -/
def Block.localVars : Block → List String
  | ⟨_, stmts⟩ => Stmt.localVarsSeq stmts

/-- The variables declared in some statements, but not in the functions in them. -/
def Stmt.localVarsSeq : List Stmt → List String
  | [] => []
  | s :: rest => s.localVars ++ Stmt.localVarsSeq rest

/-- The variables declared in a statement, but not in the functions in it. -/
def Stmt.localVars : Stmt → List String
  | .decl _ vars _ => vars.map (·.name)
  | .cond _ _ body => body.localVars
  | .switch _ _ cases => Case.localVarsSeq cases
  | .loop _ pre _ post body => pre.localVars ++ (body.localVars ++ post.localVars)
  | .block b => b.localVars
  | _ => []

/-- The variables declared in some cases, but not in the functions in them. -/
def Case.localVarsSeq : List Case → List String
  | [] => []
  | ⟨_, _, body⟩ :: rest => body.localVars ++ Case.localVarsSeq rest

end

mutual

/-- The names declared in the functions in a block: their parameters, their return
    variables and all that is declared in their bodies. -/
def Block.innerNames : Block → List String
  | ⟨_, stmts⟩ => Stmt.innerNamesSeq stmts

/-- The names declared in the functions in some statements. -/
def Stmt.innerNamesSeq : List Stmt → List String
  | [] => []
  | s :: rest => s.innerNames ++ Stmt.innerNamesSeq rest

/-- The names declared in the functions in a statement. -/
def Stmt.innerNames : Stmt → List String
  | .func _ _ params returns body => (params ++ returns).map (·.name) ++ body.declared
  | .cond _ _ body => body.innerNames
  | .switch _ _ cases => Case.innerNamesSeq cases
  | .loop _ pre _ post body => pre.innerNames ++ (body.innerNames ++ post.innerNames)
  | .block b => b.innerNames
  | _ => []

/-- The names declared in the functions in some cases. -/
def Case.innerNamesSeq : List Case → List String
  | [] => []
  | ⟨_, _, body⟩ :: rest => body.innerNames ++ Case.innerNamesSeq rest

end

mutual

/-- A block only changes variables of its own. The functions in it keep away from these
    and from those of the functions around the block, and are secluded themselves. -/
def Block.Secluded (own away : String → Prop) : Block → Prop
  | ⟨_, stmts⟩ => Stmt.SecludedSeq own away stmts

/-- Some statements only change variables of their own. -/
def Stmt.SecludedSeq (own away : String → Prop) : List Stmt → Prop
  | [] => True
  | s :: rest => s.Secluded own away ∧ Stmt.SecludedSeq own away rest

/-- A statement only changes variables of its own. -/
def Stmt.Secluded (own away : String → Prop) : Stmt → Prop
  | .assign _ targets _ => ∀ x ∈ targets, own x.name
  | .decl _ vars _ => ∀ v ∈ vars, own v.name
  | .func _ _ _ _ body => ∃ inner : String → Prop, (∀ x, inner x → ¬ own x ∧ ¬ away x) ∧
      body.Secluded inner fun x => own x ∨ away x
  | .cond _ _ body => body.Secluded own away
  | .switch _ _ cases => Case.SecludedSeq own away cases
  | .loop _ pre _ post body => pre.Secluded own away ∧ body.Secluded own away ∧
      post.Secluded own away
  | .block b => b.Secluded own away
  | _ => True

/-- Some cases only change variables of their own. -/
def Case.SecludedSeq (own away : String → Prop) : List Case → Prop
  | [] => True
  | ⟨_, _, body⟩ :: rest => body.Secluded own away ∧ Case.SecludedSeq own away rest

end

section Names

/-- The names that some statements declare, and all statements in them. -/
def Stmt.declaredAll (stmts : List Stmt) : List String :=
  (Stmt.allStmtsSeq stmts).flatMap Stmt.declaresHere

/-- The names that some cases declare. -/
def Case.declaredAll (cases : List Case) : List String :=
  (Case.allStmtsSeq cases).flatMap Stmt.declaresHere

/-- The names that a statement declares, and all statements in it. -/
def Stmt.declared (s : Stmt) : List String := s.declaresHere ++ s.allInner.flatMap Stmt.declaresHere

theorem Block.declared_mk (line : Nat) (stmts : List Stmt) :
    (⟨line, stmts⟩ : Block).declared = Stmt.declaredAll stmts := rfl

/-- The declarations of a statement come before those of the rest. -/
theorem Stmt.declaredAll_cons (s : Stmt) (rest : List Stmt) :
    Stmt.declaredAll (s :: rest) = s.declared ++ Stmt.declaredAll rest := by
  rw [declaredAll, Stmt.allStmtsSeq, List.flatMap_cons, List.flatMap_append, ← List.append_assoc]
  rfl

/-- The declarations of a case come before those of the rest. -/
theorem Case.declaredAll_cons (line : Nat) (value : Option Literal) (body : Block)
    (rest : List Case) :
    Case.declaredAll (⟨line, value, body⟩ :: rest) = body.declared ++ Case.declaredAll rest := by
  rw [declaredAll, Case.allStmtsSeq, List.flatMap_append]
  rfl

/-- The declarations of a loop in the order of its parts, where body stands before post. -/
theorem Stmt.declared_loop (line : Nat) (pre post body : Block) (test : Expr) :
    (Stmt.loop line pre test post body).declared
      = pre.declared ++ (body.declared ++ post.declared) := by
  rw [Stmt.declared, Stmt.allInner, List.flatMap_append, List.flatMap_append, List.append_assoc]
  rfl

mutual

/-- What is local and what is inner is declared in different places. -/
theorem Block.count_localVars (x : String) : ∀ b : Block,
    b.localVars.count x + b.innerNames.count x ≤ b.declared.count x
  | ⟨line, stmts⟩ => by
      rw [Block.localVars, Block.innerNames, Block.declared_mk]
      exact Stmt.count_localVarsSeq x stmts

/-- Names of a sequence declared in its own frame and inside of functions are apart. -/
theorem Stmt.count_localVarsSeq (x : String) : ∀ stmts : List Stmt,
    (Stmt.localVarsSeq stmts).count x + (Stmt.innerNamesSeq stmts).count x
      ≤ (Stmt.declaredAll stmts).count x
  | [] => Nat.le_refl _
  | s :: rest => by
      have hs := Stmt.count_localVars x s
      have hrest := Stmt.count_localVarsSeq x rest
      rw [Stmt.localVarsSeq, Stmt.innerNamesSeq, Stmt.declaredAll_cons]
      simp only [List.count_append]
      omega

/-- Each declaration of a name is in the frame of the statement or inside of a function. -/
theorem Stmt.count_localVars (x : String) : ∀ s : Stmt,
    s.localVars.count x + s.innerNames.count x ≤ s.declared.count x
  | .expr _ _ => Nat.zero_le _
  | .assign _ _ _ => Nat.zero_le _
  | .decl _ vars _ => by
      show (vars.map TypedName.name).count x + 0 ≤ (vars.map TypedName.name ++ []).count x
      exact Nat.le_of_eq (by rw [List.append_nil, Nat.add_zero])
  -- All that a function declares is inside, and its own name is no variable.
  | .func _ name params returns body => by
      show 0 + ((params ++ returns).map TypedName.name ++ body.declared).count x
        ≤ (name :: ((params ++ returns).map TypedName.name ++ body.declared)).count x
      rw [Nat.zero_add, List.count_cons]
      exact Nat.le_add_right _ _
  | .cond _ _ body => by
      rw [Stmt.localVars, Stmt.innerNames]
      exact Block.count_localVars x body
  | .switch _ _ cases => by
      rw [Stmt.localVars, Stmt.innerNames]
      exact Case.count_localVarsSeq x cases
  | .loop line pre test post body => by
      have hpre := Block.count_localVars x pre
      have hbody := Block.count_localVars x body
      have hpost := Block.count_localVars x post
      rw [Stmt.localVars, Stmt.innerNames, Stmt.declared_loop]
      simp only [List.count_append]
      omega
  | .brk _ => Nat.zero_le _
  | .cont _ => Nat.zero_le _
  | .block b => by
      rw [Stmt.localVars, Stmt.innerNames]
      exact Block.count_localVars x b
  | .label _ _ => Nat.zero_le _
  | .stackAssign _ _ => Nat.zero_le _

/-- Names of cases declared in their own frame and inside of functions are apart. -/
theorem Case.count_localVarsSeq (x : String) : ∀ cases : List Case,
    (Case.localVarsSeq cases).count x + (Case.innerNamesSeq cases).count x
      ≤ (Case.declaredAll cases).count x
  | [] => Nat.le_refl _
  | ⟨line, value, body⟩ :: rest => by
      have hbody := Block.count_localVars x body
      have hrest := Case.count_localVarsSeq x rest
      rw [Case.localVarsSeq, Case.innerNamesSeq, Case.declaredAll_cons]
      simp only [List.count_append]
      omega

end

/-- Variables of the frame are among the declarations. -/
theorem Block.local_subset (b : Block) : b.localVars ⊆ b.declared := fun x hx => by
  have hcount := Block.count_localVars x b
  have := List.count_pos_iff.mpr hx
  exact List.count_pos_iff.mp (by omega)

/-- Names inside of functions are among the declarations. -/
theorem Block.inner_subset (b : Block) : b.innerNames ⊆ b.declared := fun x hx => by
  have hcount := Block.count_localVars x b
  have := List.count_pos_iff.mpr hx
  exact List.count_pos_iff.mp (by omega)

/-- Where names are declared once, none is both in the frame and inside of a function. -/
theorem Block.local_not_inner {b : Block} (hnodup : b.declared.Nodup) {x : String}
    (hx : x ∈ b.innerNames) : x ∉ b.localVars := fun hlocal => by
  have hcount := Block.count_localVars x b
  have hone := List.nodup_iff_count_le_one.mp hnodup x
  have := List.count_pos_iff.mpr hx
  have := List.count_pos_iff.mpr hlocal
  omega

end Names

section Sight

/-- A name is a variable in a scope. -/
def Scopes.Sees (ss : Scopes) (scope : Nat) (x : String) : Prop :=
  ∃ decl type, ss.lookup scope x = some (decl, .var type)

variable {ss : Scopes} {scope outer : Nat} {symbols : List (String × Symbol)} {x : String}

/-- What is looked up is an entry. -/
theorem Scopes.mem_of_lookup {type : String} (h : symbols.lookup x = some (.var type)) :
    (x, Symbol.var type) ∈ symbols := by
  rcases List.lookup_eq_some_iff.mp h with ⟨before, behind, hsymbols, -⟩
  rw [hsymbols]
  exact List.mem_append_right _ List.mem_cons_self

/-- A variable that is seen in a scope is declared there or seen outside. -/
theorem Scopes.Sees.cases (h : ss.Sees scope x) (ho : ss.Ordered) {parent : Option Nat}
    (hs : ss.get? scope = some ⟨parent, false, symbols⟩) :
    (∃ type, (x, .var type) ∈ symbols) ∨ ∃ outer, parent = some outer ∧ ss.Sees outer x := by
  rcases h with ⟨decl, type, h⟩
  rw [Scopes.lookup_eq ho hs] at h
  rcases hfound : (⟨parent, false, symbols⟩ : Scope).find? x with _ | symbol
  · rw [hfound] at h
    rcases parent with _ | outer
    · exact absurd h (by rintro ⟨⟩)
    · exact .inr ⟨outer, rfl, decl, type, h⟩
  · rw [hfound] at h
    cases h
    exact .inl ⟨type, Scopes.mem_of_lookup hfound⟩

/-- A variable that is seen in the scope of the parameters of a function is declared
    there. -/
theorem Scopes.Sees.declared (h : ss.Sees scope x) (ho : ss.Ordered)
    (hs : ss.get? scope = some ⟨some outer, true, symbols⟩) :
    ∃ type, (x, .var type) ∈ symbols := by
  rcases h with ⟨decl, type, h⟩
  rw [Scopes.lookup_eq ho hs] at h
  rcases hfound : (⟨some outer, true, symbols⟩ : Scope).find? x with _ | symbol
  · rw [hfound] at h
    exact absurd (Scopes.lookupIn_true.mp h).2 Bool.noConfusion
  · rw [hfound] at h
    cases h
    exact ⟨type, Scopes.mem_of_lookup hfound⟩

/-- An entry for variables is one of them. -/
theorem TypedName.mem_of_mem_symbols {type : String} {vars : List TypedName}
    (h : (x, Symbol.var type) ∈ (TypedName.symbols vars).reverse) : x ∈ vars.map (·.name) := by
  rcases List.mem_map.mp (List.mem_reverse.mp h) with ⟨v, hv, heq⟩
  cases heq
  exact List.mem_map_of_mem hv

/-- A variable of a sequence's scope is one of the frame. -/
theorem Stmt.local_of_mem_symbols {type : String} {stmts : List Stmt}
    (h : (x, .var type) ∈ Stmt.symbols stmts) : x ∈ Stmt.localVarsSeq stmts := by
  rw [Stmt.symbols, List.mem_reverse, List.mem_append, List.mem_flatMap, List.mem_flatMap] at h
  -- Functions and labels are no variables, so the name is declared by a statement.
  have hadds : ∃ s ∈ stmts, (x, .var type) ∈ s.adds := by
    rcases h with ⟨s, -, hs⟩ | h
    · unfold Stmt.hoists at hs
      split at hs
      · exact absurd (List.mem_singleton.mp hs) (by rintro ⟨⟩)
      · exact absurd (List.mem_singleton.mp hs) (by rintro ⟨⟩)
      · exact absurd hs List.not_mem_nil
    · exact h
  rcases hadds with ⟨s, hs, hadds⟩
  have hlocal : x ∈ s.localVars := by
    unfold Stmt.adds at hadds
    split at hadds
    · exact TypedName.mem_of_mem_symbols (List.mem_reverse.mpr hadds)
    · exact absurd hadds List.not_mem_nil
  clear h hadds
  induction stmts with
  | nil => exact absurd hs List.not_mem_nil
  | cons s' rest ih =>
      rw [Stmt.localVarsSeq, List.mem_append]
      rcases List.mem_cons.mp hs with rfl | hs
      · exact .inl hlocal
      · exact .inr (ih hs)

end Sight

section Charts

variable {d : Dialect} {ss : Scopes}

mutual

/-- Code with finished scopes keeps to the variables it declares and to those it
    sees outside. -/
theorem Block.Charted.secluded (ho : ss.Ordered) : ∀ {b : Block} {parent : Option Nat} {id : Nat}
    {own away : String → Prop}, b.Charted d ss parent id → b.declared.Nodup →
    (∀ outer, parent = some outer → ∀ x, ss.Sees outer x → own x) →
    (∀ x ∈ b.localVars, own x) → (∀ x ∈ b.innerNames, ¬ own x ∧ ¬ away x) → b.Secluded own away
  | ⟨line, stmts⟩, parent, id, own, away, h, hnodup, hsees, hlocal, hinner => by
      rw [Block.Charted] at h
      rw [Block.localVars] at hlocal
      rw [Block.innerNames] at hinner
      rw [Block.Secluded]
      refine Stmt.ChartedSeq.secluded ho h.2 hnodup (fun x hx => ?_) hlocal hinner
      rcases hx.cases ho h.1 with ⟨type, hx⟩ | ⟨outer, houter, hx⟩
      · exact hlocal x (Stmt.local_of_mem_symbols hx)
      · exact hsees outer houter x hx
termination_by structural b => b

/-- The statements of a sequence keep to the names of the frame. -/
theorem Stmt.ChartedSeq.secluded (ho : ss.Ordered) : ∀ {stmts : List Stmt} {scope next : Nat}
    {own away : String → Prop}, Stmt.ChartedSeq d ss scope next stmts →
    (Stmt.declaredAll stmts).Nodup → (∀ x, ss.Sees scope x → own x) →
    (∀ x ∈ Stmt.localVarsSeq stmts, own x) →
    (∀ x ∈ Stmt.innerNamesSeq stmts, ¬ own x ∧ ¬ away x) → Stmt.SecludedSeq own away stmts
  | [], _, _, _, _, _, _, _, _, _ => trivial
  | s :: rest, scope, next, own, away, h, hnodup, hsees, hlocal, hinner => by
      rw [Stmt.ChartedSeq] at h
      rw [Stmt.declaredAll_cons] at hnodup
      rw [Stmt.localVarsSeq, List.forall_mem_append] at hlocal
      rw [Stmt.innerNamesSeq, List.forall_mem_append] at hinner
      exact ⟨Stmt.Charted.secluded ho h.1 hnodup.of_append_left hsees hlocal.1 hinner.1,
        Stmt.ChartedSeq.secluded ho h.2 hnodup.of_append_right hsees hlocal.2 hinner.2⟩
termination_by structural stmts => stmts

/-- A statement assigns variables of its frame only, and functions have names of their own. -/
theorem Stmt.Charted.secluded (ho : ss.Ordered) : ∀ {s : Stmt} {scope next : Nat}
    {own away : String → Prop}, s.Charted d ss scope next → s.declared.Nodup →
    (∀ x, ss.Sees scope x → own x) → (∀ x ∈ s.localVars, own x) →
    (∀ x ∈ s.innerNames, ¬ own x ∧ ¬ away x) → s.Secluded own away
  | .expr _ _, _, _, _, _, _, _, _, _, _ => trivial
  | .assign _ targets _, scope, next, own, away, h, _, hsees, _, _ => by
      rw [Stmt.Charted] at h
      rw [Stmt.Secluded]
      exact fun x hx => hsees x.name (h.2 x hx)
  | .decl _ vars _, scope, next, own, away, _, _, _, hlocal, _ => by
      rw [Stmt.Secluded]
      exact fun v hv => hlocal v.name (List.mem_map_of_mem hv)
  -- The frame of a function: its parameters and return variables and what its body declares.
  | .func _ name params returns body, scope, next, own, away, h, hnodup, _, _, hinner => by
      rw [Stmt.Charted] at h
      have hnames : ((params ++ returns).map TypedName.name ++ body.declared).Nodup :=
        (List.nodup_cons.mp hnodup).2
      have hdisjoint := List.nodup_append.mp hnames
      have hapart : ∀ x ∈ (params ++ returns).map TypedName.name ++ body.declared,
          ¬ own x ∧ ¬ away x := hinner
      rw [List.forall_mem_append] at hapart
      rw [Stmt.Secluded]
      refine ⟨fun x => x ∈ (params ++ returns).map TypedName.name ∨ x ∈ body.localVars,
        fun x hx => ?_, ?_⟩
      -- None of them is a name of the frame around it, or of one that is left away.
      · rcases hx with hx | hx
        · exact hapart.1 x hx
        · exact hapart.2 x (Block.local_subset body hx)
      · refine Block.Charted.secluded ho h.2 hdisjoint.2.1 (fun outer houter x hx => ?_)
          (fun x hx => .inr hx) fun x hx => ?_
        -- What the body sees is declared by the function, as variables around it are hidden.
        · cases houter
          rcases hx.declared ho h.1 with ⟨type, hx⟩
          exact .inl (TypedName.mem_of_mem_symbols hx)
        -- A function inside of the body is apart from the body and from all that is around.
        · have hdeclared := Block.inner_subset body hx
          refine ⟨fun hx' => ?_, fun hx' => ?_⟩
          · rcases hx' with hx' | hx'
            · exact hdisjoint.2.2 x hx' x hdeclared rfl
            · exact Block.local_not_inner hdisjoint.2.1 hx hx'
          · exact hx'.elim (hapart.2 x hdeclared).1 (hapart.2 x hdeclared).2
  | .cond _ _ body, scope, next, own, away, h, hnodup, hsees, hlocal, hinner => by
      rw [Stmt.Charted] at h
      rw [Stmt.Secluded]
      refine Block.Charted.secluded ho h.2 hnodup (fun outer houter => ?_) hlocal hinner
      cases houter
      exact hsees
  | .switch _ _ cases, scope, next, own, away, h, hnodup, hsees, hlocal, hinner => by
      rw [Stmt.Charted] at h
      rw [Stmt.Secluded]
      exact Case.ChartedSeq.secluded ho h.2 hnodup hsees hlocal hinner
  | .loop line ⟨preLine, pre⟩ test post body, scope, next, own, away, h, hnodup, hsees, hlocal,
      hinner => by
      rw [Stmt.Charted] at h
      rcases h with ⟨hscope, hpre, -, hbody, hpost⟩
      -- The names of the three parts are apart from each other.
      rw [Stmt.declared_loop] at hnodup
      rw [Stmt.localVars, List.forall_mem_append, List.forall_mem_append] at hlocal
      rw [Stmt.innerNames, List.forall_mem_append, List.forall_mem_append] at hinner
      have hnodup' := hnodup.of_append_right
      -- The variables that the loop starts with are seen in all of it.
      have hsees' : ∀ x, ss.Sees next x → own x := fun x hx => by
        rcases hx.cases ho hscope with ⟨type, hx⟩ | ⟨outer, houter, hx⟩
        · exact hlocal.1 x (by
            rw [Block.localVars]
            exact Stmt.local_of_mem_symbols hx)
        · cases houter
          exact hsees x hx
      have hparent : ∀ outer, some next = some outer → ∀ x, ss.Sees outer x → own x :=
        fun outer houter => by
          cases houter
          exact hsees'
      rw [Stmt.Secluded]
      refine ⟨?_, Block.Charted.secluded ho hbody hnodup'.of_append_left hparent hlocal.2.1
        hinner.2.1, Block.Charted.secluded ho hpost hnodup'.of_append_right hparent hlocal.2.2
        hinner.2.2⟩
      rw [Block.Secluded]
      rw [Block.localVars, Block.innerNames] at *
      exact Stmt.ChartedSeq.secluded ho hpre hnodup.of_append_left hsees' hlocal.1 hinner.1
  | .brk _, _, _, _, _, _, _, _, _, _ => trivial
  | .cont _, _, _, _, _, _, _, _, _, _ => trivial
  | .block b, scope, next, own, away, h, hnodup, hsees, hlocal, hinner => by
      rw [Stmt.Charted] at h
      rw [Stmt.Secluded]
      refine Block.Charted.secluded ho h hnodup (fun outer houter => ?_) hlocal hinner
      cases houter
      exact hsees
  | .label _ _, _, _, _, _, _, _, _, _, _ => trivial
  | .stackAssign _ _, _, _, _, _, _, _, _, _, _ => trivial
termination_by structural s => s

/-- The cases keep to the names of the frame. -/
theorem Case.ChartedSeq.secluded (ho : ss.Ordered) : ∀ {cases : List Case} {scope next : Nat}
    {own away : String → Prop}, Case.ChartedSeq d ss scope next cases →
    (Case.declaredAll cases).Nodup → (∀ x, ss.Sees scope x → own x) →
    (∀ x ∈ Case.localVarsSeq cases, own x) →
    (∀ x ∈ Case.innerNamesSeq cases, ¬ own x ∧ ¬ away x) → Case.SecludedSeq own away cases
  | [], _, _, _, _, _, _, _, _, _ => trivial
  | ⟨line, value, body⟩ :: rest, scope, next, own, away, h, hnodup, hsees, hlocal, hinner => by
      rw [Case.ChartedSeq] at h
      rw [Case.declaredAll_cons] at hnodup
      rw [Case.localVarsSeq, List.forall_mem_append] at hlocal
      rw [Case.innerNamesSeq, List.forall_mem_append] at hinner
      refine ⟨Block.Charted.secluded ho h.1 hnodup.of_append_left (fun outer houter => ?_) hlocal.1
          hinner.1,
        Case.ChartedSeq.secluded ho h.2 hnodup.of_append_right hsees hlocal.2 hinner.2⟩
      cases houter
      exact hsees
termination_by structural cases => cases

end

/-- An accepted program with different names keeps to the variables that it
    declares outside of functions. -/
theorem analyze_secluded {code : Block} (h : analyze d code = .ok ss)
    (hnodup : code.declared.Nodup) : code.Secluded (· ∈ code.localVars) fun _ => False := by
  rcases analyze_charted h with ⟨hcharted, ho⟩
  refine Block.Charted.secluded ho hcharted hnodup (fun outer houter => ?_) (fun x hx => hx)
    fun x hx => ⟨Block.local_not_inner hnodup hx, id⟩
  exact absurd houter (by rintro ⟨⟩)

end Charts

end YulToolchain
