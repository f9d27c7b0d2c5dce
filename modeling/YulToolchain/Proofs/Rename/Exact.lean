import YulToolchain.Proofs.Rename.Lockstep
import YulToolchain.Proofs.Rename.Occurrence
import YulToolchain.Proofs.Rename.Reanalysis
import YulToolchain.Proofs.Rename.Spelled
import YulToolchain.Proofs.Rename.Walk

/-!
# Making Names Unique Is Exact

Making names unique changes names and nothing else.

The parts of this are shown elsewhere: that the walk over the code respells it with
fresh names (`makeNamesUnique_walks`), that the analysis accepts it in other names and
finds in its scopes what it found before (`analyze_respell`), and that programs that differ
in names run in lockstep (`interpret_alpha`). Here they are put together for programs
that are read and accepted.

Runs are compared step for step, so that a program in new names runs out of its budget
just where it did in the old ones. The exception is one of runs, and not of names: if an
initialisation leaves a loop around it, the interpreter goes on without variables that
it then misses, and says so by their names (`renamed_variable_is_reported`).

## Main definitions

* `ExactRenaming`: A program is another one in new names.

## Theorems

* `RenameContext.apart`: New names keep apart what was apart.
* `interpret_respell`: A program in such names does what it did.
* `makeNamesUnique_exact`: The program with unique names is the old one in new names.
* `renamed_variable_is_reported`: A program whose complaint names a new name.
-/

namespace YulToolchain

/-- A program is another one in new names, except for external names and those of
    builtins, which stay as they are. -/
structure ExactRenaming (d : Dialect) (external : List String) (code : Block) (ss : Scopes)
    (names : Declaration → String) (code' : Block) (ss' : Scopes) : Prop where
  /-- Nothing is changed but the spelling of names. -/
  shape : code' = code.respell (ss.spelling d names) 0
  /-- External names and those of builtins keep their spelling. -/
  kept : ∀ u ∈ code.uses 0, u.2 ∈ external ∨ (d.builtin? u.2).isSome = true →
    ss.spelling d names u.1 u.2 = u.2
  keptDeclared : ∀ decl ∈ code.declarations 0, decl.name ∈ external → names decl = decl.name
  /-- What was declared is declared at the same places. -/
  declarations : code'.declarations 0
    = (code.declarations 0).map fun decl => ⟨decl.scope, names decl⟩
  /-- No two declarations have the same name, unless it is external. -/
  distinct : (((code.declarations 0).filter (·.name ∉ external)).map names).Nodup
  fresh : ∀ decl ∈ code.declarations 0, decl.name ∉ external →
    d.reserved (names decl) = false ∧ names decl ∉ external
  /-- The program is accepted. -/
  accepted : analyze d code' = .ok ss'
  /-- What was used is used at the same places. -/
  uses : code'.uses 0 = (code.uses 0).map fun u => (u.1, ss.spelling d names u.1 u.2)
  /-- Every name that is used means what it meant before. -/
  resolved : ∀ u ∈ code.uses 0, d.builtin? u.2 = none →
    ∃ decl ∈ code.declarations 0, ∃ symbol, ss.lookup u.1 u.2 = some (decl, symbol) ∧
      ss'.lookup u.1 (ss.spelling d names u.1 u.2) = some (⟨decl.scope, names decl⟩, symbol)
  /-- The program has the same result, whatever the budget, provided that no loop is left
      from an initialisation. -/
  runs : code.initsStay = true → ∀ limits calldata,
    interpret d limits calldata code' = interpret d limits calldata code

/-- New names keep apart what was apart, and can be declared. -/
theorem RenameContext.apart {c : RenameContext} {code : Block} {st : Renaming} (hst : st.Good c)
    (hsettled : ∀ decl ∈ code.declarations 0, st.Settles c decl) :
    Apart c.dialect (c.nameOf st) fun decl => decl ∈ code.declarations 0 ∧
      c.dialect.reserved decl.name = false ∧ decl.name ≠ "" := by
  have hkept : ∀ {decl : Declaration}, c.external.contains decl.name = true →
      c.nameOf st decl = decl.name := by
    intro decl h
    rw [RenameContext.nameOf, if_pos h]
  refine ⟨fun a b ha hb heq => ?_, fun a ha => ⟨ha.2.1, ?_⟩, fun a ha => ?_⟩
  -- Two declarations with one spelling are one, or both have the same external name.
  · rcases hst.nameOf_injective (hsettled a ha.1) (hsettled b hb.1) heq with rfl | h
    · rfl
    · exact h.2
  -- An external name is kept, and no word of the dialect is among the declared names.
  · by_cases hext : c.external.contains a.name = true
    · rw [hkept hext]
      exact ha.2.1
    · exact (hst.nameOf_fresh (hsettled a ha.1) (Bool.not_eq_true _ ▸ hext)).2.1
  · by_cases hext : c.external.contains a.name = true
    · rw [hkept hext]
      exact ha.2.2
    · exact (hst.nameOf_fresh (hsettled a ha.1) (Bool.not_eq_true _ ▸ hext)).1

/-- A program in new names that keep apart what was apart does what it did, unless a loop is
    left from an initialisation. -/
theorem interpret_respell {d : Dialect} (hd : d.flavour ≠ .loose) {code : Block} {ss : Scopes}
    (hr : code.Readable) (haccept : analyze d code = .ok ss) (hstay : code.initsStay = true)
    {names : Declaration → String} (hapart : Apart d names fun decl =>
      decl ∈ code.declarations 0 ∧ d.reserved decl.name = false ∧ decl.name ≠ "") :
    (code.respell (ss.spelling d names) 0).Fits d .empty false ∧
      ∀ limits calldata, interpret d limits calldata (code.respell (ss.spelling d names) 0)
        = interpret d limits calldata code := by
  rcases analyze_respell hapart haccept fun decl hdecl hreserved hname =>
    ⟨hdecl, hreserved, hname⟩ with ⟨hanalyze, hcov⟩
  -- A name without a declaration keeps its spelling.
  have hclear : ss.Clear d names := by
    intro scope x hb
    rcases hl : ss.lookup scope x with _ | ⟨decl, symbol⟩
    · simp only [Scopes.spelling, hb, hl, Option.isSome_none, Bool.false_eq_true, if_false]
    · rw [Scopes.spelling_declared hb hl]
      exact (hcov.spelling hapart (.refl ss) hl).2.2
  -- Both sides are accepted, and so they fit.
  have hfits := analyze_fits hd hr hstay haccept
  have hfits' := analyze_fits hd (hr.respell (ss.spelling d names) 0)
    (by rw [Block.initsStay_respell]; exact hstay) hanalyze
  exact ⟨hfits', interpret_alpha hfits hfits' (Block.alphaEq_respell hclear
    (analyze_resolved hd hr haccept) (Pairing.Spells.empty _ _))⟩

/-- Making names unique gives a program that fits and does what the old one did. -/
theorem makeNamesUnique_runs {d : Dialect} (hd : d.flavour ≠ .loose) {code : Block} {ss : Scopes}
    (hr : code.Readable) (haccept : analyze d code = .ok ss) (hstay : code.initsStay = true)
    (external : List String) :
    ∃ unique, makeNamesUnique d ss external code = .ok unique ∧ unique.Fits d .empty false ∧
      ∀ limits calldata, interpret d limits calldata unique = interpret d limits calldata code := by
  rcases makeNamesUnique_walks external haccept with ⟨st, hgood, hsettled, hrun⟩
  exact ⟨_, hrun, interpret_respell hd hr haccept hstay
    (RenameContext.apart (c := ⟨d, ss, external⟩) hgood hsettled)⟩

/-- Making names unique gives the program in new names, and nothing else is
    changed. -/
theorem makeNamesUnique_exact {d : Dialect} (hd : d.flavour ≠ .loose) {source : String}
    {code : Block} {ss : Scopes} (hread : Reads d source code) (haccept : analyze d code = .ok ss)
    (external : List String) :
    ∃ code' names ss', makeNamesUnique d ss external code = .ok code' ∧
      ExactRenaming d external code ss names code' ss' := by
  have hr := hread.readable hd
  have hfound := analyze_found haccept
  rcases makeNamesUnique_walks external haccept with ⟨st, hgood, hsettled, hrun⟩
  let c : RenameContext := ⟨d, ss, external⟩
  -- Different declarations are spelled differently wherever it matters.
  have hapart := RenameContext.apart (c := c) hgood hsettled
  -- The code with its new names is accepted, with the same scopes in their new names.
  rcases analyze_respell hapart haccept fun decl hdecl hreserved hname =>
    ⟨hdecl, hreserved, hname⟩ with ⟨hanalyze, hcov⟩
  have hexternal : ∀ {decl : Declaration}, decl.name ∈ external →
      c.nameOf st decl = decl.name := by
    intro decl h
    rw [RenameContext.nameOf, if_pos (List.contains_iff_mem.mpr h)]
  have hnot : ∀ {x : String}, x ∉ external → external.contains x = false := fun h =>
    Bool.eq_false_iff.mpr fun hc => h (List.contains_iff_mem.mp hc)
  -- A declaration is spelled with its new name in its own scope.
  have hown : ∀ decl ∈ code.declarations 0,
      ss.spelling d (c.nameOf st) decl.scope decl.name = c.nameOf st decl := by
    intro decl hdecl
    rcases hfound.2 decl hdecl with ⟨hreserved, _, symbol, hl⟩
    exact Scopes.spelling_declared (Dialect.builtin?_eq_none hreserved) hl
  refine ⟨_, c.nameOf st, _, hrun, rfl, ?_, fun decl _ h => hexternal h, ?_, ?_, ?_, hanalyze,
    Block.uses_respell _ _ _, ?_, ?_⟩
  -- A builtin or an external name keeps its spelling.
  · rintro ⟨scope, x⟩ hu h
    by_cases hb : (d.builtin? x).isSome = true
    · rcases Option.isSome_iff_exists.mp hb with ⟨b, hb⟩
      exact Scopes.spelling_builtin hb
    · have hb := Option.not_isSome_iff_eq_none.mp hb
      rcases hfound.1 _ hu hb with ⟨⟨decl, symbol⟩, hl⟩
      obtain rfl := (Scopes.lookup_found hl).1
      show ss.spelling d _ scope decl.name = decl.name
      rw [Scopes.spelling_declared hb hl]
      exact hexternal (h.resolve_right (by rw [hb]; exact Bool.false_ne_true))
  -- Declarations are those of the code, each with its new name.
  · rw [Block.declarations_respell]
    exact List.map_congr_left fun decl hdecl => congrArg (Declaration.mk decl.scope)
      (hown decl hdecl)
  -- Names that are not external are declared once only.
  · refine ((analyze_declarations_nodup haccept).filter _).map_on fun a ha b hb heq => ?_
    rw [List.mem_filter, decide_eq_true_eq] at ha hb
    refine (hgood.nameOf_injective (hsettled a ha.1) (hsettled b hb.1) heq).resolve_right ?_
    exact fun h => ha.2 (List.contains_iff_mem.mp h.1)
  · intro decl hdecl hext
    exact (hgood.nameOf_fresh (hsettled decl hdecl) (hnot hext)).2
  -- Each use is resolved to the declaration with its new name.
  · rintro ⟨scope, x⟩ hu hb
    rcases hfound.1 _ hu hb with ⟨⟨decl, symbol⟩, hl⟩
    rcases hcov.spelling hapart (.refl ss) hl with ⟨hspell, hlookup, _⟩
    refine ⟨decl, (hcov.lookup hl).1.1, symbol, hl, ?_⟩
    show (ss.respell _).lookup scope (ss.spelling d _ scope x) = _
    rw [hspell]
    exact hlookup
  -- The runs are equal if no init part is left.
  · exact fun hstay => (interpret_respell hd hr haccept hstay hapart).2

/-- A name that is declared twice, and the name that the second declaration gets. -/
theorem makeNamesUnique_exact_repeated :
    ∃ code ss, parseBlock .strictAssembly
        "{ { let x } let x_1 function f(x) -> r { r := f(x) }
          for { let i } x_1 { i := f(i) } { break } }"
          = .ok code ∧ analyze .strictAssembly code = .ok ss ∧
      ∃ code' names ss', makeNamesUnique .strictAssembly ss ["i"] code = .ok code' ∧
        ExactRenaming .strictAssembly ["i"] code ss names code' ss' := by
  refine exists_of_accepted? (fun _ => true) (by decide +kernel) fun code ss hread haccept _ => ?_
  exact makeNamesUnique_exact (by decide) (Or.inl hread) haccept ["i"]

/-- The interpreter goes on behind a `break` in an initialisation without the variable that
    is declared there, and complains about it by its name. -/
theorem renamed_variable_is_reported :
    ∃ code ss, parseBlock .strictAssembly
        "{ { let x } for {} 1 {} { for { break let x := 1 } x {} {} } }" = .ok code ∧
      analyze .strictAssembly code = .ok ss ∧
      ∃ code', makeNamesUnique .strictAssembly ss [] code = .ok code' ∧
        interpret .strictAssembly ⟨100, 0x100000⟩ [] code = .error (.unknownVariable "x" 1) ∧
        interpret .strictAssembly ⟨100, 0x100000⟩ [] code'
          = .error (.unknownVariable "x_1" 1) := by
  refine exists_of_accepted? (fun code =>
    match analyze .strictAssembly code with
    | .error _ => false
    | .ok ss => match makeNamesUnique .strictAssembly ss [] code with
      | .error _ => false
      | .ok code' => match interpret .strictAssembly ⟨100, 0x100000⟩ [] code,
          interpret .strictAssembly ⟨100, 0x100000⟩ [] code' with
        | .error why, .error why' =>
          why = .unknownVariable "x" 1 && why' = .unknownVariable "x_1" 1
        | _, _ => false) (by decide +kernel) fun code ss _ haccept htest => ?_
  rw [haccept] at htest
  split at htest
  · exact absurd htest Bool.noConfusion
  · rename_i ss' hss
    obtain rfl := Except.ok.inj hss
    split at htest
    · exact absurd htest Bool.noConfusion
    · rename_i code' hcode'
      split at htest
      · rename_i why why' hwhy hwhy'
        rw [Bool.and_eq_true, decide_eq_true_eq, decide_eq_true_eq] at htest
        exact ⟨code', hcode', hwhy.trans (congrArg _ htest.1), hwhy'.trans (congrArg _ htest.2)⟩
      · exact absurd htest Bool.noConfusion

end YulToolchain
