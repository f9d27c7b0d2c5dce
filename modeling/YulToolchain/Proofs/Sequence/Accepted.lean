import YulToolchain.Proofs.Pass.WellFormed
import YulToolchain.Proofs.Rename.Written

/-!
# Sequences of Steps Keep Code Well Formed

What any sequence of steps makes of an accepted program is accepted, in every flavour.

Making the names unique gives a proper program, and every step keeps it proper
(`Step.runAll_proper`). So after each step all names can be used as they are, and the check
behind the last step finds nothing.

There is one exception. A label is a value in loose code, and it is not visible outside its
block. What is known about a variable is not forgotten where the labels in it go out of
sight, so a copy of it may end up outside (`copied_label_is_out_of_sight`). Hence values
that are given to variables must not read labels of inner blocks.

## Theorems

* `Block.proper_of_accepted`: Accepted programs with unique names are proper.
* `optimizeCode_eq`: The steps are applied to the program with unique names.
* `optimized_code_is_accepted`: What a sequence of steps leaves is accepted.
* `copied_label_is_out_of_sight`: A label that is copied out of its block.
-/

namespace YulToolchain

section Programs

variable {d : Dialect} {code unique : Block} {ss ss' : Scopes} {steps : List Step}

/-- Accepted programs with unique names are proper, unless a value that may be copied reads a
    label of an inner block. -/
theorem Block.proper_of_accepted {ops : Instruction → Prop} (hops : ∀ op, d.Offers op → ops op)
    (hwritten : code.Written d 0) (haccept : YulToolchain.analyze d code = .ok ss)
    (hdeclared : code.declared.Nodup) (hstay : d.flavour = .loose → code.labelsStay = true) :
    code.Proper ⟨d, ops, code.stmts.flatMap Stmt.labelsHere⟩ where
  stands := YulToolchain.analyze_stands hops hwritten hstay haccept
  labels x hx := by
    rcases List.mem_flatMap.mp hx with ⟨s, hs, hx⟩
    exact List.mem_flatMap.mpr ⟨s, hs, Stmt.label_mem_hoists.mpr hx⟩
  declared := hdeclared

/-- The steps are applied to the program with unique names. -/
theorem optimizeCode_eq {external : List String} (haccept : analyze d code = .ok ss)
    (hunique : makeNamesUnique d ss external code = .ok unique)
    (hresult : analyze d (Step.runAll d steps unique) = .ok ss') :
    optimizeCode d external steps code = .ok (Step.runAll d steps unique) := by
  have hinput : within "Analysing optimiser input" (orFail .analysis (analyze d code))
      = .ok ss := by
    rw [haccept]
    rfl
  have hnames : orFail .internal (makeNamesUnique d ss external code) = .ok unique := by
    rw [hunique]
    rfl
  rw [optimizeCode, hinput]
  show (orFail .internal (makeNamesUnique d ss external code) >>= _) = _
  rw [hnames]
  simp only [Bind.bind, Except.bind, hresult]
  rfl

end Programs

/-- What a sequence of steps makes of an accepted program is accepted, and so is what each step
    leaves to the next one, provided that in loose code no value that is given to a variable
    reads a label of an inner block. -/
theorem optimized_code_is_accepted {d : Dialect} {source : String} {code : Block} {ss : Scopes}
    (hread : Reads d source code) (haccept : analyze d code = .ok ss) (steps : List Step) :
    ∃ unique, makeNamesUnique d ss [] code = .ok unique ∧
      ((d.flavour = .loose → unique.labelsStay = true) →
        (∀ n, (Step.runAll d (steps.take n) unique).Proper
            ⟨d, fun _ => True, unique.stmts.flatMap Stmt.labelsHere⟩ ∧
          ∃ ss', analyze d (Step.runAll d (steps.take n) unique) = .ok ss' ∧
            ss'.Locates d ((Step.runAll d (steps.take n) unique).uses 0)
              ((Step.runAll d (steps.take n) unique).declarations 0)) ∧
        optimizeCode d [] steps code = .ok (Step.runAll d steps unique)) := by
  rcases makeNamesUnique_written hread.written haccept with
    ⟨unique, ss₁, hunique, haccept₁, hwritten, hdeclared⟩
  refine ⟨unique, hunique, fun hstay => ?_⟩
  -- Each step keeps the code proper, and after any number of them it is still so.
  have hproper : ∀ steps, (Step.runAll d steps unique).Proper
      ⟨d, fun _ => True, unique.stmts.flatMap Stmt.labelsHere⟩ := fun steps =>
    Step.runAll_proper (fun _ => trivial)
      (Block.proper_of_accepted (fun _ _ => trivial) hwritten haccept₁ hdeclared hstay)
  refine ⟨fun n => ⟨hproper _, ?_⟩, ?_⟩
  -- Proper code is accepted, and then the analysis has located all its names.
  · rcases (hproper (steps.take n)).accepted with ⟨ss', hresult⟩
    exact ⟨ss', hresult, analyze_found hresult⟩
  · rcases (hproper steps).accepted with ⟨ss', hresult⟩
    exact optimizeCode_eq haccept hunique hresult

/-- Loose code with a label that is read outside of values, a stack assignment, and two
    variables of one name. -/
theorem optimized_code_is_accepted_with_label :
    ∃ code ss, parseBlock .looseAssembly
        "{ { let x := 1 jump(end) } let x := add(calldatasize(), 2) 3 =: x mstore(x, x) end: }"
          = .ok code ∧
      analyze .looseAssembly code = .ok ss ∧
      ∃ unique, makeNamesUnique .looseAssembly ss [] code = .ok unique ∧
        unique.labelsStay = true ∧
        optimizeCode .looseAssembly [] Step.all code
          = .ok (Step.runAll .looseAssembly Step.all unique) := by
  -- One evaluation tells that the source is read and accepted and that its labels stay.
  refine exists_of_accepted? (fun code => (analyze .looseAssembly code).toOption.any fun ss =>
    (makeNamesUnique .looseAssembly ss [] code).toOption.any (·.labelsStay)) (by decide +kernel)
    fun code ss hread haccept htest => ?_
  rcases optimized_code_is_accepted (.inl hread) haccept Step.all with ⟨unique, hunique, h⟩
  rcases exists_ok_of_any htest with ⟨ss', haccept', htest⟩
  obtain rfl := Except.ok.inj (haccept.symm.trans haccept')
  rcases exists_ok_of_any htest with ⟨unique', hunique', htest⟩
  obtain rfl := Except.ok.inj (hunique.symm.trans hunique')
  exact ⟨unique, hunique, htest, (h fun _ => htest).2⟩

/-- The value of a variable reads a label of an inner block. It is copied to a place behind the
    block, where the label is not visible. -/
theorem copied_label_is_out_of_sight :
    ∃ code ss, parseBlock .looseAssembly "{ let x { lbl: x := lbl } pop(x) }" = .ok code ∧
      analyze .looseAssembly code = .ok ss ∧
      optimizeCode .looseAssembly [] [.rematerialize] code
        = .error (.of (.internal ⟨1, .resultIllFormed ⟨1, .unknownName "lbl"⟩⟩)) := by
  exact exists_of_accepted? (fun code =>
    decide ((optimizeCode .looseAssembly [] [.rematerialize] code).map (fun _ => ())
      = .error (.of (.internal ⟨1, .resultIllFormed ⟨1, .unknownName "lbl"⟩⟩))))
    (by decide +kernel) fun code _ _ _ htest => eq_error_of_map (of_decide_eq_true htest)

end YulToolchain
