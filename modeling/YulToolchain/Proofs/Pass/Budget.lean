import YulToolchain.Proofs.Pass.Preservation
import YulToolchain.Proofs.Pass.Simplified
import YulToolchain.Proofs.Static.Analyzed

/-!
# Passes and the Budget of Steps

Which passes keep the result of a program within the budget that the program has.

What a pass makes of a program is compared with the program in runs without a budget. There
both come to the same end, and so they do in any budget that covers their steps. A program in
another form `Imitates` the old one: it has the same result as soon as it may make enough
steps. If the pass never adds a step, then the budget of the old program is enough.

Splicing blocks, moving the initialisation of loops and removing control flow add none. It
matters that names are distinct: where a name is declared twice, an initialisation that is
moved in front of its loop needs a block around it, which takes a step.

## Main definitions

* `Block.Imitates`: A program has the same results as another one, given enough steps.

## Theorems

* `Block.Becomes.imitates`: What a pass makes of a program imitates it, and the other way.
* `Block.Becomes.interpret_within`: It needs no more steps, if the pass adds none.
* `reshaping_takes_no_steps`: Three passes that add none.
-/

namespace YulToolchain

/-- Runs that meet end with the same result, and both or none of them for lack of steps. -/
theorem Both.result {r : Liberty} {o o' : Outcome Flow}
    (h : Both (Level r 0) o o' fun _ t _ t' => Level r 0 t t') :
    Outcome.result o' = Outcome.result o ∧ (Spent o' ↔ Spent o) ∧
      (r ≠ .free → (finalState o').steps ≤ (finalState o).steps) := by
  cases o with
  -- One run that succeeds where the other halts is on no level.
  | ok flow t =>
      cases o' with
      | ok flow' t' => exact ⟨by rw [Outcome.result, Outcome.result, h.machine], .rfl, h.ahead⟩
      | error halt' t' => exact False.elim h
  | error halt t =>
      cases o' with
      | ok flow' t' => exact False.elim h
      | error halt' t' =>
          rcases h with ⟨rfl, hlevel⟩
          refine ⟨?_, .rfl, hlevel.ahead⟩
          -- How it halted is the same, and so is the machine on that level.
          cases halt with
          | ended termination => rw [Outcome.result, Outcome.result, hlevel.machine]
          | failed why => rfl

/-- The second program has every result that the first one has, as soon as it may make enough
    steps. -/
def Block.Imitates (d : Dialect) (code code' : Block) : Prop :=
  ∀ (limits : Limits) (calldata : List UInt8),
    (∀ state, interpret d limits calldata code ≠ .ok ⟨state, some .stepLimit⟩) →
    ∃ n, ∀ m, n ≤ m →
      interpret d { limits with maxSteps := m } calldata code' = interpret d limits calldata code

/-- What imitates the code also does so with equal runs. -/
theorem Block.Imitates.of_eq {d : Dialect} {code code' : Block}
    (h : ∀ limits calldata, interpret d limits calldata code' = interpret d limits calldata code)
    (hmore : code.Imitates d code) : code.Imitates d code' := by
  intro limits calldata hlimit
  rcases hmore limits calldata hlimit with ⟨n, hn⟩
  exact ⟨n, fun m hm => (h _ calldata).trans (hn m hm)⟩

/-- Imitating is transitive. -/
theorem Block.Imitates.trans {d : Dialect} {a b c : Block} (hab : a.Imitates d b)
    (hbc : b.Imitates d c) : a.Imitates d c := by
  intro limits calldata hlimit
  rcases hab limits calldata hlimit with ⟨n, hn⟩
  have hfirst := hn n (Nat.le_refl n)
  rcases hbc { limits with maxSteps := n } calldata (hfirst ▸ hlimit) with ⟨n', hn'⟩
  exact ⟨n', fun m hm => (hn' m hm).trans hfirst⟩

section Programs

variable {d : Dialect} {code code' : Block}

/-- Programs that come to the same end without a budget do so in large ones. -/
theorem Block.Imitates.of_runs (h : ∀ limits calldata,
    Outcome.result (code'.runProgram ⟨d, limits, false⟩ ⟨.initial calldata, 0, []⟩)
        = Outcome.result (code.runProgram ⟨d, limits, false⟩ ⟨.initial calldata, 0, []⟩) ∧
      (Spent (code'.runProgram ⟨d, limits, false⟩ ⟨.initial calldata, 0, []⟩) →
        Spent (code.runProgram ⟨d, limits, false⟩ ⟨.initial calldata, 0, []⟩))) :
    code.Imitates d code' := by
  intro limits calldata hlimit
  simp only [interpret_eq_result] at hlimit ⊢
  have hspent := not_spent_of_result hlimit
  have hfree := (Block.run_unmetered d limits code (Nat.zero_le _) hspent).1
  rcases h limits calldata with ⟨hresult, hspent'⟩
  rw [hfree] at hresult hspent'
  refine ⟨max limits.maxSteps
    (finalState (code'.runProgram ⟨d, limits, false⟩ ⟨.initial calldata, 0, []⟩)).steps,
    fun m hm => ?_⟩
  rw [Block.run_metered d limits code' (fun h => hspent (hspent' h))
    (Nat.le_trans (Nat.le_max_left _ _) hm) (Nat.le_trans (Nat.le_max_right _ _) hm), hresult]

/-- What is moved between scopes in the course of a pass is declared only once afterwards. -/
theorem Block.Becomes.once {L : Licence} {k : Known} (h : code.Becomes L k code') {x : String}
    (hx : code.declared.count x ≤ 1) : code'.declared.count x ≤ 1 :=
  Nat.le_trans (h.count_le Stmt.declaresHere_role) hx

/-- A program and what it becomes have the same results, given enough steps. -/
theorem Block.Becomes.imitates {r : Liberty}
    (h : ∀ limits, code.Becomes
      (.running ⟨d, limits, false⟩ (fun x => code.declared.count x ≤ 1) r) .nothing code')
    (hfits : code.Fits d .empty false) : code.Imitates d code' ∧ code'.Imitates d code := by
  have hmeets := fun limits calldata => Both.result
    ((h limits).run_meets (fun _ hx => (h limits).once hx) hfits (.initial calldata))
  exact ⟨.of_runs fun limits calldata =>
      ⟨(hmeets limits calldata).1, (hmeets limits calldata).2.1.mp⟩,
    .of_runs fun limits calldata =>
      ⟨(hmeets limits calldata).1.symm, (hmeets limits calldata).2.1.mpr⟩⟩

/-- What a program becomes within its budget, if it is to take no more steps. -/
theorem Block.Becomes.interpret_within {limits : Limits}
    (h : code.Becomes (.running ⟨d, limits, false⟩ (fun x => code.declared.count x ≤ 1) .thrifty)
      .nothing code')
    (hfits : code.Fits d .empty false) {calldata : List UInt8}
    (hlimit : ∀ state, interpret d limits calldata code ≠ .ok ⟨state, some .stepLimit⟩) :
    interpret d limits calldata code' = interpret d limits calldata code := by
  rcases Both.result (h.run_meets (fun _ hx => h.once hx) hfits (.initial calldata)) with
    ⟨hresult, hspent', hsteps⟩
  simp only [interpret_eq_result] at hlimit ⊢
  have hspent := not_spent_of_result hlimit
  rcases Block.run_unmetered d limits code (Nat.zero_le _) hspent with ⟨hfree, hwithin⟩
  have hmetered := Block.run_metered d limits code'
    (fun h => hspent (hfree ▸ hspent'.mp h)) (Nat.le_refl _)
    (Nat.le_trans (hsteps (by rintro ⟨⟩)) hwithin)
  rw [hmetered, hresult, hfree]

/-- Code that goes on to do the same may be changed by every step. -/
theorem Licence.running_serves (c : RunContext) {r : Liberty} (hr : r ≠ .exact) (code : Block) :
    (Licence.running c (fun x => code.declared.count x ≤ 1) r).Serves code where
  closed := Licence.running_closed c _ r
  copies := Licence.running_copies c _ r
  simplifies := Licence.running_simplifies c _ r
  constant := Known.constant?_means
  reshapes := hr
  once _ hx := hx

end Programs

/-- Removing control flow whose outcome is known, splicing blocks and moving the initialisation
    of loops in front of them leave a result as it is within the same budget, unless that was
    used up. -/
theorem reshaping_takes_no_steps {d : Dialect} (hd : d.flavour ≠ .loose) {source : String}
    {code : Block} {scopes : Scopes} (hread : Reads d source code)
    (haccept : analyze d code = .ok scopes) (hdistinct : code.declared.Nodup)
    (hstay : code.initsStay = true) (limits : Limits) (calldata : List UInt8)
    (hlimit : ∀ state, interpret d limits calldata code ≠ .ok ⟨state, some .stepLimit⟩) :
    interpret d limits calldata (Pass.simplifyStructure d code)
        = interpret d limits calldata code ∧
      interpret d limits calldata (Pass.flatten code) = interpret d limits calldata code ∧
      interpret d limits calldata (Pass.hoistLoopInit code)
        = interpret d limits calldata code := by
  -- The passes are steps that neither guard a loop nor split a declaration.
  have hfits := analyze_fits hd (hread.readable hd) hstay haccept
  have hserves := Licence.running_serves ⟨d, limits, false⟩ (r := .thrifty) (by rintro ⟨⟩) code
  have hstep : ∀ s : Step, s ≠ .moveLoopCondition → s ≠ .initializeVars →
      interpret d limits calldata (s.run d code) = interpret d limits calldata code :=
    fun s hguards hsplit => (Step.run_becomes hserves s (fun h => absurd h hguards)
      (.inr ⟨hsplit, hdistinct⟩)).interpret_within hfits hlimit
  exact ⟨hstep .simplifyStructure (by decide) (by decide), hstep .flatten (by decide) (by decide),
    hstep .hoistLoopInit (by decide) (by decide)⟩

/-- A program in which all three passes find something to do, with a budget that it uses up to
    the last step. -/
theorem reshaping_takes_no_steps_in_loop :
    ∃ code scopes, parseBlock .strictAssembly
        "{ let x := 0 if x { stop() } { let y := 2 sstore(y, 1) }
          for { let i } lt(i, 2) { i := add(i, 1) } { sstore(i, 1) } }"
          = .ok code ∧
      analyze .strictAssembly code = .ok scopes ∧ code.declared.Nodup ∧ code.initsStay = true ∧
      (∀ state, interpret .strictAssembly ⟨14, 0x100000⟩ [] code
        ≠ .ok ⟨state, some .stepLimit⟩) ∧
      interpret .strictAssembly ⟨14, 0x100000⟩ [] (Pass.simplifyStructure .strictAssembly code)
          = interpret .strictAssembly ⟨14, 0x100000⟩ [] code ∧
        interpret .strictAssembly ⟨14, 0x100000⟩ [] (Pass.flatten code)
          = interpret .strictAssembly ⟨14, 0x100000⟩ [] code ∧
        interpret .strictAssembly ⟨14, 0x100000⟩ [] (Pass.hoistLoopInit code)
          = interpret .strictAssembly ⟨14, 0x100000⟩ [] code := by
  refine exists_of_accepted? (fun code => decide code.declared.Nodup && code.initsStay &&
    ((interpret .strictAssembly ⟨13, 0x100000⟩ [] code).toOption.any fun result =>
      decide (result.termination = some .stepLimit)) &&
    (interpret .strictAssembly ⟨14, 0x100000⟩ [] code).toOption.any fun result =>
      decide (result.termination = none)) (by decide +kernel)
    fun code scopes hread haccept htest => ?_
  simp only [Bool.and_eq_true, decide_eq_true_eq] at htest
  rcases htest with ⟨⟨⟨hdistinct, hstay⟩, -⟩, hresult⟩
  have hlimit : ∀ state, interpret .strictAssembly ⟨14, 0x100000⟩ [] code
      ≠ .ok ⟨state, some .stepLimit⟩ := by
    intro state h
    rcases exists_ok_of_any hresult with ⟨result, hrun, hnone⟩
    -- The shorter budget shows that the limit of steps is near.
    obtain rfl := Except.ok.inj (h.symm.trans hrun)
    exact absurd (of_decide_eq_true hnone) (by rintro ⟨⟩)
  exact ⟨hdistinct, hstay, hlimit, reshaping_takes_no_steps (by decide) (.inl hread) haccept
    hdistinct hstay ⟨14, 0x100000⟩ [] hlimit⟩

end YulToolchain
