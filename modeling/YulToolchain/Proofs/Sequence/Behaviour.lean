import YulToolchain.Proofs.Pass.Budget
import YulToolchain.Proofs.Rename.Exact
import YulToolchain.Proofs.Sequence.Accepted

/-!
# Sequences of Steps Keep What Code Does

What any sequence of steps makes of an accepted program does what the program did.

Making the names unique changes no run. After that each step relies on nothing but that the
code in front of it fits, and leaves code that fits. Names need not be distinct: external names
keep their spelling, so they may be declared at several places, and a pass moves a declaration
to another scope only if it is the only one of its name.

Some steps make code take more steps of a run and some make it take fewer, so the two programs
are compared in budgets that are large enough. The comparison goes both ways: each has all
results that the other has.

## Theorems

* `Step.run_imitates`, `Step.runAll_imitates`: One step, and any sequence of steps.
* `optimized_code_behaves`: What a sequence of steps leaves behaves as the program did.
-/

namespace YulToolchain

section Programs

variable {d : Dialect} {code : Block}

/-- A step leaves code that fits and has the results of the code in front of it. -/
theorem Step.run_imitates (hfits : code.Fits d .empty false) (s : Step) :
    (s.run d code).Fits d .empty false ∧ code.Imitates d (s.run d code) ∧
      (s.run d code).Imitates d code := by
  have hbecomes : ∀ limits, code.Becomes
      (.running ⟨d, limits, false⟩ (fun x => code.declared.count x ≤ 1) .free) .nothing
      (s.run d code) := fun limits =>
    Step.run_becomes (Licence.running_serves ⟨d, limits, false⟩ (by rintro ⟨⟩) code) s
      (fun _ => rfl) (.inl rfl)
  have htwins : Sight.Twins ⟨d, .standard, false⟩ (fun x => code.declared.count x ≤ 1) .free
      .empty .empty (s.run d code).declared := .empty fun _ hx => (hbecomes .standard).once hx
  exact ⟨(hbecomes .standard).fits hfits htwins.toWidens (Known.fits_nothing _ _),
    Block.Becomes.imitates hbecomes hfits⟩

/-- A program has the results that it has within larger budgets, too. -/
theorem Block.imitates_refl (hfits : code.Fits d .empty false) : code.Imitates d code :=
  have h := Step.run_imitates hfits .flatten
  h.2.1.trans h.2.2

/-- So does any sequence of steps. -/
theorem Step.runAll_imitates : ∀ (steps : List Step) {code : Block},
    code.Fits d .empty false → (Step.runAll d steps code).Fits d .empty false ∧
      code.Imitates d (Step.runAll d steps code) ∧ (Step.runAll d steps code).Imitates d code
  | [], code, hfits => ⟨hfits, Block.imitates_refl hfits, Block.imitates_refl hfits⟩
  | s :: rest, code, hfits => by
      rcases Step.run_imitates hfits s with ⟨hfits', hforth, hback⟩
      rcases Step.runAll_imitates rest hfits' with ⟨hfits'', hforth', hback'⟩
      exact ⟨hfits'', hforth.trans hforth', hback'.trans hback⟩

end Programs

/-- A sequence of steps applied to an accepted program leaves a program, and each of the two
    has the results of the other one, given enough steps of a run. -/
theorem optimized_code_behaves {d : Dialect} (hd : d.flavour ≠ .loose) {source : String}
    {code : Block} {ss : Scopes} (hread : Reads d source code) (haccept : analyze d code = .ok ss)
    (hstay : code.initsStay = true) (external : List String) (steps : List Step) :
    ∃ result, optimizeCode d external steps code = .ok result ∧
      code.Imitates d result ∧ result.Imitates d code := by
  have hr := hread.readable hd
  have hfits := analyze_fits hd hr hstay haccept
  rcases makeNamesUnique_runs hd hr haccept hstay external with ⟨unique, hunique, hfits', hruns⟩
  rcases Step.runAll_imitates steps hfits' with ⟨hfits'', hforth, hback⟩
  rcases analyze_of_fits hd hfits'' with ⟨ss', hresult⟩
  have hsame : code.Imitates d unique := .of_eq hruns (Block.imitates_refl hfits)
  have hsame' : unique.Imitates d code :=
    .of_eq (fun limits calldata => (hruns limits calldata).symm) (Block.imitates_refl hfits')
  exact ⟨_, optimizeCode_eq haccept hunique hresult, hsame.trans hforth, hback.trans hsame'⟩

/-- A program with a loop, a recursive function, an external name that is declared twice and
    something to do for every step. -/
theorem optimized_code_behaves_recursive :
    ∃ code ss, parseBlock .strictAssembly
        "{ function f(n) -> r { if n { r := f(sub(n, 1)) } }
          { let a := add(1, 2) let b sstore(a, b) }
          let a for { let i } lt(i, f(3)) { i := add(i, 1) } { if 0 { a := 1 } sstore(i, a) } }"
          = .ok code ∧
      analyze .strictAssembly code = .ok ss ∧ code.initsStay = true ∧
      ∃ result, optimizeCode .strictAssembly ["a"] Step.all code = .ok result ∧
        code.Imitates .strictAssembly result ∧ result.Imitates .strictAssembly code := by
  refine exists_of_accepted? (fun code => code.initsStay) (by decide +kernel)
    fun code ss hread haccept hstay => ?_
  exact ⟨hstay, optimized_code_behaves (by decide) (.inl hread) haccept hstay ["a"] Step.all⟩

end YulToolchain
