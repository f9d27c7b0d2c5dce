import YulToolchain.Proofs.Execution.Derivation
import YulToolchain.Proofs.Execution.Soundness

/-!
# Accepted Programs Do Not Go Wrong

A program that is read and accepted by the analysis comes to an end of its own, or
to one of two faults that no analysis of names could foresee: it touches memory
beyond the limit, or it asks for its own position in the code. This is so for limits
below which all memory can be had.

There is one exception. Statements in the initialisation of a loop may leave a
loop further out as far as the analysis is concerned. The interpreter does not
leave that loop but goes on with the loop whose initialisation it is, and then the
variables that the rest of the initialisation would have declared are missing
(`leaving_from_init_loses_variable`).

## Theorems

* `Block.run_fits`: Code that fits does not go wrong.
* `accepted_never_goes_wrong`: Neither does code that is read and accepted.
* `leaving_from_init_loses_variable`: A program that leaves a loop from an
  initialisation and goes wrong.
-/

namespace YulToolchain

theorem Sight.distinct_empty : Sight.empty.Distinct := List.nodup_nil

/-- A program that fits comes to its end or to an allowed halt. -/
theorem Block.run_fits {c : RunContext} {code : Block} (h : code.Fits c.dialect .empty false)
    (depth : Nat) (machine : MachineState) :
    Ends (code.run c (FunctionDef.call c depth) [] ⟨machine, 0, []⟩)
      (Left .empty false code.assigned ⟨machine, 0, []⟩) :=
  Block.run_sound (FunctionDef.call_sound c depth) Sight.distinct_empty trivial h .nil

/-- A program that is read and accepted has a result, or fails because of memory
    out of range or because it asks for its position, provided that no loop is
    left from an initialisation and that memory can have all the words below its
    limit. -/
theorem accepted_never_goes_wrong {d : Dialect} (hd : d.flavour ≠ .loose) {source : String}
    {code : Block} {scopes : Scopes} (hread : parseBlock d source = .ok code)
    (haccept : analyze d code = .ok scopes) (hstay : code.initsStay = true)
    {limits : Limits} (hfits : limits.MemoryFits) (calldata : List UInt8) :
    (∃ result, interpret d limits calldata code = .ok result) ∨
      (∃ address, interpret d limits calldata code = .error (.outOfRange address)) ∨
      interpret d limits calldata code = .error (.notInterpretable .pc) := by
  -- Accepted code fits, so no name or count is missing.
  have hcode := analyze_fits hd (parseBlock_readable hd hread) hstay haccept
  have hends := Block.run_fits (c := ⟨d, limits, true⟩) hcode limits.maxSteps (.initial calldata)
  have hreported : ∀ why, interpret d limits calldata code = .error why → why.breaksOff = false :=
    fun why => interpret_contained d hfits calldata code
  simp only [interpret] at hreported ⊢
  -- What is left are the faults of the machine.
  cases hr : code.run ⟨d, limits, true⟩ (FunctionDef.call ⟨d, limits, true⟩ limits.maxSteps) []
      ⟨.initial calldata, 0, []⟩ with
  | ok flow s => exact Or.inl ⟨_, rfl⟩
  | error halt s =>
      rw [hr] at hends hreported
      rcases halt with t | fault
      · exact Or.inl ⟨_, rfl⟩
      -- An access out of range or the program counter is reported as such.
      · cases fault with
        | outOfRange address => exact Or.inr (Or.inl ⟨address, rfl⟩)
        | notInterpretable op =>
            obtain rfl : op = .pc := hends
            exact Or.inr (Or.inr rfl)
        -- A memory access that breaks off needs more memory than the limits allow.
        | outsideMemory last size => exact absurd (hreported _ rfl) Bool.noConfusion
        | tooMuchMemory size => exact absurd (hreported _ rfl) Bool.noConfusion
        | _ => exact absurd hends Bool.noConfusion

/-- A recursive function and a loop that is left early. -/
theorem accepted_never_goes_wrong_recursive :
    ∃ code scopes, parseBlock .strictAssembly
        "{ function f(n) -> r { if n { r := f(sub(n, 1)) } }
          for { let i } 1 { i := f(i) } { break } }"
          = .ok code ∧
      analyze .strictAssembly code = .ok scopes ∧ code.initsStay = true ∧
      ((∃ result, interpret .strictAssembly .standard [] code = .ok result) ∨
        (∃ address, interpret .strictAssembly .standard [] code = .error (.outOfRange address)) ∨
        interpret .strictAssembly .standard [] code = .error (.notInterpretable .pc)) := by
  refine exists_of_accepted? Block.initsStay (by decide +kernel)
    fun code scopes hread haccept hstay => ⟨hstay, ?_⟩
  exact accepted_never_goes_wrong (by decide) hread haccept hstay (by decide) []

/-- The analysis accepts a `break` in an initialisation if there is a loop further
    out, but the loop goes on without the variable behind it. -/
theorem leaving_from_init_loses_variable :
    ∃ code scopes, parseBlock .strictAssembly
        "{ for {} 1 {} { for { break let x := 1 } x {} {} } }" = .ok code ∧
      analyze .strictAssembly code = .ok scopes ∧
      interpret .strictAssembly ⟨100, 0x100000⟩ [] code = .error (.unknownVariable "x" 1) := by
  exact exists_of_accepted? (fun code =>
    decide ((interpret .strictAssembly ⟨100, 0x100000⟩ [] code).map (fun _ => ())
      = .error (.unknownVariable "x" 1))) (by decide +kernel)
    fun code _ _ _ htest => eq_error_of_map (of_decide_eq_true htest)

end YulToolchain
