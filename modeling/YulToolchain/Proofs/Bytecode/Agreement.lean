import YulToolchain.Proofs.Assembly.Jumps
import YulToolchain.Proofs.Bytecode.Confinement
import YulToolchain.Proofs.Bytecode.Lowering
import YulToolchain.Proofs.Bytecode.Runs
import YulToolchain.Proofs.Static.Analyzed

/-!
# Programs on the Stack Machine

The code of a program does what the interpreter does with the program.

What an object is assembled to is its own code with the bytes of its attachments behind it,
and nothing in between. The machine gets out of the own code only by running to its end. There
it stops if nothing is attached. If something is, the machine goes on with that
(`attached_byte_is_executed`), so a program that has attachments must end itself.

The two sides can only be compared if both have an answer. Where the builtins of a dialect have
nothing but an effect on the stack, the interpreter leaves out the arguments of builtins, and
with them calls that may never return (`skipped_call_runs_forever`).

## Main definitions

* `Object.Owns`: Bytes are the own code of an object.
* `Bytecode.Ending.Meets`: The machine ends as the interpreter does.

## Theorems

* `assemble_owns`: What an object is assembled to.
* `Object.Owns.mirrored`: The own code of an object does what its program does.
* `code_runs_as_interpreted`: So does the code of a bare program.
* `own_code_is_not_left`: Own code is left at its end only.
-/

namespace YulToolchain

open Bytecode

/-- Bytes are the own code of an object, whatever stands behind them. -/
structure Object.Owns (d : Dialect) (o : Object) (asm : Assembly) (own : List UInt8) : Prop where
  compiled : o.compile d false Target.fresh = .ok asm
  length : own.length = Item.sizeAll asm.items.toList
  coded : o.code.Coded d .empty asm.items.toList
  loaded : ∀ rest, Loaded asm.items.toList (own ++ rest)

/-- The machine ends as the interpreter does: off the end of the code with nothing on the stack
    if the program comes to its end, and with the same termination or fault otherwise. -/
def Bytecode.Ending.Meets (ending : Ending) (r : Except RunFault RunResult) : Prop :=
  match ending with
  | .off stack state => stack = [] ∧ r = .ok ⟨state, none⟩
  | .halted (.ended t) state => r = .ok ⟨state, some t⟩
  | .halted (.failed why) _ => r = .error why
  | .stuck => False

section Objects

variable {d : Dialect} {o : Object} {limits : Limits} {calldata own : List UInt8} {asm : Assembly}

/-- What is attached to the assembly of an object are the bytes of its attachments. -/
theorem Object.assembles_of_compile (hcompile : o.compile d false Target.fresh = .ok asm)
    {parts : List (List UInt8)} (hparts : Attached.finishAll asm.attachments = .ok parts) :
    List.Forall₂ (Attachment.Assembles d) o.attachments parts := by
  rcases Object.compile_attaches hcompile with ⟨attached, before, scopes, hattached, -, hcode⟩
  rcases Attachment.compileSeq_attaches hattached with ⟨subs, rfl, hsubs, -⟩
  rcases generate_grows hcode with ⟨t, -, rfl, -, hgrows⟩
  rw [hgrows.attachments] at hparts
  exact Attachment.assembles_of_finishAll hsubs hparts

/-- An object is assembled to its own code with the bytes of its attachments behind it. -/
theorem assemble_owns (hd : d.flavour ≠ .loose)
    (hread : ∀ code ∈ o.codes, ∃ source, Reads d source code) {code : List UInt8}
    (h : assemble d o = .ok code) :
    ∃ asm own parts, o.Owns d asm own ∧ code = own ++ parts.flatten ∧
      List.Forall₂ (Attachment.Assembles d) o.attachments parts := by
  have hreadable : ∀ code ∈ o.codes, code.Readable := by
    intro code hcode
    rcases hread code hcode with ⟨source, hsource⟩
    exact hsource.readable hd
  rcases bind_eq_ok h with ⟨asm, hcompile, hfinish⟩
  have hcompile := within_eq_ok.mp hcompile
  have hclosed := Object.compile_closed hd hreadable hcompile
  rcases hclosed.loaded (within_eq_ok.mp hfinish) with
    ⟨own, parts, hparts, hsplit, hlength, hloaded⟩
  have hcoded := Object.compile_coded hd (hreadable o.code o.code_mem_codes) hcompile
  exact ⟨asm, own, parts, ⟨hcompile, hlength, hcoded, hloaded⟩, hsplit,
    Object.assembles_of_compile hcompile hparts⟩

/-- The own code of an object is left at its end only. -/
theorem Object.Owns.confined (h : o.Owns d asm own) (limits : Limits) (calldata rest : List UInt8) :
    Confined limits (own ++ rest) own.length (start calldata) := by
  rw [h.length]
  exact h.coded.confined (h.loaded rest) calldata

/-- The own code of an object does what its program does. -/
theorem Object.Owns.mirrored (h : o.Owns d asm own) (hfits : o.code.Fits d .empty false)
    (hcomparable : o.code.comparable d = true) (limits : Limits) (calldata rest : List UInt8) :
    Mirrors limits (own ++ rest) own.length (start calldata)
      (o.code.run ⟨d, limits, true⟩ (FunctionDef.call ⟨d, limits, true⟩ limits.maxSteps) []
        ⟨.initial calldata, 0, []⟩) fun _ t c => c = ⟨own.length, [], t.machine⟩ := by
  rw [h.length]
  exact Block.Coded.mirrored ⟨d, limits, true⟩ (h.loaded rest) h.coded hcomparable hfits
    limits.maxSteps (.initial calldata)

/-- With nothing behind its code the machine ends as the interpreter does. -/
theorem Mirrors.meets {program : Block} {code : List UInt8}
    (h : Mirrors limits code code.length (start calldata)
      (program.run ⟨d, limits, true⟩ (FunctionDef.call ⟨d, limits, true⟩ limits.maxSteps) []
        ⟨.initial calldata, 0, []⟩) fun _ t c => c = ⟨code.length, [], t.machine⟩)
    (hlimit : ∀ state, interpret d limits calldata program ≠ .ok ⟨state, some .stepLimit⟩) :
    ∃ fuel ending, Bytecode.run limits code fuel (start calldata) = some ending ∧
      ending.Meets (interpret d limits calldata program) := by
  simp only [interpret] at hlimit ⊢
  -- Either the interpreter gets through, or a halt ends both runs.
  cases hr : program.run ⟨d, limits, true⟩ (FunctionDef.call ⟨d, limits, true⟩ limits.maxSteps) []
      ⟨.initial calldata, 0, []⟩ with
  | ok flow s =>
      rw [hr] at h
      rcases h with ⟨_, hwalk, rfl⟩
      -- At the end of the code there is nothing to fetch.
      have hoff : Bytecode.run limits code 1 ⟨code.length, [], s.machine⟩
          = some (.off [] s.machine) := by
        simp only [Bytecode.run, step, fetch, List.drop_length]
      rcases hwalk.run hoff with ⟨fuel, hrun⟩
      exact ⟨fuel, _, hrun, rfl, rfl⟩
  | error halt s =>
      rw [hr] at h hlimit
      rcases h with rfl | ⟨c, hwalk, -, hstep⟩
      -- The step limit is the one halt without a counterpart, and it is excluded.
      · exact absurd rfl (hlimit s.machine)
      · have hhalted : Bytecode.run limits code 1 c = some (.halted halt s.machine) := by
          rw [Bytecode.run, hstep]
        rcases hwalk.run hhalted with ⟨fuel, hrun⟩
        refine ⟨fuel, _, hrun, ?_⟩
        -- Failures may be any, so only what was ended remains to be compared.
        cases halt with
        | ended t => rfl
        | failed why => rfl

/-- A program that is comparable and in which no initialisation leaves a loop runs on the stack
    machine as it does in the interpreter, unless the interpreter runs out of steps. -/
theorem code_runs_as_interpreted (hd : d.flavour ≠ .loose) {source : String} {program : Block}
    (hread : Reads d source program) (hstay : program.initsStay = true)
    (hcomparable : program.comparable d = true) {code : List UInt8}
    (hassemble : assemble d (.ofCode program) = .ok code) (limits : Limits) (calldata : List UInt8)
    (hlimit : ∀ state, interpret d limits calldata program ≠ .ok ⟨state, some .stepLimit⟩) :
    ∃ fuel ending, Bytecode.run limits code fuel (start calldata) = some ending ∧
      ending.Meets (interpret d limits calldata program) := by
  have hcodes : ∀ code ∈ (Object.ofCode program).codes, ∃ source, Reads d source code := by
    intro code hcode
    obtain rfl : code = program := by
      simpa only [Object.ofCode, Object.codes, Attachment.codesSeq, List.mem_singleton] using hcode
    exact ⟨source, hread⟩
  rcases assemble_owns hd hcodes hassemble with ⟨asm, own, parts, howns, rfl, hparts⟩
  -- Nothing is attached.
  obtain rfl : parts = [] := by
    cases hparts
    rfl
  rcases Object.compile_attaches howns.compiled with ⟨_, _, scopes, _, haccept, _⟩
  have hfits := analyze_fits hd (hread.readable hd) hstay haccept
  have hmirrors := howns.mirrored hfits hcomparable limits calldata []
  rw [List.append_nil] at hmirrors
  rw [List.flatten_nil, List.append_nil]
  exact hmirrors.meets hlimit

end Objects

/-- A source whose program is assembled and passes a test with its code, from which something
    follows. -/
theorem exists_of_code? {d : Dialect} {source : String} {P : Block → List UInt8 → Prop}
    (test : Block → List UInt8 → Bool)
    (h : ((Block.ofTokens d (tokensOfBytes source)).toOption.any fun program =>
      (assemble d (.ofCode program)).toOption.any (test program)) = true)
    (hP : ∀ program code, parseBlock d source = .ok program →
      assemble d (.ofCode program) = .ok code → test program code = true → P program code) :
    ∃ program code, parseBlock d source = .ok program ∧
      assemble d (.ofCode program) = .ok code ∧ P program code := by
  have hcode : ∀ program, parseBlock d source = .ok program →
      (assemble d (.ofCode program)).toOption.any (test program) = true →
      ∃ code, assemble d (.ofCode program) = .ok code ∧ P program code := by
    intro program hread htest
    rcases exists_ok_of_any htest with ⟨code, hassemble, htest⟩
    exact ⟨code, hassemble, hP program code hread hassemble htest⟩
  rcases exists_of_block? _ h hcode with ⟨program, hread, code, hassemble, hcode⟩
  exact ⟨program, code, hread, hassemble, hcode⟩

/-- A function with a loop that is left, and a switch over its result in which the program ends
    itself. -/
theorem code_runs_as_interpreted_until_return :
    ∃ program code, parseBlock .strictAssembly
        ("\x7b let x x := f(2) switch x case 0 \x7b\x7d default \x7b return(0, x) \x7d " ++
          "function f(n) -> r \x7b for \x7b\x7d 1 \x7b n := sub(n, 1) \x7d " ++
          "\x7b if iszero(n) \x7b break \x7d r := n \x7d \x7d \x7d") = .ok program ∧
      assemble .strictAssembly (.ofCode program) = .ok code ∧ program.initsStay = true ∧
      program.comparable .strictAssembly = true ∧
      (∀ state, interpret .strictAssembly .standard [] program ≠ .ok ⟨state, some .stepLimit⟩) ∧
      ∃ fuel ending, Bytecode.run .standard code fuel (start []) = some ending ∧
        ending.Meets (interpret .strictAssembly .standard [] program) := by
  -- The program is read, assembled and run by evaluation.
  refine exists_of_code? (fun program _ =>
    program.initsStay && program.comparable .strictAssembly &&
    (interpret .strictAssembly .standard [] program).toOption.all fun result =>
      decide (result.termination ≠ some .stepLimit)) (by decide +kernel)
    fun program code hread hassemble htest => ?_
  rw [Bool.and_eq_true, Bool.and_eq_true] at htest
  rcases htest with ⟨⟨hstay, hcomparable⟩, hresult⟩
  have hlimit : ∀ state,
      interpret .strictAssembly .standard [] program ≠ .ok ⟨state, some .stepLimit⟩ := by
    intro state hc
    rw [hc] at hresult
    have hne : decide (some Termination.stepLimit ≠ some .stepLimit) = true := hresult
    exact of_decide_eq_true hne rfl
  exact ⟨hstay, hcomparable, hlimit, code_runs_as_interpreted (by decide) (.inl hread) hstay
    hcomparable hassemble .standard [] hlimit⟩

/-- In a dialect whose builtins have nothing but an effect on the stack, a call in an argument is
    left out by the interpreter. The machine does not come back from it. -/
theorem skipped_call_runs_forever :
    ∃ program code, parseBlock (.machine (MachineDialect.noOutput ⟨.strict, true, false⟩))
        "\x7b function f() -> r \x7b for \x7b\x7d 1 \x7b\x7d \x7b\x7d \x7d pop(f()) \x7d"
          = .ok program ∧
      assemble (.machine (MachineDialect.noOutput ⟨.strict, true, false⟩)) (.ofCode program)
        = .ok code ∧ program.initsStay = true ∧
      program.comparable (.machine ⟨.strict, true, false⟩) = true ∧
      (∃ result, interpret (.machine (MachineDialect.noOutput ⟨.strict, true, false⟩)) ⟨100, 100⟩ []
        program = .ok result ∧ result.termination = none) ∧
      ∀ fuel, Bytecode.run ⟨100, 100⟩ code fuel (start []) = none := by
  -- The code runs in a circle: eight steps lead back to a configuration.
  refine exists_of_code? (fun program code => program.initsStay &&
      program.comparable (.machine ⟨.strict, true, false⟩) &&
      ((interpret (.machine (MachineDialect.noOutput ⟨.strict, true, false⟩)) ⟨100, 100⟩ []
        program).toOption.any fun result => decide (result.termination = none)) &&
      (after ⟨100, 100⟩ code 8 (start [])).any fun c =>
        decide (after ⟨100, 100⟩ code 8 c = some c)) (by decide +kernel)
    fun program code _ _ htest => ?_
  simp only [Bool.and_eq_true] at htest
  rcases htest with ⟨⟨⟨hstay, hcomparable⟩, hresult⟩, hcycle⟩
  rcases exists_ok_of_any hresult with ⟨result, hrun, hnone⟩
  rcases exists_some_of_any hcycle with ⟨c, hc, hcycle⟩
  refine ⟨hstay, hcomparable, ⟨result, hrun, of_decide_eq_true hnone⟩, fun fuel => ?_⟩
  -- A circle never ends, and neither do the steps that lead into it.
  have hnever := run_eq_none_of_cycle (by decide) (of_decide_eq_true hcycle)
  rcases Nat.le_total fuel 8 with hle | hle
  · exact run_eq_none_of_after hc hle
  · rw [← Nat.add_sub_cancel' hle, run_add_of_after _ hc]
    exact hnever (fuel - 8)

section Confinement

variable {d : Dialect} {o : Object}

/-- The machine executes nothing but the own code of an object before it comes to the end of
    that, which it does with nothing on the stack. It comes there if the program comes to its end,
    provided that the program is comparable and no initialisation leaves a loop. -/
theorem own_code_is_not_left (hd : d.flavour ≠ .loose)
    (hread : ∀ code ∈ o.codes, ∃ source, Reads d source code) {code : List UInt8}
    (hassemble : assemble d o = .ok code) :
    ∃ (asm : Assembly) (own : List UInt8) (parts : List (List UInt8)),
      o.compile d false Target.fresh = .ok asm ∧ own.length = Item.sizeAll asm.items.toList ∧
      code = own ++ parts.flatten ∧
      List.Forall₂ (Attachment.Assembles d) o.attachments parts ∧
      ∀ limits calldata rest, Confined limits (own ++ rest) own.length (start calldata) ∧
        (o.code.initsStay = true → o.code.comparable d = true →
          ∀ state, interpret d limits calldata o.code = .ok ⟨state, none⟩ →
            Walks limits (own ++ rest) own.length (start calldata) ⟨own.length, [], state⟩) := by
  rcases assemble_owns hd hread hassemble with ⟨asm, own, parts, howns, hsplit, hparts⟩
  refine ⟨asm, own, parts, howns.compiled, howns.length, hsplit, hparts,
    fun limits calldata rest => ⟨howns.confined limits calldata rest, ?_⟩⟩
  intro hstay hcomparable state hresult
  rcases Object.compile_attaches howns.compiled with ⟨_, _, scopes, _, haccept, _⟩
  rcases hread o.code o.code_mem_codes with ⟨source, hsource⟩
  have hfits := analyze_fits hd (hsource.readable hd) hstay haccept
  -- The run of the interpreter is mirrored, whatever is behind the own code.
  have hmirrors := howns.mirrored hfits hcomparable limits calldata rest
  simp only [interpret] at hresult
  -- Only a run that gets through has no termination.
  split at hresult
  · rename_i flow s hrun
    obtain rfl : s.machine = state := (RunResult.mk.inj (Except.ok.inj hresult)).1
    rw [hrun] at hmirrors
    rcases hmirrors with ⟨c, hwalk, rfl⟩
    exact hwalk
  · exact absurd (RunResult.mk.inj (Except.ok.inj hresult)).2 (by rintro ⟨⟩)
  · exact absurd hresult (by rintro ⟨⟩)

end Confinement

/-- A program that calls a function and comes to its end, with an object and the byte of a label
    attached. -/
theorem own_code_is_not_left_with_attachments :
    ∃ o code, parseObject .strictAssemblyForObjects
        ("object \"a\" \x7b code \x7b if f(1) \x7b sstore(0, 1) \x7d " ++
          "function f(x) -> r \x7b r := x \x7d \x7d " ++
          "object \"b\" \x7b code \x7b stop() \x7d \x7d data \"c\" hex\"5bfe\" \x7d")
          = .ok o ∧
      assemble .strictAssemblyForObjects o = .ok code ∧
      ∃ (asm : Assembly) (own : List UInt8) (parts : List (List UInt8)),
        o.compile .strictAssemblyForObjects false Target.fresh = .ok asm ∧
        own.length = Item.sizeAll asm.items.toList ∧ code = own ++ parts.flatten ∧
        (∀ limits calldata rest, Confined limits (own ++ rest) own.length (start calldata)) ∧
        ∃ state, interpret .strictAssemblyForObjects .standard [] o.code = .ok ⟨state, none⟩ ∧
          ∀ rest, Walks .standard (own ++ rest) own.length (start []) ⟨own.length, [], state⟩ := by
  -- The attached bytes would stop the run, were they reached.
  refine exists_of_assembled? (fun o => o.code.initsStay &&
    o.code.comparable .strictAssemblyForObjects &&
    (interpret .strictAssemblyForObjects .standard [] o.code).toOption.any fun result =>
      decide (result.termination = none)) (by decide +kernel)
    fun o code hread hassemble htest => ?_
  rw [Bool.and_eq_true, Bool.and_eq_true] at htest
  rcases htest with ⟨⟨hstay, hcomparable⟩, hresult⟩
  -- The general theorem holds behind any rest.
  rcases own_code_is_not_left (by decide) (fun code hcode => ⟨_, .inr ⟨o, hread, hcode⟩⟩) hassemble
    with ⟨asm, own, parts, hcompile, hlength, hsplit, -, hall⟩
  refine ⟨asm, own, parts, hcompile, hlength, hsplit,
    fun limits calldata rest => (hall limits calldata rest).1, ?_⟩
  rcases exists_ok_of_any hresult with ⟨⟨state, termination⟩, hrun, hnone⟩
  obtain rfl : termination = none := of_decide_eq_true hnone
  exact ⟨state, hrun, fun rest => (hall .standard [] rest).2 hstay hcomparable state hrun⟩

/-- The program comes to its end, and the machine goes on with the byte that is attached. -/
theorem attached_byte_is_executed :
    ∃ o code, parseObject .strictAssemblyForObjects
        "object \"a\" \x7b code \x7b sstore(0, 1) \x7d data \"d\" hex\"fe\" \x7d" = .ok o ∧
      assemble .strictAssemblyForObjects o = .ok code ∧
      (∃ state, interpret .strictAssemblyForObjects .standard [] o.code = .ok ⟨state, none⟩) ∧
      ∃ (asm : Assembly) (c : Config) (state : MachineState),
        o.compile .strictAssemblyForObjects false Target.fresh = .ok asm ∧
        after .standard code 3 (start []) = some c ∧ c.pc = Item.sizeAll asm.items.toList ∧
        step .standard code c = .halted (.ended .invalid) state := by
  -- After three steps the run is at the end of the own code.
  refine exists_of_assembled? (fun o =>
    ((interpret .strictAssemblyForObjects .standard [] o.code).toOption.any fun result =>
      decide (result.termination = none)) &&
    (assemble .strictAssemblyForObjects o).toOption.any fun code =>
      (o.compile .strictAssemblyForObjects false (Target.fresh : Assembly)).toOption.any fun asm =>
        (after .standard code 3 (start [])).any fun c =>
          decide (c.pc = Item.sizeAll asm.items.toList) &&
          match step .standard code c with
          | .halted (.ended .invalid) _ => true
          | _ => false) (by decide +kernel) fun o code _ hassemble htest => ?_
  rw [Bool.and_eq_true] at htest
  rcases exists_ok_of_any htest.1 with ⟨⟨state, termination⟩, hresult, hnone⟩
  obtain rfl : termination = none := of_decide_eq_true hnone
  rcases exists_ok_of_any htest.2 with ⟨code', hassemble', htest⟩
  obtain rfl := Except.ok.inj (hassemble.symm.trans hassemble')
  rcases exists_ok_of_any htest with ⟨asm, hcompile, htest⟩
  rcases exists_some_of_any htest with ⟨c, hc, htest⟩
  rw [Bool.and_eq_true, decide_eq_true_eq] at htest
  rcases htest with ⟨hpc, hstep⟩
  -- The byte there is the one that stops.
  split at hstep
  · rename_i state' hhalt
    exact ⟨⟨state, hresult⟩, asm, c, state', hcompile, hc, hpc, hhalt⟩
  · exact absurd hstep Bool.noConfusion

end YulToolchain
