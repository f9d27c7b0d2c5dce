import YulToolchain.Proofs.Pass.Exact
import YulToolchain.Proofs.Pass.Steps
import YulToolchain.Proofs.Static.Analyzed
import YulToolchain.Proofs.Static.Readable

/-!
# Copied and Reused Values

The two passes that trade variables for values are exact.

Rematerialising puts the value that a variable is known to hold in place of the variable,
and reusing puts a variable in place of a value that it is known to hold. Where the known
values hold, neither can be told from the code it started from: known values are movable, so
evaluating them changes nothing and can not fail, and reading a variable neither. No
statement is touched, so programs take the same steps.

Values are compared up to lines and the spelling of numbers. Lines show in failures only,
so two expressions that are the same have the same results wherever one of them has a
result.

## Theorems

* `Expr.run_same`: Expressions that are the same have the same results.
* `Licence.running_copies`: Variables may be traded for their values in code that runs.
* `copying_passes_exact`: The two passes leave the result of every run as it is.
-/

namespace YulToolchain

/-- Literals that are the same have the same value. -/
theorem Literal.value_same {a b : Literal} (h : a.same b = true) : a.value = b.value := by
  rw [Literal.same, Bool.and_eq_true, Bool.and_eq_true] at h
  rcases h with ⟨⟨hkind, _⟩, htext⟩
  have hkind : a.kind = b.kind := beq_iff_eq.mp hkind
  have hvalue : a.text = b.text → a.value = b.value := by
    intro h
    simp only [Literal.value, Literal.stringBytes, hkind, h]
  split at htext
  · rename_i x y _ hx hy
    rw [hx, hy, beq_iff_eq.mp htext]
  · exact hvalue (beq_iff_eq.mp htext)

theorem Literal.stringBytes_same {a b : Literal} (h : a.same b = true)
    (hkind : a.kind = .string) : a.stringBytes = b.stringBytes := by
  rw [Literal.same, Bool.and_eq_true, hkind] at h
  rw [Literal.stringBytes, Literal.stringBytes, beq_iff_eq.mp h.2]

/-- Expressions that are the same have the same number of values. -/
theorem Expr.Yields.same {d : Dialect} {v : Sight} {n m : Nat} : ∀ {e e' : Expr},
    e.same e' = true → e.Yields d v n → e'.Yields d v m → n = m
  | .literal _, .literal _, _, h, h' => by
      rw [Expr.Yields] at h h'
      exact h.2.trans h'.2.symm
  | .ident _ _, .ident _ _, _, h, h' => by
      rw [Expr.Yields] at h h'
      exact h.2.trans h'.2.symm
  | .instr _ op _, .instr _ op' _, hsame, h, h' => by
      rw [Expr.same, Bool.and_eq_true] at hsame
      obtain rfl : op = op' := eq_of_beq hsame.1
      rw [Expr.Yields] at h h'
      exact h.2.2.1.trans h'.2.2.1.symm
  | .call _ name _, .call _ name' _, hsame, h, h' => by
      rw [Expr.same, Bool.and_eq_true] at hsame
      obtain rfl : name = name' := eq_of_beq hsame.1
      simp only [Expr.Yields] at h h'
      cases hb : d.builtin? name with
      | some b =>
          simp only [hb] at h h'
          exact h.2.1.trans h'.2.1.symm
      | none =>
          simp only [hb] at h h'
          -- Both calls find the same function.
          rcases h with ⟨f, hf, _, hn, _⟩
          rcases h' with ⟨f', hf', _, hm, _⟩
          obtain rfl := Option.some.inj (hf.symm.trans hf')
          exact hn.trans hm.symm

section Same

open Run

variable {c : RunContext} {call : Caller} {fs : FunctionScopes}

/-- A computation that succeeds, taken apart. -/
theorem Run.bind_eq_ok {α β : Type} {m : Run α} {f : α → Run β} {s u : RunState} {b : β}
    (h : (m >>= f) s = .ok b u) : ∃ a t, m s = .ok a t ∧ f a t = .ok b u := by
  simp only [Bind.bind, EStateM.bind] at h
  cases hm : m s with
  | ok a t =>
      rw [hm] at h
      exact ⟨a, t, rfl, h⟩
  | error halt t =>
      rw [hm] at h
      exact absurd h (by rintro ⟨⟩)

theorem Run.bind_ok {α β : Type} {m : Run α} {f : α → Run β} {s t u : RunState} {a : α} {b : β}
    (hm : m s = .ok a t) (hf : f a t = .ok b u) : (m >>= f) s = .ok b u := by
  simp only [Bind.bind, EStateM.bind, hm]
  exact hf

/-- The line of a message does not matter for a success. -/
theorem Run.single_eq_ok {line line' : Nat} {values : List Word} {w : Word} {s t : RunState}
    (h : single line values s = .ok w t) : single line' values s = .ok w t := by
  match values with
  | [_] => exact h
  | [] => exact absurd h (by rintro ⟨⟩)
  | _ :: _ :: _ => exact absurd h (by rintro ⟨⟩)

/-- A question about an object has the same answer for the same text. -/
theorem Run.objectQuery_same {function : String} {line line' : Nat} {ws : List Word}
    {s t : RunState} : ∀ {es es' : List Expr}, Expr.sameArgs es es' = true →
      (∀ e ∈ es, e.Textual) → objectQuery line function es s = .ok ws t →
        objectQuery line' function es' s = .ok ws t
  | [.literal a], [.literal b], hsame, htext, h => by
      -- The argument is a text, so that its bytes decide.
      rw [Expr.sameArgs, Bool.and_eq_true, Expr.same] at hsame
      have hkind : a.kind = .string := (htext _ List.mem_cons_self).1
      have hbytes := Literal.stringBytes_same hsame.1 hkind
      rw [objectQuery] at h ⊢
      rw [← hbytes]
      exact h
  | [.literal _], [.ident _ _], hsame, _, _ => absurd hsame Bool.noConfusion
  | [.literal _], [.instr _ _ _], hsame, _, _ => absurd hsame Bool.noConfusion
  | [.literal _], [.call _ _ _], hsame, _, _ => absurd hsame Bool.noConfusion
  | [.literal _], [], hsame, _, _ => absurd hsame Bool.noConfusion
  | [.literal _], e :: _ :: _, hsame, _, _ => by
      rw [Expr.sameArgs, Bool.and_eq_true] at hsame
      exact absurd hsame.2 Bool.noConfusion
  | [], _, _, _, h => absurd h (by rintro ⟨⟩)
  | .ident _ _ :: _, _, _, htext, _ => False.elim (htext _ List.mem_cons_self)
  | .instr _ _ _ :: _, _, _, htext, _ => False.elim (htext _ List.mem_cons_self)
  | .call _ _ _ :: _, _, _, htext, _ => False.elim (htext _ List.mem_cons_self)
  | .literal _ :: _ :: _, _, _, _, h => absurd h (by rintro ⟨⟩)

mutual

/-- If an expression has values, expressions that are the same have the same ones. -/
theorem Expr.run_same {v : Sight} {n : Nat} : ∀ {e e' : Expr} {s t : RunState} {ws : List Word},
    e.same e' = true → e.Yields c.dialect v n → e.run c call fs s = .ok ws t →
      e'.run c call fs s = .ok ws t
  | .literal a, .literal b, s, t, ws, hsame, _, h => by
      rw [Expr.same] at hsame
      rw [Expr.run] at h ⊢
      rw [Run.literal] at h ⊢
      rw [← Literal.value_same hsame]
      exact h
  | .ident _ x, .ident line x', s, t, ws, hsame, _, h => by
      obtain rfl : x = x' := eq_of_beq hsame
      rw [Expr.run] at h
      rcases Run.bind_eq_ok h with ⟨w, u, hw, hlast⟩
      rw [variableValue] at hw
      rcases Run.bind_eq_ok hw with ⟨s', _, hget, hw⟩
      obtain ⟨rfl, rfl⟩ := EStateM.Result.ok.inj hget
      -- A variable without a value would not have evaluated.
      cases hx : s.env.get? x with
      | none =>
          simp only [hx] at hw
          exact absurd hw (by rintro ⟨⟩)
      | some w' =>
          simp only [hx] at hw
          obtain ⟨rfl, rfl⟩ := EStateM.Result.ok.inj hw
          exact (Expr.run_ident hx).trans hlast
  | .instr _ op args, .instr _ op' args', s, t, ws, hsame, hyields, h => by
      rw [Expr.same, Bool.and_eq_true] at hsame
      obtain rfl : op = op' := eq_of_beq hsame.1
      rw [Expr.Yields] at hyields
      rw [Expr.run] at h ⊢
      rcases Run.bind_eq_ok h with ⟨values, u, hvalues, hlast⟩
      exact Run.bind_ok (Expr.runArgs_same hsame.2 hyields.2.2.2 hvalues) hlast
  | .call _ name args, .call _ name' args', s, t, ws, hsame, hyields, h => by
      rw [Expr.same, Bool.and_eq_true] at hsame
      obtain rfl : name = name' := eq_of_beq hsame.1
      simp only [Expr.Yields] at hyields
      rw [Expr.run] at h ⊢
      cases hb : c.dialect.builtin? name with
      | none =>
          simp only [hb] at h hyields ⊢
          rcases hyields with ⟨_, _, _, _, hargs⟩
          cases hf : fs.find? name with
          | none =>
              simp only [hf] at h
              exact absurd h (by rintro ⟨⟩)
          | some f =>
              simp only [hf] at h ⊢
              rcases Run.bind_eq_ok h with ⟨values, u, hvalues, hlast⟩
              refine Run.bind_ok (Expr.runArgs_same hsame.2 hargs hvalues) ?_
              by_cases hlength : values.length = f.params.length
              · rw [if_pos hlength] at hlast ⊢
                exact hlast
              · rw [if_neg hlength] at hlast
                exact absurd hlast (by rintro ⟨⟩)
      | some b =>
          simp only [hb] at h hyields ⊢
          rcases hyields with ⟨_, _, hargs⟩
          -- A builtin is an instruction, a question about an object, or has no code.
          rcases Dialect.builtin?_cases hb with ⟨b', hproper, rfl | rfl⟩
          · rcases hproper with ⟨op, _, rfl⟩ | rfl | rfl | rfl
            · rcases Run.bind_eq_ok h with ⟨values, u, hvalues, hlast⟩
              exact Run.bind_ok (Expr.runArgs_same hsame.2 hargs hvalues) hlast
            · exact Run.objectQuery_same hsame.2 hargs h
            · exact Run.objectQuery_same hsame.2 hargs h
            · rcases Run.bind_eq_ok h with ⟨values, u, hvalues, hlast⟩
              exact Run.bind_ok (Expr.runArgs_same hsame.2 hargs hvalues) hlast
          · exact h

/-- Arguments that are the same have the same values. -/
theorem Expr.runArgs_same {v : Sight} : ∀ {es es' : List Expr} {s t : RunState}
    {ws : List Word}, Expr.sameArgs es es' = true → Expr.YieldOnes c.dialect v es →
      Expr.runArgs c call fs es s = .ok ws t → Expr.runArgs c call fs es' s = .ok ws t
  | [], [], _, _, _, _, _, h => h
  | [], _ :: _, _, _, _, hsame, _, _ => absurd hsame Bool.noConfusion
  | _ :: _, [], _, _, _, hsame, _, _ => absurd hsame Bool.noConfusion
  | e :: rest, e' :: rest', s, t, ws, hsame, hyields, h => by
      rw [Expr.sameArgs, Bool.and_eq_true] at hsame
      rw [Expr.YieldOnes] at hyields
      rw [Expr.runArgs] at h ⊢
      rcases Run.bind_eq_ok h with ⟨values, u, hrest, h⟩
      rcases Run.bind_eq_ok h with ⟨ones, u', hones, h⟩
      rcases Run.bind_eq_ok h with ⟨w, u'', hw, hlast⟩
      exact Run.bind_ok (Expr.runArgs_same hsame.2 hyields.2 hrest)
        (Run.bind_ok (Expr.run_same hsame.1 hyields.1 hones)
          (Run.bind_ok (Run.single_eq_ok hw) hlast))

end

end Same

section Replacements

variable {c : RunContext} {k : Known}

/-- A variable may stand for its value, and for everything that is the same as its value. -/
theorem Expr.Becomes.held {e value : Expr} {line : Nat} {x : String}
    (hx : (x, value) ∈ k.entries) (hsame : value.same e = true) :
    e.Becomes c k (.ident line x) := by
  refine ⟨fun hk hyields => ?_, fun hcall hv hfit hyields henv hk => ?_⟩
  · rcases hk x value hx with ⟨_, hvalue, hvisible⟩
    obtain rfl := Expr.Yields.same hsame hvalue hyields
    rw [Expr.Yields]
    exact ⟨hvisible, rfl⟩
  · have hhas := hk x value hx
    rcases hhas.equal with ⟨w, hw, hrun⟩
    rw [Expr.run_ident hw, Expr.run_same hsame hhas.yields (hrun _ _)]

/-- A value may stand for the variable that holds it. -/
theorem Expr.Becomes.copied {value : Expr} {line : Nat} {x : String}
    (hx : (x, value) ∈ k.entries) : (Expr.ident line x).Becomes c k value := by
  refine ⟨fun hk hyields => ?_, fun hcall hv hfit hyields henv hk => ?_⟩
  · rw [Expr.Yields] at hyields
    rw [hyields.2]
    exact (hk x value hx).2.1
  · rcases (hk x value hx).equal with ⟨w, hw, hrun⟩
    rw [Expr.run_ident hw, hrun]

/-- Lines do not matter where variables are read that are there. -/
theorem Expr.Becomes.ident_line (line line' : Nat) (x : String) :
    (Expr.ident line x).Becomes c k (.ident line' x) := by
  refine ⟨fun hk hyields => ?_, fun hcall hv hfit hyields henv hk => ?_⟩
  · rw [Expr.Yields] at hyields ⊢
    exact hyields
  · rw [Expr.Yields] at hyields
    rcases henv.get?_some hyields.1 with ⟨w, hw⟩
    rw [Expr.run_ident hw, Expr.run_ident hw]

/-- Runs allow copies. -/
theorem Licence.running_copies (c : RunContext) (U : String → Prop) (r : Liberty) :
    (Licence.running c U r).Copies where
  copied _ hx := .copied hx
  held _ hx hsame := .held hx hsame
  relined _ line line' x := .ident_line line line' x

end Replacements

/-- Copying values into the place of variables and reusing variables for values leave the
    result of every run as it is, whatever the budget. -/
theorem copying_passes_exact {d : Dialect} (hd : d.flavour ≠ .loose) {source : String}
    {code : Block} {scopes : Scopes} (hread : Reads d source code)
    (haccept : analyze d code = .ok scopes) (hstay : code.initsStay = true)
    (limits : Limits) (calldata : List UInt8) :
    interpret d limits calldata (Pass.rematerialize d code)
        = interpret d limits calldata code ∧
      interpret d limits calldata (Pass.reuse d code) = interpret d limits calldata code := by
  have hfits := analyze_fits hd (hread.readable hd) hstay haccept
  have hclosed := Licence.running_closed ⟨d, limits, true⟩ (fun _ => False) .exact
  have hcopies := Licence.running_copies ⟨d, limits, true⟩ (fun _ => False) .exact
  exact ⟨(Pass.rematerialize_becomes hclosed hcopies code).interpret_eq hfits calldata,
    (Pass.reuse_becomes hclosed hcopies code).interpret_eq hfits calldata⟩

/-- A loop in which both passes find something to do. -/
theorem copying_passes_exact_in_loop :
    ∃ code scopes, parseBlock .strictAssembly
        "{ let a := calldatasize()
          for { let i } lt(i, calldatasize()) { i := a } { sstore(i, a) } }"
          = .ok code ∧
      analyze .strictAssembly code = .ok scopes ∧ code.initsStay = true ∧
      (Pass.rematerialize .strictAssembly code).print ≠ code.print ∧
      (Pass.reuse .strictAssembly code).print ≠ code.print ∧
      interpret .strictAssembly .standard [] (Pass.rematerialize .strictAssembly code)
        = interpret .strictAssembly .standard [] code ∧
      interpret .strictAssembly .standard [] (Pass.reuse .strictAssembly code)
        = interpret .strictAssembly .standard [] code := by
  refine exists_of_accepted? (fun code => code.initsStay &&
    decide ((Pass.rematerialize .strictAssembly code).print ≠ code.print ∧
      (Pass.reuse .strictAssembly code).print ≠ code.print)) (by decide +kernel)
    fun code scopes hread haccept htest => ?_
  rw [Bool.and_eq_true, decide_eq_true_eq] at htest
  rcases htest with ⟨hstay, hcopied, hreused⟩
  exact ⟨hstay, hcopied, hreused,
    copying_passes_exact (by decide) (.inl hread) haccept hstay .standard []⟩

end YulToolchain
