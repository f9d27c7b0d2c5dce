import YulToolchain.Dialect

/-!
# The Builtins of a Dialect

Which builtins a dialect can offer. Whatever the dialect, a builtin stands for an
instruction that does not address the stack, or reaches the objects around the
code, and in the twin of a dialect it is one of these without its code.

## Theorems

* `Dialect.builtin?_cases`: The builtins that a dialect can have.
* `Dialect.builtin?_instruction`: A builtin lowered to an instruction is that
  instruction.
* `Dialect.builtin?_query`, `Dialect.builtin?_dataCopy`: The builtins that reach
  objects.
* `Dialect.functionalInstruction?_eq`: Outside of loose assembly the instructions
  written as calls are builtins.
* `Dialect.mnemonic_of_functionalInstruction?`: An instruction is called by its own
  name.
-/

namespace YulToolchain

/-- The builtins that some dialect lowers to code: instructions and the access to
    objects. -/
def Builtin.Proper (b : Builtin) : Prop :=
  (∃ op, op.isStackManipulation = false ∧ b = .ofInstruction op) ∨
    b = .objectQuery "datasize" .dataSize ∨ b = .objectQuery "dataoffset" .dataOffset ∨
    b = .dataCopy

namespace Dialect

/-- The builtins for objects are proper ones. -/
theorem objectAccess?_proper {name : String} {b : Builtin}
    (h : Builtin.objectAccess? name = some b) : b.Proper := by
  unfold Builtin.objectAccess? at h
  split at h
  · exact Or.inr (Or.inl (Option.some.inj h).symm)
  · exact Or.inr (Or.inr (Or.inl (Option.some.inj h).symm))
  · exact Or.inr (Or.inr (Or.inr (Option.some.inj h).symm))
  · exact absurd h (by simp only [reduceCtorEq, not_false_eq_true])

/-- The builtins that a dialect can have. -/
theorem builtin?_cases {d : Dialect} {name : String} {b : Builtin}
    (h : d.builtin? name = some b) :
    ∃ b', b'.Proper ∧ (b = b' ∨ b = { b' with code := .stackEffectOnly }) := by
  cases d with
  | typed => exact absurd h (by simp only [builtin?, reduceCtorEq, not_false_eq_true])
  | machine m =>
      -- Without the marking for dry runs every builtin is proper.
      have hfound : ∀ b, ((if m.objectAccess then Builtin.objectAccess? name else none).or
          (((Instruction.ofMnemonic? name).filter (!·.isStackManipulation)).map
            Builtin.ofInstruction)) = some b → b.Proper := by
        intro b hb
        -- The two sources of builtins, the object accesses first.
        rcases Option.or_eq_some_iff.mp hb with hobj | ⟨_, hins⟩
        · split at hobj
          · exact objectAccess?_proper hobj
          · exact absurd hobj (by simp only [reduceCtorEq, not_false_eq_true])
        -- Instructions that only move the stack are not builtins.
        · rcases Option.map_eq_some_iff.mp hins with ⟨op, hop, rfl⟩
          have hstack := (Option.filter_eq_some_iff.mp hop).2
          exact Or.inl ⟨op, by simpa only [Bool.not_eq_eq_eq_not, Bool.not_true] using hstack, rfl⟩
      simp only [builtin?, MachineDialect.builtin?] at h
      -- In the dialect for dry runs the code of a builtin is replaced.
      split at h
      · rcases Option.map_eq_some_iff.mp h with ⟨b', hb', rfl⟩
        exact ⟨b', hfound b' hb', Or.inr rfl⟩
      · exact ⟨b, hfound b h, Or.inl rfl⟩

/-- A builtin that is lowered to an instruction is that instruction. -/
theorem builtin?_instruction {d : Dialect} {name : String} {b : Builtin} {op : Instruction}
    (h : d.builtin? name = some b) (hc : b.code = .instruction op) :
    op.isStackManipulation = false ∧ b = .ofInstruction op := by
  rcases builtin?_cases h with ⟨b', hproper, rfl | rfl⟩
  · rcases hproper with ⟨op', hop', rfl⟩ | rfl | rfl | rfl
    · simp only [Builtin.ofInstruction, BuiltinCode.instruction.injEq] at hc
      subst hc
      exact ⟨hop', rfl⟩
    · simp only [Builtin.objectQuery, reduceCtorEq] at hc
    · simp only [Builtin.objectQuery, reduceCtorEq] at hc
    · simp only [Builtin.dataCopy, reduceCtorEq] at hc
  · simp only [reduceCtorEq] at hc

/-- A builtin that asks about an object has one argument, a literal, and one value. -/
theorem builtin?_query {d : Dialect} {name : String} {b : Builtin}
    (h : d.builtin? name = some b) (hc : b.code = .dataSize ∨ b.code = .dataOffset) :
    b.params = 1 ∧ b.returns = 1 ∧ b.literalArguments = true := by
  rcases builtin?_cases h with ⟨b', hproper, rfl | rfl⟩
  · rcases hproper with ⟨op, _, rfl⟩ | rfl | rfl | rfl
    · simp only [Builtin.ofInstruction, reduceCtorEq, or_self] at hc
    · exact ⟨rfl, rfl, rfl⟩
    · exact ⟨rfl, rfl, rfl⟩
    · simp only [Builtin.dataCopy, reduceCtorEq, or_self] at hc
  · simp only [reduceCtorEq, or_self] at hc

/-- There is one builtin that copies out of the code. -/
theorem builtin?_dataCopy {d : Dialect} {name : String} {b : Builtin}
    (h : d.builtin? name = some b) (hc : b.code = .dataCopy) : b = .dataCopy := by
  rcases builtin?_cases h with ⟨b', hproper, rfl | rfl⟩
  · rcases hproper with ⟨op, _, rfl⟩ | rfl | rfl | rfl
    · simp only [Builtin.ofInstruction, reduceCtorEq] at hc
    · simp only [Builtin.objectQuery, reduceCtorEq] at hc
    · simp only [Builtin.objectQuery, reduceCtorEq] at hc
    · rfl
  · simp only [reduceCtorEq] at hc

/-- Outside of loose assembly the instructions written as calls are builtins. -/
theorem functionalInstruction?_eq {d : Dialect} (hd : d.flavour ≠ .loose) {name : String}
    {op : Instruction} (h : d.functionalInstruction? name = some op) :
    ∃ b, d.builtin? name = some b ∧ b.code = .instruction op := by
  cases d with
  | typed => exact absurd h (by simp only [functionalInstruction?, reduceCtorEq, not_false_eq_true])
  | machine m =>
      simp only [functionalInstruction?, MachineDialect.functionalInstruction?] at h
      split at h
      · exact absurd ‹_› hd
      · rcases Option.bind_eq_some_iff.mp h with ⟨_, _, h⟩
        rcases Option.bind_eq_some_iff.mp h with ⟨b, hb, hop⟩
        refine ⟨b, hb, ?_⟩
        unfold Builtin.instruction? at hop
        split at hop
        · rename_i op' hcode
          exact (Option.some.inj hop) ▸ hcode
        · exact absurd hop (by simp only [reduceCtorEq, not_false_eq_true])

/-- An instruction is called by its own name. -/
theorem mnemonic_of_functionalInstruction? {d : Dialect} {name : String} {op : Instruction}
    (h : d.functionalInstruction? name = some op) : op.mnemonic = name := by
  have hfound : ∀ op, Instruction.ofMnemonic? name = some op → op.mnemonic = name := by
    intro op hop
    simpa only [beq_iff_eq] using List.find?_some hop
  cases d with
  | typed => exact absurd h (by simp only [functionalInstruction?, reduceCtorEq, not_false_eq_true])
  | machine m =>
      simp only [functionalInstruction?, MachineDialect.functionalInstruction?] at h
      split at h
      · exact hfound op (Option.filter_eq_some_iff.mp h).1
      · rcases Option.bind_eq_some_iff.mp h with ⟨_, _, h⟩
        rcases Option.bind_eq_some_iff.mp h with ⟨b, hb, hop⟩
        have hcode : b.code = .instruction op := by
          unfold Builtin.instruction? at hop
          split at hop
          · rename_i op' hcode
            exact (Option.some.inj hop) ▸ hcode
          · exact absurd hop (by simp only [reduceCtorEq, not_false_eq_true])
        -- Only a builtin that stands for an instruction is lowered to one.
        simp only [MachineDialect.builtin?] at hb
        split at hb
        · rcases Option.map_eq_some_iff.mp hb with ⟨b', _, rfl⟩
          exact absurd hcode (by simp only [reduceCtorEq, not_false_eq_true])
        · rcases Option.or_eq_some_iff.mp hb with hobj | ⟨_, hins⟩
          · split at hobj
            · unfold Builtin.objectAccess? at hobj
              split at hobj <;> cases hobj <;>
                exact absurd hcode (by simp only [Builtin.objectQuery, Builtin.dataCopy,
                  reduceCtorEq, not_false_eq_true])
            · exact absurd hobj (by simp only [reduceCtorEq, not_false_eq_true])
          · rcases Option.map_eq_some_iff.mp hins with ⟨op', hop', rfl⟩
            cases hcode
            exact hfound op (Option.filter_eq_some_iff.mp hop').1

end Dialect

end YulToolchain
