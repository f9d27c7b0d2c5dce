import YulToolchain.Names.Fresh
import Mathlib.Data.List.Nodup
import Mathlib.Data.List.Perm.Subperm

/-!
# Granted Names Are Fresh

Whatever a supply of names hands out was available.

A supply gives up its search after a number of tries and then hands out the next
candidate without asking. That never goes wrong. Candidates with different numbers
are different, and only so many names are taken: those used already and those that
some dialect reserves. There is one more candidate than that, so not all of them
can be.

## Main definitions

* `NameSupply.takenNames`: The names that can make a candidate unavailable.

## Theorems

* `NameSupply.candidate_injective`: Different numbers give different candidates.
* `NameSupply.search_available`: The search comes upon an available candidate.
* `NameSupply.next_available`: A name that is handed out was available.
* `Dialect.reserved_of_builtin?`: The names of builtins are reserved.
-/

namespace YulToolchain

namespace Dialect

/-- The names of builtins are reserved. -/
theorem reserved_of_builtin? {d : Dialect} {name : String} {b : Builtin}
    (h : d.builtin? name = some b) : d.reserved name = true := by
  cases d with
  | typed => exact absurd h (by rintro ⟨⟩)
  | machine m =>
      have hb : m.builtin? name = some b := h
      simp only [reserved, hb, Option.isSome_some, Bool.true_or]

/-- A name that is not reserved is no builtin. -/
theorem builtin?_eq_none {d : Dialect} {name : String} (h : d.reserved name = false) :
    d.builtin? name = none := by
  rcases hb : d.builtin? name with _ | b
  · rfl
  · exact absurd ((reserved_of_builtin? hb).symm.trans h) Bool.noConfusion

end Dialect

namespace NameSupply

/-- The names that can make a candidate unavailable: those in use, the
    instructions, and the builtins that reach objects. -/
def takenNames (s : NameSupply) : List String :=
  s.used ++ Instruction.all.map (·.mnemonic) ++ ["datasize", "dataoffset", "datacopy"]

theorem length_takenNames (s : NameSupply) : s.takenNames.length = s.tries := by
  simp only [takenNames, tries, List.length_append, List.length_map]
  rfl

/-- A mnemonic is that of an instruction. -/
theorem mem_all_of_ofMnemonic? {name : String} (h : (Instruction.ofMnemonic? name).isSome = true) :
    name ∈ Instruction.all.map (·.mnemonic) := by
  rcases Option.isSome_iff_exists.mp h with ⟨op, hop⟩
  have hname : op.mnemonic = name := by simpa only [beq_iff_eq] using List.find?_some hop
  exact List.mem_map.mpr ⟨op, List.mem_of_find?_eq_some hop, hname⟩

/-- Objects are reached by three names only. -/
theorem mem_of_objectAccess? {name : String} {b : Builtin}
    (h : Builtin.objectAccess? name = some b) :
    name ∈ ["datasize", "dataoffset", "datacopy"] := by
  unfold Builtin.objectAccess? at h
  split at h
  · exact List.mem_cons_self
  · exact List.mem_cons_of_mem _ List.mem_cons_self
  · exact List.mem_cons_of_mem _ (List.mem_cons_of_mem _ List.mem_cons_self)
  · exact absurd h (by rintro ⟨⟩)

/-- Whatever the dialect, a reserved name is an instruction or reaches objects. -/
theorem mem_of_reserved {d : Dialect} {name : String} (h : d.reserved name = true) :
    name ∈ Instruction.all.map (·.mnemonic) ∨ name ∈ ["datasize", "dataoffset", "datacopy"] := by
  cases d with
  | typed => exact absurd h Bool.noConfusion
  | machine m =>
      rcases hop : Instruction.ofMnemonic? name with _ | op
      · rcases hobj : Builtin.objectAccess? name with _ | b
        · simp only [Dialect.reserved, MachineDialect.builtin?, hop, hobj, ite_self,
            Option.filter_none, Option.map_none, Option.or_none, Option.isSome_none,
            Bool.or_false, Bool.false_eq_true] at h
        · exact Or.inr (mem_of_objectAccess? hobj)
      · exact Or.inl (mem_all_of_ofMnemonic? (by rw [hop]; rfl))

-- The digits of a number give it back, and the hint in front of them is the same.
/-- Different numbers give different candidates. -/
theorem candidate_injective (hint : String) {i j : Nat}
    (h : candidate hint i = candidate hint j) : i = j := by
  have hdigits : Nat.toDigits 10 i = Nat.toDigits 10 j := by
    have htext := String.toList_inj.mpr h
    simp only [candidate, String.toList_append, List.append_cancel_left_eq,
      Nat.toString_eq_ofList_toDigits, String.toList_ofList] at htext
    exact htext
  rw [← Nat.ofDigitChars_ten_toDigits (n := i), hdigits, Nat.ofDigitChars_ten_toDigits]

/-- A candidate is never empty. -/
theorem candidate_ne_empty (hint : String) (n : Nat) : (candidate hint n).isEmpty = false := by
  rw [← Bool.not_eq_true, String.isEmpty_iff]
  intro h
  have hlist := congrArg String.toList h
  simp only [candidate, String.toList_append] at hlist
  exact absurd hlist (by simp)

/-- A candidate that is not available is among the names that are taken. -/
theorem mem_takenNames {s : NameSupply} {hint : String} {n : Nat}
    (h : s.unavailable (candidate hint n) = true) : candidate hint n ∈ s.takenNames := by
  simp only [unavailable, candidate_ne_empty, Bool.false_or, Bool.or_eq_true,
    List.contains_iff_mem] at h
  simp only [takenNames, List.mem_append]
  rcases h with h | h
  · exact Or.inl (Or.inl h)
  · rcases mem_of_reserved h with h | h
    · exact Or.inl (Or.inr h)
    · exact Or.inr h

/-- What makes a name available. -/
theorem unavailable_eq_false {s : NameSupply} {name : String} :
    s.unavailable name = false ↔
      name ≠ "" ∧ name ∉ s.used ∧ s.dialect.reserved name = false := by
  simp only [unavailable, Bool.or_eq_false_iff, and_assoc, ne_eq, ← String.isEmpty_iff,
    ← List.contains_iff_mem, Bool.not_eq_true]

/-- A search ends with an available candidate, or all it tried were taken. -/
theorem search_cases (s : NameSupply) (hint : String) : ∀ tries n,
    s.unavailable (candidate hint (s.search hint tries n)) = false ∨
      (∀ i < tries, s.unavailable (candidate hint (n + 1 + i)) = true) ∧
        s.search hint tries n = n + 1 + tries
  | 0, n => Or.inr ⟨fun i hi => absurd hi (Nat.not_lt_zero i), rfl⟩
  | tries + 1, n => by
      -- A candidate that is taken leads to the next one.
      rw [search]
      by_cases h : s.unavailable (candidate hint (n + 1)) = true
      · rw [if_pos h]
        rcases search_cases s hint tries (n + 1) with hfound | ⟨hall, hlast⟩
        · exact Or.inl hfound
        · refine Or.inr ⟨fun i hi => ?_, by rw [hlast]; omega⟩
          cases i with
          | zero => exact h
          | succ i =>
              rw [show n + 1 + (i + 1) = n + 1 + 1 + i by omega]
              exact hall i (by omega)
      · rw [if_neg h]
        exact Or.inl (by simpa only [Bool.not_eq_true] using h)

/-- The search comes upon an available candidate. -/
theorem search_available (s : NameSupply) (hint : String) (n : Nat) :
    s.unavailable (candidate hint (s.search hint s.tries n)) = false := by
  rcases search_cases s hint s.tries n with hfound | ⟨hall, hlast⟩
  · exact hfound
  · by_contra hc
    rw [Bool.not_eq_false, hlast] at hc
    -- One more candidate than there are names that could make one unavailable.
    have hsub : (List.range (s.tries + 1)).map (fun i => candidate hint (n + 1 + i))
        ⊆ s.takenNames := by
      intro name hname
      rcases List.mem_map.mp hname with ⟨i, hi, rfl⟩
      rw [List.mem_range] at hi
      refine mem_takenNames ?_
      by_cases hlt : i < s.tries
      · exact hall i hlt
      · obtain rfl : i = s.tries := by omega
        exact hc
    have hnodup : ((List.range (s.tries + 1)).map fun i => candidate hint (n + 1 + i)).Nodup := by
      refine List.Nodup.map_on (fun i _ j _ hij => ?_) List.nodup_range
      have := candidate_injective hint hij
      omega
    have hlength := (List.subperm_of_subset hnodup hsub).length_le
    rw [List.length_map, List.length_range, length_takenNames] at hlength
    omega

/-- A name that is handed out was available. -/
theorem next_available (s : NameSupply) (hint : String) :
    s.unavailable (s.next hint).1 = false := by
  unfold next
  split
  · exact search_available s hint s.counter
  · rename_i h
    simpa only [Bool.not_eq_true] using h

@[simp]
theorem used_next (s : NameSupply) (hint : String) :
    (s.next hint).2.used = (s.next hint).1 :: s.used := by
  unfold next
  split <;> rfl

@[simp]
theorem dialect_next (s : NameSupply) (hint : String) :
    (s.next hint).2.dialect = s.dialect := by
  unfold next
  split <;> rfl

/-- A name that is handed out is not empty, not used and not reserved. -/
theorem next_fresh (s : NameSupply) (hint : String) :
    (s.next hint).1 ≠ "" ∧ (s.next hint).1 ∉ s.used ∧
      s.dialect.reserved (s.next hint).1 = false :=
  unavailable_eq_false.mp (next_available s hint)

/-- A name that is handed out is the hint, or the hint with a number behind it. -/
theorem next_spelled (s : NameSupply) (hint : String) :
    (s.next hint).1 = hint ∨ ∃ n, (s.next hint).1 = candidate hint n := by
  unfold next
  split
  · exact .inr ⟨_, rfl⟩
  · exact .inl rfl

end NameSupply

end YulToolchain
