import YulToolchain.Ast.Literal
import YulToolchain.Proofs.Static.Resolved
import YulToolchain.Proofs.Text.Bytes

/-!
# Escapes and Characters

The text of a string against the characters that its bytes make up again.

A text without a backslash stands for the encoding of its characters, and reading
that back gives the same characters. A text with a backslash never comes back. An
escape takes two characters or more for one byte, and one byte makes up one
character at most, so what comes back is shorter than the text.

## Theorems

* `unescape_reread`: Text comes back from its bytes, or is shorter when it does.
* `unescape_reread_iff`: Text comes back from its bytes just if it has no backslash.
-/

namespace YulToolchain

/-- An escape leaves less text than it takes. -/
theorem length_escape {byte : UInt8} {bytes : List UInt8} {cs : List Char}
    (h : (Text.ofBytes bytes).length ≤ cs.length) :
    (Text.ofBytes (byte :: bytes)).length < cs.length + 2 :=
  Nat.lt_succ_of_le (Nat.le_trans (Text.length_ofBytes_cons_le byte bytes) (Nat.succ_le_succ h))

/-- Text comes back from its bytes, or is shorter when it does. -/
theorem unescape_reread {cs : List Char} {bytes : List UInt8} (h : unescape cs = .ok bytes) :
    Text.ofBytes bytes = cs ∧ '\\' ∉ cs ∨
      (Text.ofBytes bytes).length < cs.length ∧ '\\' ∈ cs := by
  -- Either way the rest has not become longer.
  have hle : ∀ {more : List UInt8} {rest : List Char},
      (Text.ofBytes more = rest ∧ '\\' ∉ rest ∨
        (Text.ofBytes more).length < rest.length ∧ '\\' ∈ rest) →
      (Text.ofBytes more).length ≤ rest.length := by
    rintro more rest (⟨rfl, -⟩ | ⟨hlt, -⟩)
    · exact Nat.le_refl _
    · exact Nat.le_of_lt hlt
  -- Every escape is shorter than its text, and one of them is enough.
  fun_induction unescape cs generalizing bytes with
  | case1 =>
      cases h
      exact .inl ⟨rfl, List.not_mem_nil⟩
  | case2 => cases h
  | case3 =>
      rcases bind_eq_ok h with ⟨byte, -, h⟩
      cases h
      exact .inr ⟨length_escape (Nat.le_refl 0), List.mem_cons_self⟩
  | case4 a =>
      rcases bind_eq_ok h with ⟨byte, -, h⟩
      cases h
      exact .inr ⟨length_escape (Nat.zero_le 1), List.mem_cons_self⟩
  | case5 a b rest ih =>
      rcases bind_eq_ok h with ⟨byte, -, h⟩
      rcases bind_eq_ok h with ⟨more, hmore, h⟩
      cases h
      refine .inr ⟨Nat.lt_trans (length_escape (hle (ih hmore))) ?_, List.mem_cons_self⟩
      simp only [List.length_cons]
      omega
  | case6 c rest _ _ _ byte _ ih =>
      rcases bind_eq_ok h with ⟨more, hmore, h⟩
      cases h
      exact .inr ⟨length_escape (hle (ih hmore)), List.mem_cons_self⟩
  | case7 => cases h
  -- The last case is a character that is no escape, and it is read back as itself.
  | case8 c rest hend _ _ _ hescape ih =>
      have hc : '\\' ≠ c := fun hc => by
        cases rest with
        | nil => exact hend hc.symm rfl
        | cons b rest => exact hescape b rest hc.symm rfl
      rcases bind_eq_ok h with ⟨more, hmore, h⟩
      cases h
      rw [Text.ofBytes_encode, List.mem_cons, or_iff_right hc]
      rcases ih hmore with ⟨hback, hnot⟩ | ⟨hlt, hmem⟩
      · exact .inl ⟨by rw [hback], hnot⟩
      · exact .inr ⟨Nat.succ_lt_succ hlt, hmem⟩

/-- Text comes back from its bytes just if it has no backslash. -/
theorem unescape_reread_iff {cs : List Char} {bytes : List UInt8} (h : unescape cs = .ok bytes) :
    Text.ofBytes bytes = cs ↔ '\\' ∉ cs := by
  rcases unescape_reread h with ⟨hback, hnot⟩ | ⟨hlt, hmem⟩
  · exact iff_of_true hback hnot
  · exact iff_of_false (fun hback => absurd hlt (by rw [hback]; exact Nat.lt_irrefl _))
      (not_not_intro hmem)

end YulToolchain
