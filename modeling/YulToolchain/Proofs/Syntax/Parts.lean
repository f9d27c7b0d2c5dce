import YulToolchain.Metrics
import YulToolchain.Names.Occurrences

/-!
# The Expressions of a Program

The expressions of a program are those of its statements, wherever they are nested, and the
expressions inside these, down to the literals and names.

## Main definitions

* `Expr.parts`, `Expr.inner`: The expressions inside an expression, with or without itself.
* `Block.values`: The outermost expressions of a block.
* `Block.exprs`: All expressions of a block.

## Theorems

* `Expr.mem_parts_self`, `Expr.mem_partsAll`: Where parts are found.
* `Expr.parts_trans`: Parts of parts are parts.
* `Expr.size_of_inner`: Inner expressions are smaller.
* `Block.mem_exprs`: The expressions of a block are the parts of the outermost ones.
-/

namespace YulToolchain

mutual

/-- An expression and all expressions inside it. -/
def Expr.parts : Expr → List Expr
  | .literal l => [.literal l]
  | .ident line x => [.ident line x]
  | .instr line op args => .instr line op args :: Expr.partsAll args
  | .call line name args => .call line name args :: Expr.partsAll args

/-- Some expressions and all expressions inside them. -/
def Expr.partsAll : List Expr → List Expr
  | [] => []
  | e :: rest => e.parts ++ Expr.partsAll rest

end

/-- The expressions inside an expression, without the expression itself. -/
def Expr.inner : Expr → List Expr
  | .instr _ _ args => Expr.partsAll args
  | .call _ _ args => Expr.partsAll args
  | _ => []

namespace Block

/-- The outermost expressions of a block: those that stand for a value of a statement. -/
def values (b : Block) : List Expr := b.allStmts.flatMap Stmt.exprsHere

/-- All expressions of a block. -/
def exprs (b : Block) : List Expr := Expr.partsAll b.values

end Block

theorem Expr.mem_parts_self (e : Expr) : e ∈ e.parts := by
  cases e <;> exact List.mem_cons_self

/-- A part of arguments is one of an argument. -/
theorem Expr.mem_partsAll {p : Expr} {es : List Expr} :
    p ∈ Expr.partsAll es ↔ ∃ e ∈ es, p ∈ e.parts := by
  induction es with
  | nil =>
      rw [Expr.partsAll]
      exact iff_of_false List.not_mem_nil fun h => absurd h.choose_spec.1 List.not_mem_nil
  | cons e rest ih =>
      rw [Expr.partsAll, List.mem_append, ih]
      constructor
      · rintro (h | ⟨e', he', h⟩)
        · exact ⟨e, List.mem_cons_self, h⟩
        · exact ⟨e', List.mem_cons_of_mem _ he', h⟩
      · rintro ⟨e', he', h⟩
        rcases List.mem_cons.mp he' with rfl | he'
        · exact .inl h
        · exact .inr ⟨e', he', h⟩

mutual

/-- Parts of parts are parts. -/
theorem Expr.parts_trans {p q : Expr} (hp : p ∈ q.parts) : ∀ {e : Expr}, q ∈ e.parts → p ∈ e.parts
  | .literal _, hq => List.mem_singleton.mp hq ▸ hp
  | .ident _ _, hq => List.mem_singleton.mp hq ▸ hp
  | .instr _ _ args, hq => by
      rw [Expr.parts] at hq ⊢
      rcases List.mem_cons.mp hq with rfl | hq
      · rwa [Expr.parts] at hp
      · exact List.mem_cons_of_mem _ (Expr.partsAll_trans hp hq)
  | .call _ _ args, hq => by
      rw [Expr.parts] at hq ⊢
      rcases List.mem_cons.mp hq with rfl | hq
      · rwa [Expr.parts] at hp
      · exact List.mem_cons_of_mem _ (Expr.partsAll_trans hp hq)

/-- Parts of parts are parts. -/
theorem Expr.partsAll_trans {p q : Expr} (hp : p ∈ q.parts) : ∀ {es : List Expr},
    q ∈ Expr.partsAll es → p ∈ Expr.partsAll es
  | [], hq => by
      rw [Expr.partsAll] at hq
      exact absurd hq List.not_mem_nil
  | e :: rest, hq => by
      rw [Expr.partsAll] at hq ⊢
      rcases List.mem_append.mp hq with hq | hq
      · exact List.mem_append_left _ (Expr.parts_trans hp hq)
      · exact List.mem_append_right _ (Expr.partsAll_trans hp hq)

end

theorem Expr.size_pos (e : Expr) : 0 < e.size := by
  cases e <;> rw [Expr.size] <;> omega

theorem Expr.parts_eq (e : Expr) : e.parts = e :: e.inner := by
  cases e <;> rfl

/-- Parts of inner expressions are inner expressions. -/
theorem Expr.inner_trans {p q e : Expr} (hp : p ∈ q.parts) (hq : q ∈ e.inner) : p ∈ e.inner := by
  cases e with
  | literal | ident => exact absurd hq List.not_mem_nil
  | instr | call => exact Expr.partsAll_trans hp hq

mutual

/-- Parts are not larger than the whole. -/
theorem Expr.size_of_parts {p : Expr} : ∀ {e : Expr}, p ∈ e.parts → p.size ≤ e.size
  | .literal _, hp => List.mem_singleton.mp hp ▸ Nat.le_refl _
  | .ident _ _, hp => List.mem_singleton.mp hp ▸ Nat.le_refl _
  | .instr _ _ args, hp => by
      rcases List.mem_cons.mp hp with rfl | hp
      · exact Nat.le_refl _
      · have hsmaller := Expr.size_of_partsAll hp
        rw [Expr.size]
        omega
  | .call _ _ args, hp => by
      rcases List.mem_cons.mp hp with rfl | hp
      · exact Nat.le_refl _
      · have hsmaller := Expr.size_of_partsAll hp
        rw [Expr.size]
        omega

/-- A part is no larger than the arguments it is in. -/
theorem Expr.size_of_partsAll {p : Expr} : ∀ {es : List Expr}, p ∈ Expr.partsAll es →
    p.size ≤ Expr.sizeAll es
  | [], hp => absurd hp List.not_mem_nil
  | e :: rest, hp => by
      rw [Expr.sizeAll]
      rcases List.mem_append.mp hp with hp | hp
      · have hsmaller := Expr.size_of_parts hp
        omega
      · have hsmaller := Expr.size_of_partsAll hp
        omega

end

/-- Inner expressions are smaller than the whole. -/
theorem Expr.size_of_inner {p e : Expr} (hp : p ∈ e.inner) : p.size < e.size := by
  cases e with
  | literal | ident => exact absurd hp List.not_mem_nil
  | instr | call =>
      have hsmaller := Expr.size_of_partsAll hp
      rw [Expr.size]
      omega

namespace Block

theorem mem_values {b : Block} {e : Expr} :
    e ∈ b.values ↔ ∃ s ∈ b.allStmts, e ∈ s.exprsHere := List.mem_flatMap

theorem mem_exprs {b : Block} {p : Expr} :
    p ∈ b.exprs ↔ ∃ e ∈ b.values, p ∈ e.parts := Expr.mem_partsAll

end Block

end YulToolchain
