import YulToolchain.CodeGen.Frame
import Mathlib.Data.Fintype.EquivFin
import Mathlib.Tactic.NormNum

/-!
# Frames Come into Order

The moves at the end of a function always bring its frame into order.

Following the goals from slot to slot, one ends at a slot that is to be dropped or
goes around in a circle. The moves work along the way that starts at the top, so
a circle that avoids the top would never be touched. In the frame of a function
there is no such circle: goals lead downwards, except that the lowest slot leads to
the highest place that is to be filled, and so every circle passes through that
place (`Frame.Settles`). When all slots that are to be dropped are gone, it is the
top.

Each move drops a slot or brings one to its place, so no more moves are made than
there are slots and misplaced slots.

## Main definitions

* `Frame.goal?`: Where the slot at a position has to go.
* `Frame.Settles`: A frame can be brought into order.
* `Frame.misplaced`: The positions whose slots are not where they have to go.

## Theorems

* `Frame.settles_ofFunction`: The frame of a function can be brought into order.
* `Frame.Settles.unwind`: Unwinding brings such a frame into order.
* `Frame.stackEffect_unwind`: How far the moves lower the stack.
-/

namespace YulToolchain

namespace Frame

/-- Where the slot at a position has to go. -/
def goal? (f : Frame) (i : Nat) : Option Nat := f[i]?.join

/-- A frame can be brought into order, with `top` the highest place to be filled:
    every place up to it has one slot that goes there, and every circle of goals
    passes through it. -/
structure Settles (top : Nat) (f : Frame) : Prop where
  filled : ∀ g ≤ top, ∃ i, f.goal? i = some g
  single : ∀ i j g, f.goal? i = some g → f.goal? j = some g → i = j
  bounded : ∀ i g, f.goal? i = some g → g ≤ top
  circle : ∀ S : Nat → Prop, (∀ i, S i → ∃ j, f.goal? i = some j ∧ S j ∧ j ≠ i) →
    ∀ i, S i → S top

/-- The positions whose slots are not where they have to go. -/
def misplaced (f : Frame) : Finset Nat := (Finset.range f.size).filter fun i => f.goal? i ≠ some i

theorem lt_size_of_goal? {f : Frame} {i g : Nat} (h : f.goal? i = some g) : i < f.size := by
  by_contra hc
  rw [goal?, Array.getElem?_eq_none (Nat.le_of_not_lt hc)] at h
  exact absurd h (by simp only [Option.join_none, reduceCtorEq, not_false_eq_true])

theorem goal?_pop {f : Frame} {i : Nat} (h : i < f.size - 1) :
    goal? (Array.pop f) i = f.goal? i := by
  simp only [goal?, Array.getElem?_pop, if_pos h]

/-- Two slots exchange their goals. -/
theorem goal?_swap {f : Frame} {a b : Nat} (ha : a < f.size) (hb : b < f.size) (i : Nat) :
    goal? (f.swapIfInBounds a b) i
      = if i = b then f.goal? a else if i = a then f.goal? b else f.goal? i := by
  rw [goal?, Array.swapIfInBounds_def, dif_pos ha, dif_pos hb, Array.getElem?_swap]
  simp only [eq_comm (a := i), goal?, Array.getElem?_eq_getElem ha, Array.getElem?_eq_getElem hb]
  split
  · rfl
  · split <;> rfl

/-- An exchange keeps the size. -/
theorem size_swap (f : Frame) (a b : Nat) : (f.swapIfInBounds a b).size = f.size := by
  unfold Array.swapIfInBounds
  split
  · split
    · exact Array.size_swap
    · rfl
  · rfl

/-- The return label belongs on top, the parameters nowhere, and the results from the bottom on. -/
theorem goal?_ofFunction (params returns i : Nat) :
    (ofFunction params returns).goal? i = if i = 0 then some returns
      else if params < i ∧ i ≤ params + returns then some (i - (params + 1)) else none := by
  have hsize : (#[some returns] ++ Array.replicate params none : Frame).size = params + 1 := by
    simp only [Array.size_append, List.size_toArray, List.length_cons, List.length_nil,
      Array.size_replicate]
    omega
  rw [goal?, ofFunction, Array.getElem?_append, hsize]
  -- The lowest slot, the parameters above it, and the results.
  by_cases hzero : i = 0
  · subst hzero
    rw [if_pos (Nat.succ_pos _), if_pos rfl, Array.getElem?_append, if_pos (by simp)]
    rfl
  · rw [if_neg hzero]
    by_cases hlow : i < params + 1
    · rw [if_pos hlow, if_neg (by omega), Array.getElem?_append, if_neg (by simp; omega),
        Array.getElem?_replicate, if_pos (by simp; omega)]
      rfl
    · rw [if_neg hlow, Array.getElem?_map, Array.getElem?_range]
      by_cases hin : i ≤ params + returns
      · rw [if_pos (by omega), if_pos ⟨by omega, hin⟩]
        rfl
      · rw [if_neg (by omega), if_neg fun h => hin h.2]
        rfl

theorem size_ofFunction (params returns : Nat) :
    (ofFunction params returns).size = 1 + params + returns := by
  simp only [ofFunction, Array.size_append, List.size_toArray, List.length_cons, List.length_nil,
    Array.size_replicate, Array.size_map, Array.size_range]

/-- The frame of a function can be brought into order. -/
theorem settles_ofFunction (params returns : Nat) :
    (ofFunction params returns).Settles returns := by
  have hgoal := goal?_ofFunction params returns
  refine ⟨?_, ?_, ?_, ?_⟩
  · intro g hg
    -- The goal on top is that of the lowest slot, all others are those of the results.
    by_cases htop : g = returns
    · exact ⟨0, by rw [hgoal, if_pos rfl, htop]⟩
    · refine ⟨g + (params + 1), ?_⟩
      rw [hgoal, if_neg (by omega), if_pos (by omega), Nat.add_sub_cancel]
  · intro i j g hi hj
    rw [hgoal] at hi hj
    -- Two results have different goals.
    split at hi <;> split at hj <;>
      simp only [Option.some.injEq, Option.ite_none_right_eq_some] at hi hj <;>
      omega
  · intro i g hi
    rw [hgoal] at hi
    split at hi <;> simp only [Option.some.injEq, Option.ite_none_right_eq_some] at hi <;> omega
  · -- The least slot of a circle can not lead further down, so it is the lowest of all.
    intro S hS i hi
    induction i using Nat.strongRecOn with
    | ind i ih =>
        rcases hS i hi with ⟨j, hj, hSj, hne⟩
        rw [hgoal] at hj
        split at hj
        · exact Option.some.inj hj ▸ hSj
        · simp only [Option.ite_none_right_eq_some, Option.some.injEq] at hj
          exact ih j (by omega) hSj

namespace Settles

variable {top : Nat} {f : Frame}

/-- The slots that go to the places to be filled. -/
theorem exists_positions (h : f.Settles top) : ∃ position : Fin (top + 1) → Fin f.size,
    Function.Injective position ∧ ∀ g, f.goal? (position g) = some g.val := by
  choose position hposition using h.filled
  refine ⟨fun g => ⟨position g (by omega), lt_size_of_goal? (hposition g (by omega))⟩, ?_,
    fun g => hposition g (by omega)⟩
  intro a b hab
  have hpos : position a (by omega) = position b (by omega) := congrArg Fin.val hab
  have ha := hposition a (by omega)
  rw [hpos, hposition b (by omega)] at ha
  exact Fin.ext (Option.some.inj ha).symm

/-- There are more slots than the highest goal. -/
theorem lt_size (h : f.Settles top) : top < f.size := by
  rcases h.exists_positions with ⟨position, hinj, _⟩
  have := Fintype.card_le_of_injective _ hinj
  simp only [Fintype.card_fin] at this
  omega

/-- A slot without a goal can be dropped off the top. -/
theorem pop (h : f.Settles top) (hlast : f.goal? (f.size - 1) = none) :
    Settles top (Array.pop f) := by
  -- Only the slot without a goal is gone.
  have hin : ∀ i g, goal? (Array.pop f) i = some g → f.goal? i = some g := by
    intro i g hi
    have hlt := lt_size_of_goal? hi
    rw [Array.size_pop] at hlt
    rwa [goal?_pop hlt] at hi
  have hout : ∀ i g, f.goal? i = some g → goal? (Array.pop f) i = some g := by
    intro i g hi
    have hne : i ≠ f.size - 1 := by
      rintro rfl
      rw [hlast] at hi
      exact absurd hi (by simp only [reduceCtorEq, not_false_eq_true])
    have hlt := lt_size_of_goal? hi
    rwa [goal?_pop (by omega)]
  refine ⟨?_, ?_, ?_, ?_⟩
  · intro g hg
    rcases h.filled g hg with ⟨i, hi⟩
    exact ⟨i, hout i g hi⟩
  · exact fun i j g hi hj => h.single i j g (hin i g hi) (hin j g hj)
  · exact fun i g hi => h.bounded i g (hin i g hi)
  -- A circle of the smaller frame was one before.
  · intro S hS
    refine h.circle S fun i hi => ?_
    rcases hS i hi with ⟨j, hj, hrest⟩
    exact ⟨j, hin i j hj, hrest⟩

-- Each slot of a circle is the goal of another one, and goals are bounded.
/-- The positions of a circle are goals themselves, so they are not above the highest goal. -/
theorem circle_le {S : Nat → Prop}
    (single : ∀ i j g, f.goal? i = some g → f.goal? j = some g → i = j)
    (bounded : ∀ i g, f.goal? i = some g → g ≤ top)
    (hS : ∀ i, S i → ∃ j, f.goal? i = some j ∧ S j ∧ j ≠ i) {i : Nat} (hi : S i) : i ≤ top := by
  classical
  by_contra hc
  let positions := (Finset.range f.size).filter S
  have hmem : ∀ k, S k → k ∈ positions := by
    intro k hk
    rcases hS k hk with ⟨j, hj, _⟩
    exact Finset.mem_filter.mpr ⟨Finset.mem_range.mpr (lt_size_of_goal? hj), hk⟩
  have hof : ∀ k ∈ positions, S k := fun k hk => (Finset.mem_filter.mp hk).2
  -- Otherwise a set is mapped into itself without one of its elements.
  have hmaps : ∀ k ∈ positions, (f.goal? k).getD 0 ∈ positions.erase i := by
    intro k hk
    rcases hS k (hof k hk) with ⟨j, hj, hSj, _⟩
    rw [hj, Option.getD_some]
    refine Finset.mem_erase.mpr ⟨?_, hmem j hSj⟩
    rintro rfl
    exact hc (bounded k j hj)
  -- Different positions have different goals.
  have hinj : Set.InjOn (fun k => (f.goal? k).getD 0) positions := by
    intro a ha b hb hab
    rcases hS a (hof a ha) with ⟨j, hj, _⟩
    rcases hS b (hof b hb) with ⟨k, hk, _⟩
    simp only [hj, hk, Option.getD_some] at hab
    subst hab
    exact single a b j hj hk
  have hle := Finset.card_le_card_of_injOn _ hmaps hinj
  have hlt := Finset.card_erase_lt_of_mem (hmem i hi)
  omega

/-- A slot can be brought from the top to its place. -/
theorem swap (h : f.Settles top) {g : Nat} (hlast : f.goal? (f.size - 1) = some g)
    (hne : g ≠ f.size - 1) : Settles top (f.swapIfInBounds g (f.size - 1)) := by
  have hlow := h.lt_size
  have hg := h.bounded _ _ hlast
  have hgoal := goal?_swap (f := f) (a := g) (b := f.size - 1) (by omega) (by omega)
  -- The exchange renumbers the positions.
  let σ : Nat → Nat := fun i => if i = f.size - 1 then g else if i = g then f.size - 1 else i
  have hσ : ∀ i, goal? (f.swapIfInBounds g (f.size - 1)) i = f.goal? (σ i) := by
    intro i
    simp only [hgoal, σ]
    -- Position by position the renumbering tells where the goal was.
    split
    · rfl
    · split <;> rfl
  have hσσ : ∀ i, σ (σ i) = i := by
    intro i
    simp only [σ]
    split_ifs <;> omega
  have hsingle : ∀ i j k, goal? (f.swapIfInBounds g (f.size - 1)) i = some k →
      goal? (f.swapIfInBounds g (f.size - 1)) j = some k → i = j := by
    intro i j k hi hj
    rw [hσ] at hi hj
    rw [← hσσ i, ← hσσ j, h.single _ _ k hi hj]
  have hbounded : ∀ i k, goal? (f.swapIfInBounds g (f.size - 1)) i = some k → k ≤ top := by
    intro i k hi
    rw [hσ] at hi
    exact h.bounded _ k hi
  -- Goals are filled, single and bounded as before.
  refine ⟨?_, hsingle, hbounded, ?_⟩
  · intro k hk
    rcases h.filled k hk with ⟨i, hi⟩
    exact ⟨σ i, by rw [hσ, hσσ, hi]⟩
  · intro S hS i hi
    by_cases hl : S (f.size - 1)
    · have hle := circle_le hsingle hbounded hS hl
      rwa [show top = f.size - 1 by omega]
    · -- The slot at the place is on no circle any more, so this was one before.
      refine h.circle S (fun k hk => ?_) i hi
      rcases hS k hk with ⟨j, hj, hSj, hjk⟩
      have hkl : k ≠ f.size - 1 := fun hc => hl (hc ▸ hk)
      have hkg : k ≠ g := by
        rintro rfl
        rw [hgoal, if_neg hkl, if_pos rfl, hlast] at hj
        exact hjk (Option.some.inj hj).symm
      rw [hgoal, if_neg hkl, if_neg hkg] at hj
      exact ⟨j, hj, hSj, hjk⟩

/-- When the top is in place, everything is. -/
theorem ordered (h : f.Settles top) (hlast : f.goal? (f.size - 1) = some (f.size - 1)) :
    f.size = top + 1 ∧ ∀ i ≤ top, f.goal? i = some i := by
  have hlow := h.lt_size
  have hbound := h.bounded _ _ hlast
  have hsize : f.size = top + 1 := by omega
  have htop : f.goal? top = some top := by rwa [hsize] at hlast
  refine ⟨hsize, fun i hi => ?_⟩
  -- All goals are taken, so the slots that are not in place form circles.
  have hsome : ∀ k ≤ top, ∃ g, f.goal? k = some g := by
    intro k hk
    rcases h.exists_positions with ⟨position, hinj, hposition⟩
    have hbij := (Fintype.bijective_iff_injective_and_card position).mpr ⟨hinj, by
      simp only [Fintype.card_fin, hsize]⟩
    rcases hbij.2 ⟨k, by omega⟩ with ⟨g, hg⟩
    exact ⟨g, by rw [← hposition g, hg]⟩
  by_contra hc
  have hcircle := h.circle (fun k => k ≤ top ∧ f.goal? k ≠ some k) (fun k hk => ?_) i ⟨hi, hc⟩
  · exact hcircle.2 htop
  · rcases hsome k hk.1 with ⟨g, hg⟩
    have hne : g ≠ k := fun hgk => hk.2 (hgk ▸ hg)
    refine ⟨g, hg, ⟨h.bounded k g hg, fun hgg => ?_⟩, hne⟩
    exact hne (h.single g k g hgg hg)

end Settles

theorem back?_eq_goal? (f : Frame) : f.back?.join = f.goal? (f.size - 1) := by
  rw [Array.back?_eq_getElem?, goal?]

theorem card_misplaced_le (f : Frame) : f.misplaced.card ≤ f.size :=
  (Finset.card_filter_le _ _).trans (Finset.card_range _).le

/-- Dropping a slot misplaces none. -/
theorem card_misplaced_pop (f : Frame) : (misplaced (Array.pop f)).card ≤ f.misplaced.card := by
  refine Finset.card_le_card fun i hi => ?_
  rcases Finset.mem_filter.mp hi with ⟨hlt, hne⟩
  rw [Finset.mem_range, Array.size_pop] at hlt
  rw [goal?_pop hlt] at hne
  exact Finset.mem_filter.mpr ⟨Finset.mem_range.mpr (by omega), hne⟩

/-- An exchange brings a slot to its place for good. -/
theorem card_misplaced_swap {top : Nat} {f : Frame} (h : f.Settles top) {g : Nat}
    (hlast : f.goal? (f.size - 1) = some g) (hne : g ≠ f.size - 1) :
    (misplaced (f.swapIfInBounds g (f.size - 1))).card < f.misplaced.card := by
  have hlow := h.lt_size
  have hg := h.bounded _ _ hlast
  have hgoal := goal?_swap (f := f) (a := g) (b := f.size - 1) (by omega) (by omega)
  -- The slot that is the goal was misplaced, since only the highest slot has this goal.
  have hmem : g ∈ f.misplaced := by
    refine Finset.mem_filter.mpr ⟨Finset.mem_range.mpr (by omega), fun hc => hne ?_⟩
    exact h.single _ _ g hc hlast
  refine lt_of_le_of_lt (Finset.card_le_card fun i hi => ?_) (Finset.card_erase_lt_of_mem hmem)
  rcases Finset.mem_filter.mp hi with ⟨hlt, hmis⟩
  rw [size_swap, Finset.mem_range] at hlt
  rw [hgoal] at hmis
  -- It is in place now.
  have hig : i ≠ g := by
    rintro rfl
    rw [if_neg hne, if_pos rfl] at hmis
    exact hmis hlast
  refine Finset.mem_erase.mpr ⟨hig, Finset.mem_filter.mpr ⟨Finset.mem_range.mpr hlt, ?_⟩⟩
  -- All other slots are as before.
  by_cases hil : i = f.size - 1
  · rw [hil, hlast]
    exact fun hc => hne (Option.some.inj hc)
  · rwa [if_neg hil, if_neg hig] at hmis

/-- Unwinding brings a frame into order, if it is small enough for the exchanges of
    the machine. -/
theorem Settles.unwind {top : Nat} : ∀ (fuel : Nat) {f : Frame}, f.Settles top → f.size ≤ 17 →
    f.size + f.misplaced.card ≤ fuel →
      ∃ moves f', Frame.unwind fuel f = .ok (moves, f') ∧ f'.size = top + 1 ∧
        ∀ i ≤ top, f'.goal? i = some i
  | 0, f, h, _, hfuel => absurd h.lt_size (by omega)
  | fuel + 1, f, h, hsize, hfuel => by
      have hlow := h.lt_size
      have hback := back?_eq_goal? f
      rw [Frame.unwind]
      -- The highest slot has no goal, is in place or belongs further down.
      rcases hb : f.back? with _ | _ | g
      · rw [Array.back?_eq_getElem?, Array.getElem?_eq_none_iff] at hb
        omega
      · rw [hb] at hback
        have hpop := card_misplaced_pop f
        have hsize' : (Array.pop f).size = f.size - 1 := Array.size_pop
        -- Without a goal it is dropped, which makes the frame smaller.
        rcases Settles.unwind fuel (h.pop hback.symm) (by omega) (by omega) with
          ⟨moves, f', hok, hend⟩
        exact ⟨.pop :: moves, f', by simp only [hok]; rfl, hend⟩
      · rw [hb] at hback
        have hlast : f.goal? (f.size - 1) = some g := hback.symm
        have hg := h.bounded _ _ hlast
        simp only
        -- In place: then the whole frame is, since there are no circles.
        split
        · rename_i heq
          subst heq
          exact ⟨[], f, rfl, h.ordered hlast⟩
        · rename_i hne
          -- Further down: the exchange misplaces fewer.
          have hswap := card_misplaced_swap h hlast hne
          have hsize' := size_swap f g (f.size - 1)
          rcases Settles.unwind fuel (h.swap hlast hne) (by omega) (by omega) with
            ⟨moves, f', hok, hend⟩
          -- The frame is small enough for an instruction to reach the slot.
          have hmove : Instruction.swapOf (f.size - 1 - g)
              = .ok (.swap ⟨f.size - 1 - g - 1, by omega⟩) := by
            rw [Instruction.swapOf, dif_pos (by omega)]
          exact ⟨_ :: moves, f', by simp only [hmove, hok]; rfl, hend⟩

/-- What the first move of an unwinding is: none, a drop, or an exchange. -/
theorem unwind_cases {fuel : Nat} {f f' : Frame} {moves : List Instruction}
    (h : Frame.unwind (fuel + 1) f = .ok (moves, f')) :
    (moves = [] ∧ f' = f) ∨
    (0 < f.size ∧ f.goal? (f.size - 1) = none ∧
      ∃ rest, moves = .pop :: rest ∧ Frame.unwind fuel (Array.pop f) = .ok (rest, f')) ∨
    (∃ g k rest, f.goal? (f.size - 1) = some g ∧ g < f.size - 1 ∧ k.val + 1 = f.size - 1 - g ∧
      moves = .swap k :: rest ∧
      Frame.unwind fuel (f.swapIfInBounds g (f.size - 1)) = .ok (rest, f')) := by
  have hback := back?_eq_goal? f
  rw [Frame.unwind] at h
  rcases hb : f.back? with _ | _ | g
  · rw [hb] at h
    cases h
    exact Or.inl ⟨rfl, rfl⟩
  -- No goal: dropped.
  · rw [hb] at h hback
    have hpos : 0 < f.size := by
      by_contra hc
      rw [Array.back?_eq_getElem?, Array.getElem?_eq_none (by omega)] at hb
      exact absurd hb (by simp only [reduceCtorEq, not_false_eq_true])
    rcases hrest : Frame.unwind fuel (Array.pop f) with e | ⟨rest, f''⟩
    · simp only [hrest] at h
      exact absurd h (by rintro ⟨⟩)
    · simp only [hrest] at h
      cases h
      exact Or.inr (Or.inl ⟨hpos, hback.symm, rest, rfl, rfl⟩)
  -- A goal: in place, or exchanged.
  · rw [hb] at h hback
    simp only at h
    split at h
    · cases h
      exact Or.inl ⟨rfl, rfl⟩
    · rw [Instruction.swapOf] at h
      split at h
      · rename_i hin
        rcases hrest : Frame.unwind fuel (f.swapIfInBounds g (f.size - 1)) with e | ⟨rest, f''⟩
        · simp only [hrest] at h
          exact absurd h (by rintro ⟨⟩)
        · simp only [hrest] at h
          cases h
          refine Or.inr (Or.inr ⟨g, _, rest, hback.symm, by omega, ?_, rfl, hrest⟩)
          simp only
          omega
      · exact absurd h (by rintro ⟨⟩)

/-- The moves lower the stack by the slots that they drop. -/
theorem stackEffect_unwind : ∀ (fuel : Nat) {f f' : Frame} {moves : List Instruction},
    Frame.unwind fuel f = .ok (moves, f') →
      (moves.map Instruction.stackEffect).sum = (f'.size : Int) - f.size
  | 0, f, f', moves, h => by
      cases h
      simp only [List.map_nil, List.sum_nil, sub_self]
  | fuel + 1, f, f', moves, h => by
      -- The three ways to start, as before.
      rcases unwind_cases h with ⟨rfl, rfl⟩ | ⟨hpos, _, rest, rfl, hrest⟩ |
        ⟨g, k, rest, _, _, _, rfl, hrest⟩
      · simp only [List.map_nil, List.sum_nil, sub_self]
      · have ih := stackEffect_unwind fuel hrest
        rw [Array.size_pop] at ih
        rw [List.map_cons, List.sum_cons, ih]
        simp only [Instruction.stackEffect, Instruction.returns, Instruction.args,
          Instruction.info]
        omega
      · have ih := stackEffect_unwind fuel hrest
        rw [size_swap] at ih
        rw [List.map_cons, List.sum_cons, ih]
        simp only [Instruction.stackEffect, Instruction.returns, Instruction.args,
          Instruction.info]
        omega

/-- Goals in place mean that the frame is in order. -/
theorem inOrder_of_goals {f : Frame} {top : Nat} (hsize : f.size = top + 1)
    (h : ∀ i ≤ top, f.goal? i = some i) : f.inOrder = true := by
  rw [inOrder, List.all_eq_true]
  rintro ⟨goal, position⟩ hmem
  have hget := List.mem_zipIdx_iff_getElem?.mp hmem
  simp only [Array.getElem?_toList] at hget
  have hlt : position < f.size := by
    by_contra hc
    rw [Array.getElem?_eq_none (by omega)] at hget
    exact absurd hget (by simp only [reduceCtorEq, not_false_eq_true])
  have := h position (by omega)
  rw [goal?, hget, Option.join_some] at this
  simp only [this, beq_self_eq_true]

end Frame

end YulToolchain
