import YulToolchain.Proofs.Bytecode.Coded
import YulToolchain.Proofs.CodeGen.Frame

/-!
# Running Pieces of Code

What the machine does at the pieces that code of every statement is made of.

A piece is executed from its first position to its last, or up to a jump that leaves it,
and the machine never leaves the own code of the program on the way. Jumps are to labels,
so where they lead is said by the place where the label stands.

The longest of the pieces brings the frame of a function into order. Code generation
plans its moves on the goals of the slots. Every move does to the slots what it does to
the goals, so that in the end each word lies where its goal says.

## Main definitions

* `Frame.Carries`: The words of a frame with the same goal are the same.

## Theorems

* `Bytecode.Loaded.walk_zeros`, `Bytecode.Loaded.walk_pops`: Pushing and dropping.
* `Bytecode.Loaded.walk_stores`: Storing.
* `Bytecode.Loaded.walk_goTo`, `Bytecode.Loaded.walk_goToIf`,
  `Bytecode.Loaded.walk_goToUnless`: Jumps.
* `Bytecode.Loaded.walk_unwind`: The return from a function.
-/

namespace YulToolchain

open Bytecode

theorem Word.ofBool_eq_zero {b : Bool} : Word.ofBool b = 0 ↔ b = false := by
  cases b <;> decide

/-- What stands in the code starts in front of its end. -/
theorem Item.StandsAt.lt_sizeAll {i : Item} {items : List Item} {offset : Nat}
    (h : i.StandsAt items offset) : offset < Item.sizeAll items := by
  have hle := h.le_sizeAll
  have hpos := i.size_pos
  omega

/-- Each of some words on the stack is put into a slot at a depth below it, from the top on. -/
def Instruction.stores (depths : List (Fin 16)) : List Instruction :=
  depths.flatMap fun depth => [.swap depth, .pop]

theorem Instruction.stores_concat (depths : List (Fin 16)) (depth : Fin 16) :
    stores (depths ++ [depth]) = stores depths ++ stores [depth] := List.flatMap_append

namespace Bytecode

variable {limits : Limits} {items : List Item} {code : List UInt8} {first last : Nat}
  {stack : List Word} {state : MachineState}

section Moves

/-- Zeros are pushed. -/
theorem Loaded.walk_zeros (hl : Loaded items code) : ∀ {n first : Nat} {stack : List Word},
    Item.Span items first (Item.zeros n) last →
      Walks limits code (Item.sizeAll items) ⟨first, stack, state⟩
        ⟨last, List.replicate n 0 ++ stack, state⟩
  | 0, first, stack, h => by
      rw [h.nil]
      exact .refl _
  | n + 1, first, stack, h => by
      rcases Item.Span.cons h with ⟨hhere, hrest⟩
      refine .step hhere.lt_sizeAll (hl.step_constant hhere) ?_
      have hall : List.replicate (n + 1) (0 : Word) ++ stack
          = List.replicate n 0 ++ 0 :: stack := by
        rw [List.replicate_succ', List.append_assoc]
        rfl
      rw [hall]
      exact hl.walk_zeros hrest

/-- Slots are dropped. -/
theorem Loaded.walk_pops (hl : Loaded items code) : ∀ (top : List Word) {first : Nat},
    Item.Span items first (Item.pops top.length) last →
      Walks limits code (Item.sizeAll items) ⟨first, top ++ stack, state⟩ ⟨last, stack, state⟩
  | [], first, h => by
      rw [h.nil]
      exact .refl _
  | w :: top, first, h => by
      rcases Item.Span.cons h with ⟨hhere, hrest⟩
      exact .step hhere.lt_sizeAll (hl.step_pop hhere) (hl.walk_pops top hrest)

/-- A store exchanges and drops. -/
theorem performAll_store {depth : Fin 16} {top w : Word} (h : stack[depth.val]? = some w) :
    performAll limits code (Instruction.stores [depth]) ⟨first, top :: stack, state⟩
      = some ⟨first + (Instruction.stores [depth]).length, stack.set depth top, state⟩ := by
  show performAll limits code [.swap depth, .pop] ⟨first, top :: stack, state⟩ = _
  rw [performAll, perform_swap h]
  rfl

/-- Words are put into slots where the code that does so stands. -/
theorem Loaded.walk_stores (hl : Loaded items code) : ∀ {depths : List (Fin 16)} {first pc : Nat}
    {stack stack' : List Word},
      Item.Span items first ((Instruction.stores depths).map .instruction) last →
      performAll limits code (Instruction.stores depths) ⟨first, stack, state⟩
        = some ⟨pc, stack', state⟩ →
      Walks limits code (Item.sizeAll items) ⟨first, stack, state⟩ ⟨last, stack', state⟩
  -- One swap and one pop for each depth.
  | [], first, pc, stack, stack', hspan, h => by
      obtain ⟨⟩ := h
      rw [hspan.nil]
      exact .refl _
  | depth :: depths, first, pc, [], stack', hspan, h => absurd h (by rintro ⟨⟩)
  | depth :: depths, first, pc, top :: stack, stack', hspan, h => by
      rcases Item.Span.cons hspan with ⟨hswap, hrest⟩
      rcases hrest.cons with ⟨hpop, hrest⟩
      have hsplit : Instruction.stores (depth :: depths)
          = Instruction.stores [depth] ++ Instruction.stores depths := rfl
      rcases hw : stack[depth.val]? with _ | w
      -- A depth that is not on the stack would make the instructions fail.
      · have hnone : performAll limits code (Instruction.stores (depth :: depths))
            ⟨first, top :: stack, state⟩ = none := by
          show performAll limits code (.swap depth :: .pop :: Instruction.stores depths) _ = _
          rw [performAll, perform_swap_none hw]
        rw [hnone] at h
        exact absurd h (by rintro ⟨⟩)
      · rw [hsplit, performAll_append, performAll_store hw] at h
        exact .step hswap.lt_sizeAll (hl.step_swap hswap hw)
          (.step hpop.lt_sizeAll (hl.step_pop hpop) (hl.walk_stores hrest h))

end Moves

section Jumps

variable {id position : Nat}

/-- A label that is referred to stands somewhere. -/
theorem Loaded.exists_label (hl : Loaded items code)
    (h : (Item.reference (.label id)).StandsAt items first) :
    ∃ position, (Item.label id).StandsAt items position := by
  rcases hl.reference first _ h with ⟨value, -, -, hstands⟩
  exact ⟨value, hstands id rfl⟩

/-- A jump leads to its label. -/
theorem Loaded.walk_goTo (hl : Loaded items code) (h : Item.Span items first (Item.goTo id) last)
    (hlabel : (Item.label id).StandsAt items position) :
    Walks limits code (Item.sizeAll items) ⟨first, stack, state⟩ ⟨position, stack, state⟩ := by
  rcases Item.Span.cons h with ⟨href, hrest⟩
  rcases hrest.cons with ⟨hjump, -⟩
  rcases hl.step_reference href hlabel limits stack state with ⟨w, hw, hstep⟩
  exact .step href.lt_sizeAll hstep (.one hjump.lt_sizeAll (hl.step_jump hjump hw))

/-- A conditional jump leads to its label unless the word is zero. -/
theorem Loaded.walk_goToIf (hl : Loaded items code)
    (h : Item.Span items first (Item.goToIf id) last)
    (hlabel : (Item.label id).StandsAt items position) {test : Word} :
    Walks limits code (Item.sizeAll items) ⟨first, test :: stack, state⟩
      ⟨if test = 0 then last else position, stack, state⟩ := by
  rcases Item.Span.cons h with ⟨href, hrest⟩
  rcases hrest.cons with ⟨hjump, hend⟩
  rcases hl.step_reference href hlabel limits (test :: stack) state with ⟨w, hw, hstep⟩
  rw [hend.nil]
  exact .step href.lt_sizeAll hstep (.one hjump.lt_sizeAll (hl.step_jumpi hjump hw))

/-- The other way around. -/
theorem Loaded.walk_goToUnless (hl : Loaded items code)
    (h : Item.Span items first (Item.goToUnless id) last)
    (hlabel : (Item.label id).StandsAt items position) {test : Word} :
    Walks limits code (Item.sizeAll items) ⟨first, test :: stack, state⟩
      ⟨if test = 0 then position else last, stack, state⟩ := by
  rcases Item.Span.cons h with ⟨hhere, hrest⟩
  have hstep : step limits code ⟨first, test :: stack, state⟩
      = .on ⟨first + (Item.instruction .iszero).size, Word.ofBool (test == 0) :: stack, state⟩ :=
    hl.step_operate hhere rfl (by decide) (rfl : [test].length = 1)
  have hgoal : (if test = 0 then position else last)
      = if Word.ofBool (test == 0) = 0 then last else position := by
    simp only [Word.ofBool_eq_zero, beq_eq_false_iff_ne, ne_eq, ite_not]
  rw [hgoal]
  exact .step hhere.lt_sizeAll hstep (hl.walk_goToIf hrest hlabel)

/-- A comparison with the top of the stack, which stays. -/
theorem Loaded.walk_goToCase (hl : Loaded items code) {w subject : Word}
    (h : Item.Span items first
      (.constant w :: .instruction (.dup 1) :: .instruction .eq :: Item.goToIf id) last)
    (hlabel : (Item.label id).StandsAt items position) :
    Walks limits code (Item.sizeAll items) ⟨first, subject :: stack, state⟩
      ⟨if w = subject then position else last, subject :: stack, state⟩ := by
  rcases Item.Span.cons h with ⟨hconstant, h₁⟩
  rcases h₁.cons with ⟨hdup, h₂⟩
  rcases h₂.cons with ⟨heq, h₃⟩
  have hgoal : (if w = subject then position else last)
      = if Word.ofBool (subject == w) = 0 then last else position := by
    simp only [Word.ofBool_eq_zero, beq_eq_false_iff_ne, ne_eq, ite_not, eq_comm (a := subject)]
  rw [hgoal]
  refine .step hconstant.lt_sizeAll (hl.step_constant hconstant) ?_
  refine .step hdup.lt_sizeAll (hl.step_dup hdup rfl) ?_
  exact .step heq.lt_sizeAll (hl.step_operate heq rfl (by decide) (rfl : [subject, w].length = 2))
    (hl.walk_goToIf h₃ hlabel)

end Jumps

end Bytecode

section Rows

variable {row stack : List Word} {slot depth : Nat}

/-- A slot of a frame, which is counted from its bottom, on the stack, which is counted
    from its top. -/
theorem getElem?_row (h : slot + depth + 1 = row.length) :
    (row.reverse ++ stack)[depth]? = row[slot]? := by
  rw [List.getElem?_append_left (by rw [List.length_reverse]; omega),
    List.getElem?_reverse (by omega), show row.length - 1 - depth = slot by omega]

/-- Setting a word of the row sets one on the stack. -/
theorem set_row (h : slot + depth + 1 = row.length) (w : Word) :
    (row.reverse ++ stack).set depth w = (row.set slot w).reverse ++ stack := by
  rw [List.set_append_left _ _ (by rw [List.length_reverse]; omega)]
  congr 1
  refine List.ext_getElem? fun i => ?_
  by_cases hi : i < row.length
  · rw [List.getElem?_set, List.getElem?_reverse hi,
      List.getElem?_reverse (by rwa [List.length_set]), List.getElem?_set, List.length_set,
      List.length_reverse]
    by_cases hdepth : depth = i
    · rw [if_pos hdepth, if_pos (show slot = row.length - 1 - i by omega), if_pos (by omega),
        if_pos (by omega)]
    · rw [if_neg hdepth, if_neg (by omega)]
  · rw [List.getElem?_eq_none (by rw [List.length_set, List.length_reverse]; omega),
      List.getElem?_eq_none (by rw [List.length_reverse, List.length_set]; omega)]

theorem exists_top (h : 0 < row.length) : ∃ rest top, row = rest ++ [top] :=
  ⟨row.dropLast, row.getLast (List.ne_nil_of_length_pos h), (List.dropLast_append_getLast _).symm⟩

end Rows

namespace Frame

/-- The slots of a frame hold the words that are to be at their goals. -/
structure Carries (f : Frame) (goals row : List Word) : Prop where
  length : row.length = f.size
  values : ∀ i g, f.goal? i = some g → row[i]? = goals[g]?

namespace Carries

variable {f : Frame} {goals row : List Word} {top : Word}

/-- Dropping the highest slot drops the top. -/
theorem pop (h : f.Carries goals (row ++ [top])) : Carries (Array.pop f) goals row := by
  have hsize : row.length + 1 = f.size := by
    rw [← h.length, List.length_append]
    rfl
  refine ⟨by rw [Array.size_pop]; omega, fun i g hg => ?_⟩
  have hi := lt_size_of_goal? hg
  rw [Array.size_pop] at hi
  rw [goal?_pop hi] at hg
  rw [← h.values i g hg, List.getElem?_append_left (by omega)]

/-- Exchanging two slots exchanges their words. -/
theorem swap (h : f.Carries goals (row ++ [top])) {g : Nat} {w : Word} (hg : row[g]? = some w) :
    Carries (f.swapIfInBounds g (f.size - 1)) goals (row.set g top ++ [w]) := by
  -- The frame is as large as the row.
  have hsize : row.length + 1 = f.size := by
    rw [← h.length, List.length_append]
    rfl
  have hlt := (List.getElem?_eq_some_iff.mp hg).1
  refine ⟨by rw [size_swap, List.length_append, List.length_set, ← hsize]; rfl, fun i j hj => ?_⟩
  have hi := lt_size_of_goal? hj
  rw [size_swap] at hi
  rw [goal?_swap (by omega) (by omega)] at hj
  split at hj
  · -- The slot that is the highest now.
    rename_i htop
    have hvalue := h.values g j hj
    rw [List.getElem?_append_left hlt, hg] at hvalue
    rw [htop, List.getElem?_append_right (by rw [List.length_set]; omega), List.length_set,
      show f.size - 1 - row.length = 0 by omega]
    exact hvalue
  · rename_i hne
    rw [List.getElem?_append_left (by rw [List.length_set]; omega), List.getElem?_set]
    -- The slot that was the highest goes to the place of the other one.
    split at hj
    · rename_i hig
      subst hig
      have hvalue := h.values _ j hj
      rw [List.getElem?_append_right (by omega),
        show f.size - 1 - row.length = 0 by omega] at hvalue
      rw [if_pos rfl, if_pos hlt]
      exact hvalue
    -- All others stay.
    · rename_i hig
      rw [if_neg (Ne.symm hig), ← h.values i j hj, List.getElem?_append_left (by omega)]

/-- The frame of a function carries what it returns. -/
theorem ofFunction {params returns : Nat} {ret : Word} {args results : List Word}
    (hargs : args.length = params) (hresults : results.length = returns) :
    Carries (Frame.ofFunction params returns) (results ++ [ret]) (ret :: (args ++ results)) := by
  -- Each slot carries the word that its goal asks for.
  refine ⟨?_, fun i g hg => ?_⟩
  · rw [size_ofFunction, List.length_cons, List.length_append]
    omega
  · rw [goal?_ofFunction] at hg
    split at hg
    -- The lowest slot is the return label, whose goal is the place below.
    · rename_i hi
      obtain rfl := Option.some.inj hg
      rw [hi, List.getElem?_append_right (by omega), hresults, Nat.sub_self]
      rfl
    -- A return variable goes to its place among the results, and parameters go nowhere.
    · split at hg
      · rename_i hrange
        obtain rfl := Option.some.inj hg
        obtain ⟨j, rfl⟩ : ∃ j, i = params + j + 1 := ⟨i - (params + 1), by omega⟩
        rw [List.getElem?_cons_succ, List.getElem?_append_right (by omega), hargs,
          Nat.add_sub_cancel_left, show params + j + 1 - (params + 1) = j by omega,
          List.getElem?_append_left (by omega)]
      · exact absurd hg (by rintro ⟨⟩)

/-- A frame in order is what it carries. -/
theorem eq_of_ordered (h : f.Carries goals row) (hsize : f.size = goals.length)
    (hgoal : ∀ i < f.size, f.goal? i = some i) : row = goals := by
  refine List.ext_getElem? fun i => ?_
  by_cases hi : i < f.size
  · exact h.values i i (hgoal i hi)
  · rw [List.getElem?_eq_none (by rw [h.length]; omega), List.getElem?_eq_none (by omega)]

end Carries

end Frame

namespace Bytecode

variable {limits : Limits} {items : List Item} {code : List UInt8} {first last : Nat}
  {stack : List Word} {state : MachineState}

/-- The moves do to the words of a frame what they do to their goals. -/
theorem Loaded.walk_moves (hl : Loaded items code) {goals : List Word} : ∀ (fuel : Nat)
    {f f' : Frame} {moves : List Instruction} {row : List Word} {first : Nat},
      f.unwind fuel = .ok (moves, f') → f.Carries goals row →
      Item.Span items first (moves.map .instruction) last →
      ∃ row', f'.Carries goals row' ∧ Walks limits code (Item.sizeAll items)
        ⟨first, row.reverse ++ stack, state⟩ ⟨last, row'.reverse ++ stack, state⟩
  -- By recursion on the fuel, which is what bounds the moves.
  | 0, f, f', moves, row, first, h, hrow, hspan => by
      cases h
      rw [hspan.nil]
      exact ⟨row, hrow, .refl _⟩
  | fuel + 1, f, f', moves, row, first, h, hrow, hspan => by
      rcases Frame.unwind_cases h with ⟨rfl, rfl⟩ | ⟨hpos, -, rest, rfl, hrest⟩ |
        ⟨g, k, rest, -, hg, hk, rfl, hrest⟩
      · rw [hspan.nil]
        exact ⟨row, hrow, .refl _⟩
      · -- The highest slot is dropped.
        rcases hspan.cons with ⟨hhere, hmore⟩
        obtain ⟨row, top, rfl⟩ := exists_top (by rw [hrow.length]; exact hpos)
        rcases hl.walk_moves fuel hrest hrow.pop hmore with ⟨row', hrow', hwalk⟩
        rw [List.reverse_append]
        exact ⟨row', hrow', .step hhere.lt_sizeAll (hl.step_pop hhere) hwalk⟩
      · -- It is exchanged with one further down.
        rcases hspan.cons with ⟨hhere, hmore⟩
        obtain ⟨row, top, rfl⟩ := exists_top (by rw [hrow.length]; omega)
        have hsize : row.length + 1 = f.size := by
          rw [← hrow.length, List.length_append]
          rfl
        -- The slot to exchange with is in the row, at the depth of the instruction.
        obtain ⟨w, hw⟩ : ∃ w, row[g]? = some w := ⟨_, List.getElem?_eq_getElem (by omega)⟩
        have hdepth : g + k.val + 1 = row.length := by omega
        have hstep : step limits code ⟨first, top :: (row.reverse ++ stack), state⟩
            = .on ⟨first + (Item.instruction (.swap k)).size,
              w :: ((row.set g top).reverse ++ stack), state⟩ := by
          rw [← set_row hdepth]
          exact hl.step_swap hhere ((getElem?_row hdepth).trans hw)
        rcases hl.walk_moves fuel hrest (hrow.swap hw) hmore with ⟨row', hrow', hwalk⟩
        rw [List.reverse_append] at hwalk ⊢
        exact ⟨row', hrow', .step hhere.lt_sizeAll hstep hwalk⟩

/-- A function leaves what it returns under the position to return to. -/
theorem Loaded.walk_unwind (hl : Loaded items code) {params returns : Nat}
    {moves : List Instruction} (h : Frame.Unwinds params returns moves) {ret : Word}
    {args results : List Word} (hargs : args.length = params) (hresults : results.length = returns)
    (hspan : Item.Span items first (moves.map .instruction) last) :
    Walks limits code (Item.sizeAll items)
      ⟨first, (args ++ results).reverse ++ ret :: stack, state⟩
      ⟨last, ret :: (results.reverse ++ stack), state⟩ := by
  rcases h with ⟨hsmall, frame, hunwind⟩
  have hsize := Frame.size_ofFunction params returns
  have hfuel := Frame.card_misplaced_le (.ofFunction params returns)
  -- The frame is in order behind the moves.
  rcases Frame.Settles.unwind (2 * (Frame.ofFunction params returns).size)
    (Frame.settles_ofFunction params returns) (by omega) (by omega) with
    ⟨moves', frame', hok, hlength, hgoal⟩
  obtain ⟨rfl, rfl⟩ := Prod.mk.inj (Except.ok.inj (hunwind.symm.trans hok))
  rcases hl.walk_moves _ hunwind (.ofFunction hargs hresults) hspan with ⟨row, hrow, hwalk⟩
  have hrow : row = results ++ [ret] := by
    refine hrow.eq_of_ordered ?_ fun i hi => hgoal i (by omega)
    rw [hlength, List.length_append, hresults]
    rfl
  rw [hrow, List.reverse_append, List.reverse_cons, List.append_assoc] at hwalk
  exact hwalk

end Bytecode

end YulToolchain
